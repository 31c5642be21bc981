import HtmlTree.Proofs.Composed
import HtmlTree.Proofs.Session
import HtmlTree.Proofs.WellFormed

/-!
# Documents of a constructor

Whatever a constructor does to its document is an edit of it.  The document may also be taken away
in the middle: an empty one is in its place then, and the handles that the constructor still has are
stale.  Its rules go on to use them, and the new document is edited with them.

* `Act`, `Constructor.acted`   calls, and taking the document;
* `Composed.editsTo`           rules only edit;
* `acted_editsTo`              the document comes from a new one by edits;
* `trees_wellFormed`           **every tree is well formed**, by edits and by construction.
-/

namespace HtmlTree

/-- what is done to a constructor -/
inductive Act where
  | call (call : Call)
  | takeDocument

namespace Constructor
variable {c : Constructor}

def act (c : Constructor) : Act → Constructor
  | .call call => (c.call call).2
  | .takeDocument => c.takeDocument.2

/-- the constructor after some acts, whatever became of each -/
def acted (c : Constructor) (acts : List Act) : Constructor := acts.foldl act c

theorem acted_cons (c : Constructor) (act : Act) (acts : List Act) :
    c.acted (act :: acts) = (c.act act).acted acts := rfl

end Constructor

/-! ## rules -/

/-- a new node takes two edits, also where it is refused -/
theorem appendNew_editsTo (parent : NodeId) (d : NodeData) (c : Constructor) :
    c.tree.EditsTo ((appendNew parent d).run c).2.tree := by
  rw [appendNew_run]
  exact ⟨[.alloc d, .appendChild parent ⟨c.tree.size⟩], rfl⟩

/-- **Rules only edit the document**, and so do rules that fail. -/
theorem Composed.editsTo {α : Type} {x : Step α} (h : Composed x) (c : Constructor) :
    c.tree.EditsTo (x.run c).2.tree :=
  h.rel (R := fun c d => c.tree.EditsTo d.tree) (fun _ => .refl _) .trans (fun hg => hg.edits)
    (fun _ parent c => appendNew_editsTo parent _ c) (fun _ _ => .refl _) (fun _ _ => .refl _) c

/-! ## tokens, calls and acts -/

namespace Constructor
variable {c : Constructor}

theorem process_editsTo (c : Constructor) (token : Token) :
    c.tree.EditsTo (c.process token).2.tree := by
  cases h : c.skips token with
  | true =>
    rw [process_of_skips h]
    exact Tree.EditsTo.refl _
  | false =>
    rw [process_of_not_skips h]
    exact (Composed.processToken token).editsTo (c.begun token)

theorem next_editsTo (c : Constructor) (token : Token) : c.tree.EditsTo (c.next token).tree := by
  have htree : (c.next token).tree = (c.process token).2.tree :=
    congrArg Core.tree (c.next_core token)
  rw [htree]
  exact c.process_editsTo token

theorem call_editsTo (c : Constructor) (call : Call) : c.tree.EditsTo (c.call call).2.tree := by
  have hrefl : ∀ a : Constructor, a.tree.EditsTo a.tree := fun a => Tree.EditsTo.refl a.tree
  cases call with
  | run tokens =>
    exact run_rel (R := fun a b => a.tree.EditsTo b.tree) hrefl Tree.EditsTo.trans
      (fun token _ => next_editsTo _ token) c tokens
  | finish =>
    exact finish_rel (R := fun a b => a.tree.EditsTo b.tree) hrefl
      (fun _ => process_editsTo _ .endOfFile) c

theorem acted_editsTo (h : Tree.new.EditsTo c.tree) (acts : List Act) :
    Tree.new.EditsTo (c.acted acts).tree := by
  induction acts generalizing c with
  | nil => exact h
  | cons act acts ih =>
    rw [acted_cons]
    refine ih ?_
    cases act with
    | call call => exact h.trans (c.call_editsTo call)
    | takeDocument => exact Tree.EditsTo.refl _

end Constructor

/-! ## every tree -/

/-- **Every tree is well formed, so nothing in it is ever missing**: after any edits of a new tree,
with any handles and whatever became of each edit; and in a constructor after any calls, also where
its document has been taken away in between, and after any edits of that document. -/
theorem trees_wellFormed :
    (∀ edits : List Edit, (Tree.new.edited edits).WellFormed ∧ (Tree.new.edited edits).Closed) ∧
      ∀ (options : Options) (acts : List Act) (edits : List Edit),
        let t := ((Constructor.new options).acted acts).tree.edited edits
        t.WellFormed ∧ t.Closed := by
  have hnew : ∀ edits : List Edit,
      (Tree.new.edited edits).WellFormed ∧ (Tree.new.edited edits).Closed := by
    intro edits
    have h := Tree.WellFormed.new.edited edits
    exact ⟨h, h.closed⟩
  refine ⟨hnew, fun options acts edits => ?_⟩
  obtain ⟨before, hbefore⟩ :=
    (Constructor.acted_editsTo (c := .new options) (Tree.EditsTo.refl _) acts).trans ⟨edits, rfl⟩
  rw [← hbefore]
  exact hnew before

end HtmlTree
