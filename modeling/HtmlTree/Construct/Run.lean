import HtmlTree.Construct.Closing
import HtmlTree.Construct.Foreign

/-!
# Running a constructor

A token is dispatched to the rules for foreign content or to those of the mode.  They may ask for
it to be processed anew, each time in a later mode, so a few rounds are enough.  Then the next
token is taken, until the tokens run out, parsing stops or a failure ends the run.

* `dispatch`, `processWithin`   one round, and all rounds of a token;
* `Constructor.process`         a token, counted whether or not it failed;
* `Constructor.run`             a list of tokens, with the tokenizer states asked for;
* `Constructor.finish`          the end of the input;
* `construct`, `constructWithErrors`   a whole document.
-/

namespace HtmlTree

/-! ## one token -/

/-- one round: the rules for foreign content, and those of the mode where the token goes on to them -/
def dispatch (token : Token) : Step Verdict := do
  match ← foreignStage token with
  | .done => return .done
  | .toMode => currentModeRules token

/-- at most `rounds` rounds -/
def processWithin : (rounds : Nat) → Token → Step Unit
  | 0, _ => violated .endlessReprocessing
  | rounds + 1, token => do
    match ← dispatch token with
    | .done => return
    | .reprocess token => processWithin rounds token

/-- the rounds of a token: from the first mode there are five more up to the body, and the `html` end
tag goes on to the one after it -/
def maxRounds : Nat := 7

/-- a self-closing flag that no rule had a use for is an error -/
def checkSelfClosing (token : Token) : Step Unit := do
  if token.isSelfClosingStartTag && !(← get).selfClosingUsed then
    parseError .nonVoidSelfClosingTag

def processToken (token : Token) : Step Unit := do
  processWithin maxRounds token
  checkSelfClosing token

namespace Constructor

/-- processes a token; what it did stays done even where it failed -/
def process (c : Constructor) (token : Token) : Except Failure Unit × Constructor :=
  let skip := c.skipLineFeed && token == .character '\n'
  let c := { c with journal := c.journal.add (.token c.mode token), skipLineFeed := false }
  let (outcome, c) :=
    if skip then (.ok (), c) else (processToken token).run { c with selfClosingUsed := false }
  (outcome, { c with tokenIndex := c.tokenIndex + 1 })

/-! ## many tokens -/

/-- takes the request for a tokenizer state, which thereby is passed on -/
def takeRequest (c : Constructor) : List TokenizerState × Constructor :=
  match c.requestedState with
  | none => ([], c)
  | some s =>
    ([s], { c with requestedState := none, journal := c.journal.add (.tokenizerSwitch s) })

end Constructor

/-- where a run has come to -/
structure Run where
  outcome : Except Failure Unit
  constructor : Constructor
  /-- the tokenizer states asked for, in order -/
  requests : List TokenizerState
  /-- the tokens that were not taken -/
  remaining : List Token

namespace Constructor

/-- takes tokens until they run out, parsing stops or a token fails -/
def run (c : Constructor) : List Token → Run
  | [] => ⟨.ok (), c, [], []⟩
  | token :: rest =>
    if c.stopped then ⟨.ok (), c, [], token :: rest⟩
    else
      let (outcome, c) := c.process token
      let (requests, c) := c.takeRequest
      match outcome with
      | .error e => ⟨.error e, c, requests, rest⟩
      | .ok () =>
        let r := c.run rest
        { r with requests := requests ++ r.requests }

/-- ends the input, unless parsing has stopped already -/
def finish (c : Constructor) : Except Failure Unit × Constructor :=
  if c.stopped then (.ok (), c) else c.process .endOfFile

/-- moves the document out and leaves an empty one; the stack keeps its handles -/
def takeDocument (c : Constructor) : Tree × Constructor := (c.tree, { c with tree := .new })

/-- the stack of open elements in text, from the outermost entry: names, with a label where foreign;
an entry that is no element of the document shows as a question mark -/
def openNames (c : Constructor) : List String :=
  c.openElements.toList.map fun id => ((c.tree.element? id).map (·.shownName)).getD "?"

end Constructor

/-! ## documents -/

/-- the document of a list of tokens and its parse errors, with the default options -/
def constructWithErrors (tokens : List Token) : Except Failure (Tree × List ParseError) :=
  let r := (Constructor.new .default).run tokens
  r.outcome.map fun _ => (r.constructor.tree, r.constructor.errors.toList)

/-- the document of a list of tokens, with the default options -/
def construct (tokens : List Token) : Except Failure Tree :=
  (constructWithErrors tokens).map (·.1)

end HtmlTree
