import HtmlTree.Construct.Error

/-!
# The journal of a construction

What a run has to report, as data: a notice for each event, in order.  A warning is noticed once;
its repetitions are passed over until the registry of warnings is cleared.

* `Notice`            the events, with `level`, `target` and `message`;
* `Journal.warnOnce`  a warning, and whether it was new.
-/

namespace HtmlTree

/-! ## notices -/

inductive Level where
  | warn
  | info
  | debug
  | trace
  deriving DecidableEq

def Level.name : Level → String
  | warn => "WARN"
  | info => "INFO"
  | debug => "DEBUG"
  | trace => "TRACE"

inductive Notice where
  | token (mode : Mode) (token : Token)
  | parseError (error : ParseError)
  | tokenizerSwitch (state : TokenizerState)
  | stopped (tokens errors : Nat)
  | warning (component message : String)
  deriving DecidableEq

/-- a warning as it is shown, which is also what tells warnings apart -/
def warningText (component message : String) : String := "[" ++ component ++ "] " ++ message

namespace Notice

def level : Notice → Level
  | token _ _ => .trace
  | parseError _ => .debug
  | tokenizerSwitch _ => .debug
  | stopped _ _ => .debug
  | warning _ _ => .warn

def target : Notice → String
  | warning _ _ => "arbor"
  | _ => "arbor::tree"

def message : Notice → String
  | token mode t => mode.name ++ ": " ++ t.text
  | parseError e => "parse error: " ++ e.text
  | tokenizerSwitch s => "switching tokenizer to " ++ s.name
  | stopped tokens errors =>
    "stop parsing after " ++ toString tokens ++ " tokens with " ++ toString errors ++ " parse errors"
  | warning component message => warningText component message

/-- a notice in one line: level, target and message -/
def line (n : Notice) : String := n.level.name ++ " " ++ n.target ++ ": " ++ n.message

def isWarning : Notice → Bool
  | warning _ _ => true
  | _ => false

end Notice

/-! ## the journal -/

structure Journal where
  /-- all notices, oldest first -/
  notices : Array Notice
  /-- the texts of the warnings since the last clearing -/
  warned : List String
  deriving DecidableEq

namespace Journal

def empty : Journal := ⟨#[], []⟩

def add (j : Journal) (n : Notice) : Journal := { j with notices := j.notices.push n }

/-- a warning is noticed unless its text has been noticed since the last clearing -/
def warnOnce (j : Journal) (component message : String) : Bool × Journal :=
  let text := warningText component message
  if j.warned.contains text then (false, j)
  else (true, { j.add (.warning component message) with warned := text :: j.warned })

/-- forgets which warnings have been noticed; the notices stay -/
def clearWarnings (j : Journal) : Journal := { j with warned := [] }

end Journal

end HtmlTree
