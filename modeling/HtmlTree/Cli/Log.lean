import HtmlTree.Cli.ControlSequence
import HtmlTree.Construct.Journal

/-!
# Log lines of the command

The notices of a construction and two records of the command's own are written as lines, as far as
the wanted verbosity shows their level.

* `Record`           level, target and message; `Record.line`, further lines of a message indented
                     and control sequences left out;
* `recordsOf`        the records that a notice gives rise to;
* `Level.isShown`    the levels that a verbosity shows.
-/

namespace HtmlTree.Cli

structure Record where
  level : Level
  target : String
  message : String
  deriving DecidableEq

/-- every further line of a text indented by four spaces -/
def indentLines (text : String) : String :=
  String.ofList (text.toList.flatMap fun c => if c = '\n' then "\n    ".toList else [c])

/-- a level's name, padded to the longest -/
def paddedName (l : Level) : String :=
  l.name ++ String.ofList (List.replicate (5 - l.name.length) ' ')

def Record.line (r : Record) : String :=
  let line := "[" ++ paddedName r.level ++ " " ++ r.target ++ "] " ++ indentLines r.message ++ "\n"
  String.ofList (withoutSequences line.toList)

def Record.ofNotice (n : Notice) : Record := ⟨n.level, n.target, n.message⟩

/-- the command cannot switch the state of a tokenizer that has long done its work, so it says so -/
def requestRecord (s : TokenizerState) : Record :=
  ⟨.debug, "arbor", "tree construction asked for the " ++ s.name ++ " tokenizer state"⟩

def recordsOf : Notice → List Record
  | .tokenizerSwitch s => [.ofNotice (.tokenizerSwitch s), requestRecord s]
  | n => [.ofNotice n]

/-- what the command says when a construction is over -/
def summaryRecord (mode : Mode) (errors : Nat) : Record :=
  ⟨.info, "arbor", "stopped in " ++ mode.name ++ " after " ++ toString errors ++ " parse error(s)"⟩

/-- warnings are always shown, each further step of verbosity shows one level more -/
def isShown (verbosity : Nat) : Level → Bool
  | .warn => true
  | .info => 1 ≤ verbosity
  | .debug => 2 ≤ verbosity
  | .trace => 3 ≤ verbosity

/-- the lines of the records that a verbosity shows -/
def logText (verbosity : Nat) (records : List Record) : String :=
  String.join ((records.filter fun r => isShown verbosity r.level).map Record.line)

end HtmlTree.Cli
