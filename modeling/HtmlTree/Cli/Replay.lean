import HtmlTree.Cli.Arguments
import HtmlTree.Cli.Colour
import HtmlTree.Cli.Files
import HtmlTree.Cli.Log
import HtmlTree.Construct.Run
import HtmlTree.Dom.DocumentJson
import HtmlTree.Dom.Dump
import HtmlTree.Json.Writer
import HtmlTree.Token.Decoding

/-!
# Replaying a token stream

The command reads tokens, builds the document and prints it.  A token is read when it is its turn,
so what follows the last token that is processed is never looked at.  A malformed token that is
reached ends the command before anything is printed; after a failure of construction the document as
far as it was built is printed all the same.

* `Output`             exit code, standard output and standard error;
* `readAll`            a constructor fed from a text;
* `Settings.conclude`  the answer to a run, `Settings.replay`;
* `Command.execute`    a whole command, given what it reads;
* `Command.executeIn`  a whole command, given all files.
-/

namespace HtmlTree.Cli

structure Output where
  exit : Nat
  stdout : String
  stderr : String
  deriving DecidableEq

/-! ## messages -/

/-- an error with its cause, whose further lines are indented like the first -/
def errorText (context cause : String) : String :=
  "Error: " ++ context ++ "\n\nCaused by:\n    " ++ indentLines cause ++ "\n"

def malformedText : String := "Error: malformed token in input\n"

def parseErrorLine (e : ParseError) : String :=
  String.ofList (yellow "parse error:".toList) ++ " " ++ e.text ++ "\n"

def usageText : String := "Usage: arbor [OPTIONS] [TOKENS]\n"

/-- what is printed for a request for help -/
def helpText : String :=
  "Arbor: build an HTML document from a token stream\n\n" ++ usageText ++ "\n" ++
  "Arguments:\n" ++
  "  [TOKENS]  File of JSON tokens; a dash or nothing reads stdin\n\n" ++
  "Options:\n" ++
  "      --json           Print the document as JSON instead of the text dump\n" ++
  "      --plain          Print the text dump without colors\n" ++
  "      --strict         Stop at the first parse error\n" ++
  "      --scripting      Build with the scripting flag enabled\n" ++
  "      --iframe-srcdoc  Treat the input as an iframe srcdoc document\n" ++
  "      --no-eof         Do not process an end-of-file token when the stream runs out\n" ++
  "  -v, --verbose...     Increase log output (-v info, -vv debug, -vvv trace)\n" ++
  "  -h, --help           Print help\n" ++
  "  -V, --version        Print version\n"

def versionText : String := "arbor 0.1.0\n"

/-! ## a run -/

def Settings.options (s : Settings) : Options := ⟨s.strict, s.scripting, s.iframeSrcdoc⟩

/-- the document in the format that the settings ask for -/
def Settings.render (s : Settings) (t : Tree) : String :=
  if s.json then String.ofList (t.json.pretty 0) ++ "\n"
  else if s.plain then t.dump
  else String.ofList (colourDump t.dump.toList)

/-- the records of a construction -/
def constructionRecords (c : Constructor) : List Record := c.journal.notices.toList.flatMap recordsOf

/-- the end of a run: its log, the parse errors, the document and the failure, if there was one -/
def Settings.report (s : Settings) (outcome : Except Failure Unit) (c : Constructor) : Output :=
  let records := constructionRecords c ++ [summaryRecord c.mode c.errors.size]
  let log := logText s.verbosity records ++ String.join (c.errors.toList.map parseErrorLine)
  match outcome with
  | .ok () => ⟨0, s.render c.tree, log⟩
  | .error e => ⟨1, s.render c.tree, log ++ errorText "tree construction stopped early" e.message⟩

/-- where a run over a text has come to -/
structure TextRun where
  outcome : Except Failure Unit
  constructor : Constructor
  /-- a malformed token was reached -/
  malformed : Bool

/-- takes tokens from a text one at a time, at most `fuel` of them, until the text ends or goes on
with something else, parsing stops or a token fails -/
def readUpTo (c : Constructor) : (fuel : Nat) → List Char → TextRun
  | 0, _ => ⟨.ok (), c, !c.stopped⟩
  | fuel + 1, text =>
    if c.stopped then ⟨.ok (), c, false⟩
    else
      match Token.pull text with
      | .ended => ⟨.ok (), c, false⟩
      | .malformed => ⟨.ok (), c, true⟩
      | .token token rest =>
        let (outcome, c) := c.process token
        let (_, c) := c.takeRequest
        match outcome with
        | .error e => ⟨.error e, c, false⟩
        | .ok () => readUpTo c fuel rest

/-- takes tokens from a text, of which there are fewer than it has characters -/
def readAll (c : Constructor) (text : List Char) : TextRun := readUpTo c (text.length + 1) text

/-- the answer to a run; the end of the text is the end of the input, unless the settings say
otherwise -/
def Settings.conclude (s : Settings) (r : TextRun) : Output :=
  let c := r.constructor
  if r.malformed then
    ⟨1, "", logText s.verbosity (constructionRecords c) ++ malformedText⟩
  else
    match r.outcome with
    | .error e => s.report (.error e) c
    | .ok () =>
      if s.noEof then s.report (.ok ()) c
      else
        let (outcome, c) := c.finish
        s.report outcome c

/-- a run with its settings on what the path leads to -/
def Settings.replay (s : Settings) (source : Source) : Output :=
  let c := Constructor.new s.options
  match source with
  | .text content => s.conclude (readAll c content.toList)
  | .unreadable => s.conclude ⟨.ok (), c, true⟩
  | .closed fault => ⟨1, "", errorText ("failed to open " ++ s.path.getD "") fault.message⟩

/-! ## a whole command -/

/-- the path that a command reads, unless it reads the standard input or nothing -/
def Command.path? : Command → Option String
  | .replay s => s.path.filter (· != "-")
  | _ => none

/-- a command, given what its path or the standard input holds -/
def Command.execute (command : Command) (source : Source) : Output :=
  match command with
  | .replay s => s.replay source
  | .version => ⟨0, versionText, ""⟩
  | .help => ⟨0, helpText, ""⟩
  | .usageError => ⟨2, "", usageText⟩

/-- a command, given all files and the standard input -/
def Command.executeIn (fs : FileSystem) (stdin : String) (command : Command) : Output :=
  command.execute ((command.path?.map fs.source).getD (.text stdin))

end HtmlTree.Cli
