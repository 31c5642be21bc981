import HtmlTree.Cli.Replay
import HtmlTree.Text.Utf8

/-!
# The command

Reads the file or the standard input, runs the command on it and writes what it answers.
-/

namespace HtmlTree.Cli

/-- the cause of a file that cannot be opened; a directory can be opened but not read -/
def sourceOfError : IO.Error → Source
  | .noFileOrDirectory _ _ _ => .closed .notFound
  | .permissionDenied _ _ _ => .closed .denied
  | .inappropriateType (some _) _ _ => .closed .notADirectory
  | .invalidArgument (some _) _ "name too long" => .closed .nameTooLong
  | _ => .unreadable

def readSource (command : Command) : IO Source := do
  match command, command.path? with
  | .replay _, none => return .text (Text.decodeUtf8 (← (← IO.getStdin).readBinToEnd))
  | _, some path =>
    try return .text (Text.decodeUtf8 (← IO.FS.readBinFile path))
    catch e => return sourceOfError e
  | _, none => return .unreadable

end HtmlTree.Cli

open HtmlTree.Cli in
def main (args : List String) : IO UInt32 := do
  let command := Command.ofArguments args
  let out := command.execute (← readSource command)
  (← IO.getStdout).putStr out.stdout
  (← IO.getStderr).putStr out.stderr
  return out.exit.toUInt32
