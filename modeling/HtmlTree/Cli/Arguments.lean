/-!
# The command line

Arguments are read from left to right.  The first one that cannot be read is a usage error, and a
request for the version or for help is granted at once, whatever comes after it.  Only when all
arguments are read are flags checked that exclude each other.

* `Settings`            what a run is told;
* `Command.ofArguments` what a list of arguments asks for.
-/

namespace HtmlTree.Cli

structure Settings where
  /-- the file of tokens; without one, or for a lone dash, tokens come from the standard input -/
  path : Option String
  json : Bool
  plain : Bool
  strict : Bool
  scripting : Bool
  iframeSrcdoc : Bool
  noEof : Bool
  verbosity : Nat
  deriving DecidableEq

def Settings.default : Settings := ⟨none, false, false, false, false, false, false, 0⟩

inductive Command where
  | replay (settings : Settings)
  | version
  | help
  | usageError
  deriving DecidableEq

/-! ## single arguments -/

/-- sets a flag that may be given once -/
def once (isSet : Bool) (s : Settings) : Except Command Settings :=
  if isSet then .error .usageError else .ok s

/-- a flag by its long name -/
def Settings.long (s : Settings) (name : String) : Except Command Settings :=
  match name with
  | "json" => once s.json { s with json := true }
  | "plain" => once s.plain { s with plain := true }
  | "strict" => once s.strict { s with strict := true }
  | "scripting" => once s.scripting { s with scripting := true }
  | "iframe-srcdoc" => once s.iframeSrcdoc { s with iframeSrcdoc := true }
  | "no-eof" => once s.noEof { s with noEof := true }
  | "verbose" => .ok { s with verbosity := s.verbosity + 1 }
  | "version" => .error .version
  | "help" => .error .help
  | _ => .error .usageError

/-- a flag of one letter -/
def Settings.short (s : Settings) (letter : Char) : Except Command Settings :=
  match letter with
  | 'v' => .ok { s with verbosity := s.verbosity + 1 }
  | 'V' => .error .version
  | 'h' => .error .help
  | _ => .error .usageError

/-- the one argument that is no flag, which may not be empty -/
def Settings.positional (s : Settings) (path : String) : Except Command Settings :=
  if path.isEmpty || s.path.isSome then .error .usageError else .ok { s with path := some path }

/-- any argument before the end of the flags: a long flag, letters after a dash, or a path -/
def Settings.argument (s : Settings) (arg : String) : Except Command Settings :=
  match arg.toList with
  | '-' :: '-' :: name => s.long (String.ofList name)
  | '-' :: letter :: more => (letter :: more).foldlM Settings.short s
  | _ => s.positional arg

/-! ## all arguments -/

/-- all arguments; `--` ends the flags -/
def Settings.arguments (s : Settings) : List String → Except Command Settings
  | [] => .ok s
  | "--" :: paths => paths.foldlM Settings.positional s
  | arg :: rest => do
    let s ← s.argument arg
    s.arguments rest

def Command.ofArguments (args : List String) : Command :=
  match Settings.default.arguments args with
  | .error command => command
  | .ok s => if s.json && s.plain then .usageError else .replay s

end HtmlTree.Cli
