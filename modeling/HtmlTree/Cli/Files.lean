/-!
# Files

What a path leads to among files that are given in full.  A path is followed name by name, from the
root if it begins with a slash, else from the working directory.  A path that ends in a slash means
a directory.  A path that is too long is refused before it is followed, a name that is too long when
its turn comes.

* `OpenFault`           why a path cannot be opened;
* `Source`              what a path leads to; a directory can be opened but not read;
* `FileSystem`          directories and files, each by its place;
* `FileSystem.source`   what a path leads to in a file system.
-/

namespace HtmlTree.Cli

inductive OpenFault where
  | notFound
  | denied
  | notADirectory
  | nameTooLong
  deriving DecidableEq

def OpenFault.message : OpenFault → String
  | notFound => "No such file or directory (os error 2)"
  | denied => "Permission denied (os error 13)"
  | notADirectory => "Not a directory (os error 20)"
  | nameTooLong => "File name too long (os error 36)"

/-- what a path leads to -/
inductive Source where
  | text (content : String)
  | unreadable
  | closed (fault : OpenFault)
  deriving DecidableEq

/-! ## a file system -/

inductive FileEntry where
  | directory
  | file (content : String)
  deriving DecidableEq

/-- a place in a file system: the names from the root down -/
abbrev Place := List String

structure FileSystem where
  workingDirectory : Place
  entries : List (Place × FileEntry)
  deriving DecidableEq

namespace FileSystem

/-- the bytes that a path may have -/
def maxPath : Nat := 4095

/-- the bytes that a name in a path may have -/
def maxName : Nat := 255

/-- the names of a path; doubled slashes count once, and a slash at the end counts as a dot after it -/
def namesOf (path : String) : List String :=
  let names := (path.splitOn "/").filter fun name => !name.isEmpty
  if path.toList.getLast? = some '/' then names ++ ["."] else names

/-- follows names from a place on -/
def follow (fs : FileSystem) (place : Place) : List String → Except OpenFault FileEntry
  | [] =>
    match fs.entries.lookup place with
    | some e => .ok e
    | none => .error .notFound
  | name :: rest =>
    match fs.entries.lookup place with
    | none => .error .notFound
    | some (.file _) => .error .notADirectory
    | some .directory =>
      if name = "." then fs.follow place rest
      else if name = ".." then fs.follow place.dropLast rest
      else if maxName < name.utf8ByteSize then .error .nameTooLong
      else fs.follow (place ++ [name]) rest

def entry (fs : FileSystem) (path : String) : Except OpenFault FileEntry :=
  if maxPath < path.utf8ByteSize then .error .nameTooLong
  else
    let start := if path.toList.head? = some '/' then [] else fs.workingDirectory
    fs.follow start (namesOf path)

/-- what a path leads to -/
def source (fs : FileSystem) (path : String) : Source :=
  match fs.entry path with
  | .ok (.file content) => .text content
  | .ok .directory => .unreadable
  | .error fault => .closed fault

end FileSystem

end HtmlTree.Cli
