import HtmlTree.Json.Text
import HtmlTree.Json.Value

/-!
# Writing JSON

* `compact`  a value without any white space;
* `pretty`   a value over several lines, each level indented by two more spaces; an empty array or
             object stays on its line.
-/

namespace HtmlTree.Json.Value

def boolText (b : Bool) : List Char := if b then "true".toList else "false".toList

/-! ## compact form -/

mutual

def compact : Value → List Char
  | null => "null".toList
  | bool b => boolText b
  | number literal => literal.toList
  | string s => encode s
  | array items => '[' :: compactItems items ++ [']']
  | object members => '\x7b' :: compactMembers members ++ ['\x7d']

def compactItems : List Value → List Char
  | [] => []
  | [v] => compact v
  | v :: r => compact v ++ ',' :: compactItems r

def compactMembers : List (String × Value) → List Char
  | [] => []
  | [(name, v)] => encode name ++ ':' :: compact v
  | (name, v) :: r => encode name ++ ':' :: compact v ++ ',' :: compactMembers r

end

/-! ## indented form -/

/-- a line break and the indentation of a level -/
def newLine (level : Nat) : List Char := '\n' :: List.replicate (2 * level) ' '

mutual

/-- a value whose first line stands at `level` -/
def pretty (level : Nat) : Value → List Char
  | null => "null".toList
  | bool b => boolText b
  | number literal => literal.toList
  | string s => encode s
  | array [] => "[]".toList
  | array items => '[' :: prettyItems (level + 1) items ++ newLine level ++ [']']
  | object [] => ['\x7b', '\x7d']
  | object members => '\x7b' :: prettyMembers (level + 1) members ++ newLine level ++ ['\x7d']

def prettyItems (level : Nat) : List Value → List Char
  | [] => []
  | [v] => newLine level ++ pretty level v
  | v :: r => newLine level ++ pretty level v ++ ',' :: prettyItems level r

def prettyMembers (level : Nat) : List (String × Value) → List Char
  | [] => []
  | [(name, v)] => newLine level ++ encode name ++ ':' :: ' ' :: pretty level v
  | (name, v) :: r =>
    newLine level ++ encode name ++ ':' :: ' ' :: pretty level v ++ ',' :: prettyMembers level r

end

end HtmlTree.Json.Value
