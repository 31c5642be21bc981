import HtmlTree.Json.Number
import HtmlTree.Json.Text
import HtmlTree.Json.Value

/-!
# Reading JSON

One value is read from the front of a text and what follows is left.  Arrays and objects may be
nested 127 deep.  Every call consumes a character or hands on to one that does, so twice the length
of the text bounds the calls.

* `skipBlanks`  white space between values: space, tab, line feed, carriage return;
* `readValue`   a value, `readItems` and `readMembers` what stands in brackets;
* `read`        a value from the front of a text.
-/

namespace HtmlTree.Json

def isBlank (c : Char) : Bool := c == ' ' || c == '\t' || c == '\n' || c == '\r'

def skipBlanks (cs : List Char) : List Char := cs.dropWhile isBlank

/-- how deep arrays and objects may be nested -/
def maxDepth : Nat := 127

mutual

/-- a value within `depth` further brackets, in at most `fuel` nested calls -/
def readValue : (fuel depth : Nat) → List Char → Option (Value × List Char)
  | 0, _, _ => none
  | fuel + 1, depth, cs =>
    match skipBlanks cs with
    | 'n' :: 'u' :: 'l' :: 'l' :: r => some (.null, r)
    | 't' :: 'r' :: 'u' :: 'e' :: r => some (.bool true, r)
    | 'f' :: 'a' :: 'l' :: 's' :: 'e' :: r => some (.bool false, r)
    | '"' :: r => (readText r).map fun p => (.string p.1, p.2)
    | '[' :: r =>
      match depth with
      | 0 => none
      | depth + 1 =>
        match skipBlanks r with
        | ']' :: r => some (.array [], r)
        | r => (readItems fuel depth r).map fun p => (.array p.1, p.2)
    | '\x7b' :: r =>
      match depth with
      | 0 => none
      | depth + 1 =>
        match skipBlanks r with
        | '\x7d' :: r => some (.object [], r)
        | r => (readMembers fuel depth r).map fun p => (.object p.1, p.2)
    | cs =>
      (readNumber cs).map fun r =>
        (.number (String.ofList (cs.take (cs.length - r.length))), r)

/-- the items of an array from the next one to the closing bracket -/
def readItems : (fuel depth : Nat) → List Char → Option (List Value × List Char)
  | 0, _, _ => none
  | fuel + 1, depth, cs => do
    let (v, r) ← readValue fuel depth cs
    match skipBlanks r with
    | ',' :: r =>
      let (vs, r) ← readItems fuel depth r
      some (v :: vs, r)
    | ']' :: r => some ([v], r)
    | _ => none

/-- the members of an object from the next one to the closing brace -/
def readMembers : (fuel depth : Nat) → List Char → Option (List (String × Value) × List Char)
  | 0, _, _ => none
  | fuel + 1, depth, cs =>
    match skipBlanks cs with
    | '"' :: r => do
      let (name, r) ← readText r
      match skipBlanks r with
      | ':' :: r =>
        let (v, r) ← readValue fuel depth r
        match skipBlanks r with
        | ',' :: r =>
          let (ms, r) ← readMembers fuel depth r
          some ((name, v) :: ms, r)
        | '\x7d' :: r => some ([(name, v)], r)
        | _ => none
      | _ => none
    | _ => none

end

/-- the value at the front of a text, and what follows -/
def read (cs : List Char) : Option (Value × List Char) := readValue (2 * cs.length + 1) maxDepth cs

end HtmlTree.Json
