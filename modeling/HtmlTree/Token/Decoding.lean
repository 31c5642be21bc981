import HtmlTree.Json.Reader
import HtmlTree.Token.Basic

/-!
# Reading token streams

A stream is a sequence of JSON values, white space between them.  Each value gives the fields of
one token, in either of two shapes:

* an object, with the member `type` once and the fields anywhere; members of other names are
  passed over, a field may not be repeated;
* an array of the type and then the fields in their order, of which the last may be left off.

A field that has a default may be missing.  Only the identifiers of a doctype may be null.  The
first value that is no token ends the stream.

* `fieldNames?`      the fields that each type of token has;
* `Token.ofJson?`    the token of a value;
* `Token.pull`       the next token of a stream;
* `Token.Stream`     the tokens before the end or the first malformed one, `Token.decode`.
-/

namespace HtmlTree

open Json (Value)

namespace Token

/-! ## fields -/

/-- the value of a field: absent, given once, or none at all where it is repeated -/
def field? (name : String) (members : List (String × Value)) : Option (Option Value) :=
  match members.filter fun m => m.1 == name with
  | [] => some none
  | [m] => some (some m.2)
  | _ => none

/-- a field that must be there -/
def required {α : Type} (read : Value → Option α) (name : String)
    (members : List (String × Value)) : Option α := do
  let v ← field? name members
  v.bind read

/-- a field with a default -/
def defaulted {α : Type} (read : Value → Option α) (default : α) (name : String)
    (members : List (String × Value)) : Option α := do
  match ← field? name members with
  | none => some default
  | some v => read v

/-- an identifier, or null where it is missing -/
def identifier? : Value → Option (Option String)
  | .null => some none
  | .string s => some (some s)
  | _ => none

/-- a string of one character -/
def char? (v : Value) : Option Char :=
  match v.string?.map String.toList with
  | some [c] => some c
  | _ => none

/-- the fields of an array, by position; there may be fewer but no more than there are names -/
def positional (names : List String) (items : List Value) : Option (List (String × Value)) :=
  if items.length ≤ names.length then some (names.zip items) else none

/-! ## tokens -/

/-- an attribute, as an object or as an array of name and value -/
def tagAttribute? (v : Value) : Option TagAttribute := do
  let members ← match v with
    | .object members => some members
    | .array items => positional ["name", "value"] items
    | _ => none
  let name ← required Value.string? "name" members
  let value ← defaulted Value.string? "" "value" members
  some ⟨name, value⟩

def attributes? (v : Value) : Option (List TagAttribute) := do
  let items ← v.array?
  items.mapM tagAttribute?

/-- the names of a type's fields in their order; none where there is no such type -/
def fieldNames? (typeName : String) : Option (List String) :=
  match typeName with
  | "doctype" => some ["name", "public_identifier", "system_identifier", "force_quirks"]
  | "start_tag" => some ["name", "self_closing", "attributes"]
  | "end_tag" => some ["name"]
  | "comment" => some ["data"]
  | "character" => some ["data"]
  | "end_of_file" => some []
  | _ => none

/-- the token of a type with these fields -/
def ofFields? (typeName : String) (members : List (String × Value)) : Option Token :=
  match typeName with
  | "doctype" => do
    let name ← defaulted identifier? none "name" members
    let publicId ← defaulted identifier? none "public_identifier" members
    let systemId ← defaulted identifier? none "system_identifier" members
    let forceQuirks ← defaulted Value.bool? false "force_quirks" members
    some (.doctype ⟨name, publicId, systemId, forceQuirks⟩)
  | "start_tag" => do
    let name ← required Value.string? "name" members
    let selfClosing ← defaulted Value.bool? false "self_closing" members
    let attributes ← defaulted attributes? [] "attributes" members
    some (.startTag ⟨name, selfClosing, attributes⟩)
  | "end_tag" => (required Value.string? "name" members).map .endTag
  | "comment" => (defaulted Value.string? "" "data" members).map .comment
  | "character" => (required char? "data" members).map .character
  | "end_of_file" => some .endOfFile
  | _ => none

/-- the token that a value stands for -/
def ofJson? : Value → Option Token
  | .object members => do
    let typeName ← required Value.string? "type" members
    ofFields? typeName members
  | .array (.string typeName :: items) => do
    let names ← fieldNames? typeName
    let members ← positional names items
    ofFields? typeName members
  | _ => none

/-! ## streams -/

/-- what a stream has next: a token and what follows it, its end, or something else -/
inductive Pulled where
  | token (t : Token) (rest : List Char)
  | ended
  | malformed
  deriving DecidableEq

/-- the token at the front of a text, and what follows -/
def readToken? (cs : List Char) : Option (Token × List Char) := do
  let (v, rest) ← Json.read cs
  let t ← ofJson? v
  some (t, rest)

/-- the next token of a text -/
def pull (text : List Char) : Pulled :=
  match Json.skipBlanks text with
  | [] => .ended
  | c :: cs =>
    match readToken? (c :: cs) with
    | some (t, rest) => .token t rest
    | none => .malformed

/-- the tokens of a stream before its end or before the first malformed token -/
structure Stream where
  tokens : List Token
  malformed : Bool
  deriving DecidableEq

/-- at most `fuel` tokens from the front of a text -/
def decodeUpTo : (fuel : Nat) → List Char → Stream
  | 0, _ => ⟨[], true⟩
  | fuel + 1, text =>
    match pull text with
    | .ended => ⟨[], false⟩
    | .malformed => ⟨[], true⟩
    | .token t rest =>
      let s := decodeUpTo fuel rest
      ⟨t :: s.tokens, s.malformed⟩

/-- the tokens of a text; there are fewer than it has characters -/
def decode (text : List Char) : Stream := decodeUpTo (text.length + 1) text

end Token

end HtmlTree
