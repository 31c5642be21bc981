import HtmlTree.Json.Writer
import HtmlTree.Token.Basic

/-!
# The written form of tokens

A token is a JSON object: the member `type` first, then all fields of its kind in a fixed order.

* `Token.typeName`  the word under `type`;
* `Token.toJson`    the object;
* `Token.encode`    its compact text.
-/

namespace HtmlTree

open Json (Value)

namespace Token

def typeName : Token → String
  | doctype _ => "doctype"
  | startTag _ => "start_tag"
  | endTag _ => "end_tag"
  | comment _ => "comment"
  | character _ => "character"
  | endOfFile => "end_of_file"

/-- an identifier that may be missing -/
def optionalText : Option String → Value
  | none => .null
  | some s => .string s

def attributeJson (a : TagAttribute) : Value :=
  .object [("name", .string a.name), ("value", .string a.value)]

/-- the fields of a token in their order -/
def fields : Token → List (String × Value)
  | doctype d =>
    [ ("name", optionalText d.name), ("public_identifier", optionalText d.publicId),
      ("system_identifier", optionalText d.systemId), ("force_quirks", .bool d.forceQuirks) ]
  | startTag tag =>
    [ ("name", .string tag.name), ("self_closing", .bool tag.selfClosing),
      ("attributes", .array (tag.attributes.map attributeJson)) ]
  | endTag name => [("name", .string name)]
  | comment data => [("data", .string data)]
  | character c => [("data", .string (String.singleton c))]
  | endOfFile => []

def toJson (t : Token) : Value := .object (("type", .string t.typeName) :: t.fields)

/-- a token's text in a token stream -/
def encode (t : Token) : List Char := t.toJson.compact

end Token

end HtmlTree
