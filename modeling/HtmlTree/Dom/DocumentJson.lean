import HtmlTree.Dom.Tree
import HtmlTree.Json.Value

/-!
# Documents as JSON

Every node is an object that names its type; the members of each object are in the order of their
names.

* `NodeData.json`    a node from what it holds and the values of its children;
* `Tree.jsonFrom`    a node and all below it;
* `Tree.json`        the document: its mode and the document's children.
-/

namespace HtmlTree

open Json (Value)

def Attributes.json (a : Attributes) : Value :=
  .object (a.entries.map fun e => (e.1, .string e.2))

/-- a node whose children have these values -/
def NodeData.json (children : List Value) : NodeData → Value
  | document => .object [("children", .array children), ("type", .string "document")]
  | documentType d =>
    .object [("name", .string d.name), ("public_id", .string d.publicId),
      ("system_id", .string d.systemId), ("type", .string "doctype")]
  | documentFragment => .object [("children", .array children), ("type", .string "fragment")]
  | shadowRoot => .object [("children", .array children), ("type", .string "fragment")]
  | element e =>
    .object [("attributes", e.attributes.json), ("children", .array children),
      ("name", .string e.localName), ("namespace", .string e.ns.url), ("type", .string "element")]
  | attr name value =>
    .object [("name", .string name), ("type", .string "attr"), ("value", .string value)]
  | text d => .object [("data", .string d.data), ("type", .string "text")]
  | cdataSection d => .object [("data", .string d.data), ("type", .string "cdata")]
  | comment d => .object [("data", .string d.data), ("type", .string "comment")]
  | processingInstruction target d =>
    .object [("data", .string d.data), ("target", .string target),
      ("type", .string "processing_instruction")]

namespace Tree

/-- a node and what is below it, down to `limit` further levels -/
def jsonFrom (t : Tree) : Nat → NodeId → Value
  | 0, _ => .null
  | limit + 1, id =>
    match t.get? id with
    | none => .null
    | some n => n.data.json (n.children.map (jsonFrom t limit))

/-- the document; no node is deeper than there are nodes -/
def json (t : Tree) : Value :=
  .object [("children", .array ((t.children .root).map (t.jsonFrom t.size))),
    ("quirks_mode", .string t.mode.name)]

end Tree

end HtmlTree
