import HtmlTree.Dom.ForeignAttribute
import HtmlTree.Dom.Tree

/-!
# The text dump of a document

Every node below the document has lines of its own, in document order.  A line starts with a bar
and a space, then two spaces for each ancestor below the document.  An element's tag line is
followed by one line per attribute, a level deeper, sorted by shown name and then by value.

* `NodeData.lines`   a node's own lines at a depth;
* `Tree.linesFrom`   the lines of a node and of all below it;
* `Tree.dump`        the text of the document's children in order.
-/

namespace HtmlTree

/-! ## a node's own lines -/

/-- the order of the attribute lines: by shown name, then by value -/
def attributeBefore (a b : String × String) : Bool := a.1 < b.1 || (a.1 == b.1 && a.2 < b.2)

/-- puts an attribute before the first that it comes before -/
def insertAttribute (a : String × String) : List (String × String) → List (String × String)
  | [] => [a]
  | b :: r => if attributeBefore b a then b :: insertAttribute a r else a :: b :: r

/-- the attributes under their shown names, sorted -/
def Element.shownAttributes (e : Element) : List (String × String) :=
  let shown := e.attributes.entries.map fun a =>
    (if e.ns = .html then a.1 else shownForeignName a.1, a.2)
  shown.foldr insertAttribute []

def attributeText (name value : String) : String := name ++ "=\"" ++ value ++ "\""

def Doctype.text (d : Doctype) : String :=
  if d.publicId.isEmpty && d.systemId.isEmpty then "<!DOCTYPE " ++ d.name ++ ">"
  else "<!DOCTYPE " ++ d.name ++ " \"" ++ d.publicId ++ "\" \"" ++ d.systemId ++ "\">"

/-- what a node shows on its own line; a document has none -/
def NodeData.line? : NodeData → Option String
  | document => none
  | documentType d => some d.text
  | documentFragment => some "content"
  | shadowRoot => some "content"
  | element e => some ("<" ++ e.shownName ++ ">")
  | attr name value => some (attributeText name value)
  | text d => some ("\"" ++ d.data ++ "\"")
  | cdataSection d => some ("<![CDATA[" ++ d.data ++ "]]>")
  | comment d => some ("<!-- " ++ d.data ++ " -->")
  | processingInstruction target d => some ("<?" ++ target ++ " " ++ d.data ++ ">")

/-- the contents of the attribute lines -/
def NodeData.attributeLines : NodeData → List String
  | element e => e.shownAttributes.map fun a => attributeText a.1 a.2
  | _ => []

/-- a line of the dump: the bar, two spaces per level, the content, a line feed -/
def dumpLine (depth : Nat) (content : String) : String :=
  "| " ++ String.ofList (List.replicate (2 * depth) ' ') ++ content ++ "\n"

/-- a node's own lines -/
def NodeData.lines (depth : Nat) (d : NodeData) : List String :=
  d.line?.toList.map (dumpLine depth) ++ d.attributeLines.map (dumpLine (depth + 1))

/-! ## a whole document -/

namespace Tree

/-- the lines of a node and of all below it, down to `limit` further levels -/
def linesFrom (t : Tree) : Nat → Nat → NodeId → List String
  | 0, _, _ => []
  | limit + 1, depth, id =>
    match t.get? id with
    | none => []
    | some n => n.data.lines depth ++ n.children.flatMap (linesFrom t limit (depth + 1))

/-- the lines of all nodes below the document; no node is deeper than there are nodes -/
def dumpLines (t : Tree) : List String :=
  (t.children .root).flatMap (t.linesFrom t.size 0)

def dump (t : Tree) : String := String.join t.dumpLines

end Tree

end HtmlTree
