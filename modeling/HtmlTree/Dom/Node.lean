import HtmlTree.Dom.Attributes
import HtmlTree.Dom.CharacterData
import HtmlTree.Dom.Namespace

/-!
# Nodes

A node is what it holds (`NodeData`) together with its place: an optional parent and the list of
its children, both as handles (`NodeId`) into the tree that owns it.

* `NodeKind`  the node type, with its name and number; a shadow root counts as a fragment;
* `NodeData`  one constructor per kind of node, with what that kind carries;
* `NodeData.canHaveChildren`, `isFragment`, `characterData?`.
-/

namespace HtmlTree

/-- the place of a node in the tree that owns it, counted in the order of creation -/
structure NodeId where
  index : Nat
  deriving DecidableEq

/-- the document, which every tree holds -/
def NodeId.root : NodeId := ⟨0⟩

/-! ## kinds -/

inductive NodeKind where
  | element
  | attr
  | text
  | cdataSection
  | processingInstruction
  | comment
  | document
  | documentType
  | documentFragment
  deriving DecidableEq

def NodeKind.name : NodeKind → String
  | element => "Element"
  | attr => "Attribute"
  | text => "Text"
  | cdataSection => "CdataSection"
  | processingInstruction => "ProcessingInstruction"
  | comment => "Comment"
  | document => "Document"
  | documentType => "DocumentType"
  | documentFragment => "DocumentFragment"

/-- the number by which the DOM knows the kind -/
def NodeKind.number : NodeKind → Nat
  | element => 1
  | attr => 2
  | text => 3
  | cdataSection => 4
  | processingInstruction => 7
  | comment => 8
  | document => 9
  | documentType => 10
  | documentFragment => 11

/-! ## contents -/

/-- a document type; a missing identifier is empty -/
structure Doctype where
  name : String
  publicId : String
  systemId : String
  deriving DecidableEq

structure Element where
  localName : String
  ns : Namespace
  attributes : Attributes
  deriving DecidableEq

namespace Element

/-- an element without attributes -/
def bare (localName : String) (ns : Namespace) : Element := ⟨localName, ns, .empty⟩

/-- an HTML element of this name -/
def isHtml (e : Element) (name : String) : Bool := e.ns == .html && e.localName == name

/-- an HTML element with one of these names -/
def isHtmlOneOf (e : Element) (names : List String) : Bool :=
  e.ns == .html && names.contains e.localName

/-- the name with the label of its namespace before it -/
def shownName (e : Element) : String :=
  match e.ns.label? with
  | some label => label ++ " " ++ e.localName
  | none => e.localName

end Element

inductive NodeData where
  | document
  | documentType (doctype : Doctype)
  | documentFragment
  | shadowRoot
  | element (element : Element)
  | attr (name value : String)
  | text (data : CharacterData)
  | cdataSection (data : CharacterData)
  | comment (data : CharacterData)
  | processingInstruction (target : String) (data : CharacterData)
  deriving DecidableEq

namespace NodeData

def kind : NodeData → NodeKind
  | document => .document
  | documentType _ => .documentType
  | documentFragment => .documentFragment
  | shadowRoot => .documentFragment
  | element _ => .element
  | attr _ _ => .attr
  | text _ => .text
  | cdataSection _ => .cdataSection
  | comment _ => .comment
  | processingInstruction _ _ => .processingInstruction

/-- documents, fragments, shadow roots and elements -/
def canHaveChildren : NodeData → Bool
  | document => true
  | documentFragment => true
  | shadowRoot => true
  | element _ => true
  | _ => false

/-- inserting a fragment inserts its children in its place -/
def isFragment : NodeData → Bool
  | documentFragment => true
  | shadowRoot => true
  | _ => false

/-- whether a node with this content may be the child of another: all but documents and attributes -/
def canBeChild : NodeData → Bool
  | document => false
  | attr _ _ => false
  | _ => true

def element? : NodeData → Option Element
  | element e => some e
  | _ => none

def doctype? : NodeData → Option Doctype
  | documentType d => some d
  | _ => none

def text? : NodeData → Option String
  | text d => some d.data
  | _ => none

def characterData? : NodeData → Option CharacterData
  | text d => some d
  | cdataSection d => some d
  | comment d => some d
  | processingInstruction _ d => some d
  | _ => none

/-- changes an element's content, and nothing else -/
def mapElement (f : Element → Element) : NodeData → NodeData
  | element e => element (f e)
  | d => d

/-- changes the text of a node that has one, and nothing else -/
def mapCharacterData (f : CharacterData → CharacterData) : NodeData → NodeData
  | text d => text (f d)
  | cdataSection d => cdataSection (f d)
  | comment d => comment (f d)
  | processingInstruction target d => processingInstruction target (f d)
  | d => d

theorem kind_mapElement (f : Element → Element) (d : NodeData) : (d.mapElement f).kind = d.kind := by
  cases d <;> rfl

theorem kind_mapCharacterData (f : CharacterData → CharacterData) (d : NodeData) :
    (d.mapCharacterData f).kind = d.kind := by
  cases d <;> rfl

end NodeData

/-! ## nodes -/

structure Node where
  data : NodeData
  parent : Option NodeId
  children : List NodeId
  deriving DecidableEq

namespace Node

/-- a node with no place in any tree yet -/
def detached (data : NodeData) : Node := ⟨data, none, []⟩

def kind (n : Node) : NodeKind := n.data.kind

end Node

end HtmlTree
