import HtmlTree.Dom.Node

/-!
# The tree and its queries

A tree owns all its nodes in one array, in the order of creation; a handle is an index into it.
The document is node `0`.  A new node is detached: it has no parent until it is inserted.  Asking
about a handle that names no node gives no answer, never a failure.

* `Tree.alloc`, `Tree.modify`         growing the array, changing one node;
* `parent?`, `children`, `index?`     a node's place, and from it its siblings;
* `ancestors`, `isInclusiveAncestor`  the walk to the top, no longer than the array;
* `element?`, `characterData?`        typed access, `documentElement?`, `doctype?` the two children
                                      that a document may have once.
-/

namespace HtmlTree

/-- how far a document is to be rendered as old pages expect it -/
inductive DocumentMode where
  | noQuirks
  | quirks
  | limitedQuirks
  deriving DecidableEq

def DocumentMode.name : DocumentMode → String
  | noQuirks => "no-quirks"
  | quirks => "quirks"
  | limitedQuirks => "limited-quirks"

structure Tree where
  nodes : Array Node
  mode : DocumentMode
  deriving DecidableEq

namespace Tree

/-- a document with nothing in it -/
def new : Tree := ⟨#[.detached .document], .noQuirks⟩

def get? (t : Tree) (id : NodeId) : Option Node := t.nodes[id.index]?

/-- the number of nodes, attached or not -/
def size (t : Tree) : Nat := t.nodes.size

/-- every handle of the tree, in the order of creation -/
def ids (t : Tree) : List NodeId := (List.range t.size).map NodeId.mk

/-- a new detached node, and its handle -/
def alloc (t : Tree) (data : NodeData) : NodeId × Tree :=
  (⟨t.size⟩, { t with nodes := t.nodes.push (.detached data) })

/-- changes one node; an unknown handle changes nothing -/
def modify (t : Tree) (id : NodeId) (f : Node → Node) : Tree :=
  { t with nodes := t.nodes.modify id.index f }

/-- changes what one node holds -/
def modifyData (t : Tree) (id : NodeId) (f : NodeData → NodeData) : Tree :=
  t.modify id fun n => { n with data := f n.data }

def setMode (t : Tree) (mode : DocumentMode) : Tree := { t with mode }

/-! ## a node's place -/

def parent? (t : Tree) (id : NodeId) : Option NodeId := (t.get? id).bind (·.parent)

def children (t : Tree) (id : NodeId) : List NodeId :=
  match t.get? id with
  | some n => n.children
  | none => []

def hasChildNodes (t : Tree) (id : NodeId) : Bool := !(t.children id).isEmpty

def firstChild? (t : Tree) (id : NodeId) : Option NodeId := (t.children id).head?

def lastChild? (t : Tree) (id : NodeId) : Option NodeId := (t.children id).getLast?

/-- the position of a node among its parent's children -/
def index? (t : Tree) (id : NodeId) : Option Nat :=
  (t.parent? id).bind fun p => (t.children p).idxOf? id

/-- a node's siblings, itself included, and its position there -/
def siblings? (t : Tree) (id : NodeId) : Option (List NodeId × Nat) :=
  match t.parent? id, t.index? id with
  | some p, some i => some (t.children p, i)
  | _, _ => none

/-- the siblings after a node, nearest first -/
def followingSiblings (t : Tree) (id : NodeId) : List NodeId :=
  match t.siblings? id with
  | some (all, i) => all.drop (i + 1)
  | none => []

/-- the siblings before a node, nearest first -/
def precedingSiblings (t : Tree) (id : NodeId) : List NodeId :=
  match t.siblings? id with
  | some (all, i) => (all.take i).reverse
  | none => []

def nextSibling? (t : Tree) (id : NodeId) : Option NodeId :=
  (t.siblings? id).bind fun s => s.1[s.2 + 1]?

def previousSibling? (t : Tree) (id : NodeId) : Option NodeId :=
  (t.siblings? id).bind fun s => if s.2 = 0 then none else s.1[s.2 - 1]?

/-- the first `limit` ancestors of a node, nearest first -/
def ancestorsUpTo (t : Tree) : Nat → NodeId → List NodeId
  | 0, _ => []
  | limit + 1, id =>
    match t.parent? id with
    | none => []
    | some p => p :: ancestorsUpTo t limit p

/-- the ancestors of a node, nearest first; there are fewer of them than nodes -/
def ancestors (t : Tree) (id : NodeId) : List NodeId := t.ancestorsUpTo t.size id

def isInclusiveAncestor (t : Tree) (ancestor id : NodeId) : Bool :=
  ancestor == id || (t.ancestors id).contains ancestor

/-! ## what a node holds -/

def kind? (t : Tree) (id : NodeId) : Option NodeKind := (t.get? id).map (·.kind)

/-- whether a handle names a node of this kind -/
def isKind (t : Tree) (kind : NodeKind) (id : NodeId) : Bool := t.kind? id == some kind

def element? (t : Tree) (id : NodeId) : Option Element := (t.get? id).bind (·.data.element?)

def doctypeAt? (t : Tree) (id : NodeId) : Option Doctype := (t.get? id).bind (·.data.doctype?)

def text? (t : Tree) (id : NodeId) : Option String := (t.get? id).bind (·.data.text?)

def characterData? (t : Tree) (id : NodeId) : Option CharacterData :=
  (t.get? id).bind (·.data.characterData?)

/-- the first element that is a child of the document -/
def documentElement? (t : Tree) : Option NodeId := (t.children .root).find? (t.isKind .element)

/-- the first doctype that is a child of the document -/
def doctype? (t : Tree) : Option NodeId := (t.children .root).find? (t.isKind .documentType)

/-! ## small laws -/

theorem size_alloc (t : Tree) (d : NodeData) : (t.alloc d).2.size = t.size + 1 := by
  simp [alloc, size]

theorem size_modify (t : Tree) (id : NodeId) (f : Node → Node) : (t.modify id f).size = t.size := by
  simp [modify, size]

theorem get?_alloc_self (t : Tree) (d : NodeData) :
    (t.alloc d).2.get? (t.alloc d).1 = some (.detached d) := by
  simp [alloc, get?, size]

theorem get?_alloc_of_lt (t : Tree) (d : NodeData) {id : NodeId} (h : id.index < t.size) :
    (t.alloc d).2.get? id = t.get? id := by
  unfold alloc get? size at *
  simp only [Array.getElem?_push]
  rw [if_neg (by omega)]

theorem get?_modify_self (t : Tree) (id : NodeId) (f : Node → Node) :
    (t.modify id f).get? id = (t.get? id).map f := by
  simp [modify, get?, Array.getElem?_modify]

theorem get?_modify_ne (t : Tree) {id other : NodeId} (f : Node → Node) (h : other ≠ id) :
    (t.modify id f).get? other = t.get? other := by
  have hi : id.index ≠ other.index := fun e => h (by cases id; cases other; cases e; rfl)
  simp [modify, get?, Array.getElem?_modify, hi]

end Tree

end HtmlTree
