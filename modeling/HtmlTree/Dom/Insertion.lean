import HtmlTree.Dom.Error
import HtmlTree.Dom.Tree

/-!
# Inserting nodes

A node goes into the child list of its new parent before a given child, or at the end.  A fragment
or shadow root hands over its children instead and is left empty.  An operation answers with its
outcome and with the tree after it.

* `checkPlace`     the rules of every insertion: known handles, a parent that can have children, no
                   cycle, a reference child that is a child, a kind that can be inserted;
* `documentFault?` the further rules of a document's children;
* `insert`         the bare insertion, which looks only at the first set of rules;
* `preInsert`      both sets of rules, then the insertion; `appendChild` is `preInsert` at the end.
-/

namespace HtmlTree.Tree

/-! ## rules -/

/-- the node of a handle, which must be known -/
def node (t : Tree) (id : NodeId) : Except DomError Node :=
  match t.get? id with
  | some n => .ok n
  | none => .error (.unknownNode id)

/-- a reference child, if one is given, must be a child of the parent -/
def checkReference (t : Tree) (parent : NodeId) : Option NodeId → Except DomError Unit
  | none => .ok ()
  | some child => do
    let n ← t.node child
    if n.parent = some parent then .ok () else .error (.notAChild child parent)

/-- the rules that every insertion keeps -/
def checkPlace (t : Tree) (parent node : NodeId) (child : Option NodeId) : Except DomError Unit := do
  let target ← t.node parent
  let inserted ← t.node node
  if !target.data.canHaveChildren then .error (.cannotHaveChildren parent target.kind)
  else if t.isInclusiveAncestor node parent then .error (.cycle node parent)
  else do
    t.checkReference parent child
    if inserted.data.canBeChild then .ok () else .error (.invalidChildKind inserted.kind)

/-- whether one of these nodes is of this kind -/
def anyOfKind (t : Tree) (kind : NodeKind) (ids : List NodeId) : Bool := ids.any (t.isKind kind)

/-- whether a doctype would come after an element put before `child` -/
def doctypeFrom (t : Tree) : Option NodeId → Bool
  | none => false
  | some c => t.isKind .documentType c || t.anyOfKind .documentType (t.followingSiblings c)

/-- whether an element would come before a doctype put before `child` -/
def elementBefore (t : Tree) (parent : NodeId) : Option NodeId → Bool
  | none => t.anyOfKind .element (t.children parent)
  | some c => t.anyOfKind .element (t.precedingSiblings c)

/-- the rule of a document's children that inserting this content would break -/
def documentFault? (t : Tree) (parent node : NodeId) (child : Option NodeId) (data : NodeData) :
    Option HierarchyFault :=
  match data with
  | .text _ => some .textInDocument
  | .documentFragment | .shadowRoot =>
    let elements := (t.children node).filter (t.isKind .element)
    if 1 < elements.length || t.anyOfKind .text (t.children node) then some .fragmentNotOneElement
    else if elements.length == 1
        && (t.anyOfKind .element (t.children parent) || t.doctypeFrom child) then
      some .secondDocumentElement
    else none
  | .element _ =>
    if t.anyOfKind .element (t.children parent) then some .secondDocumentElement
    else if t.doctypeFrom child then some .elementBeforeDoctype
    else none
  | .documentType _ =>
    if t.anyOfKind .documentType (t.children parent) then some .secondDoctype
    else if t.elementBefore parent child then some .doctypeAfterElement
    else none
  | _ => none

/-- the rule of documents and doctypes that inserting `node` would break -/
def hierarchyFault? (t : Tree) (parent node : NodeId) (child : Option NodeId) :
    Option HierarchyFault :=
  match t.get? parent, t.get? node with
  | some p, some n =>
    if p.data = .document then t.documentFault? parent node child n.data
    else if n.kind = .documentType then some .doctypeOutsideDocument
    else none
  | _, _ => none

/-! ## insertion -/

/-- gives these nodes a new parent, or none -/
def setParents (t : Tree) (parent : Option NodeId) (ids : List NodeId) : Tree :=
  ids.foldl (fun t id => t.modify id fun n => { n with parent }) t

/-- what goes into the child list in place of `node` -/
def contributed (t : Tree) (node : NodeId) : List NodeId :=
  match t.get? node with
  | some n => if n.data.isFragment then n.children else [node]
  | none => []

/-- takes all children away from a fragment; any other node keeps its own -/
def emptied (t : Tree) (node : NodeId) : Tree :=
  match t.get? node with
  | some n =>
    if n.data.isFragment then
      (t.modify node fun n => { n with children := [] }).setParents none n.children
    else t
  | none => t

/-- puts `ids` into the parent's child list before position `i` -/
def splice (t : Tree) (parent : NodeId) (i : Nat) (ids : List NodeId) : Tree :=
  (t.modify parent fun n =>
    { n with children := n.children.take i ++ ids ++ n.children.drop i }).setParents (some parent) ids

/-- the position before which an insertion happens -/
def position (t : Tree) (parent : NodeId) : Option NodeId → Except DomError Nat
  | none => .ok (t.children parent).length
  | some child =>
    match t.index? child with
    | some i => .ok i
    | none => .error (.notAChild child parent)

/-- the outcome of a change, and the tree after it -/
abbrev Change (α : Type) := Except DomError α × Tree

/-- puts `node` under `parent` before `child`, or at the end; the rules of documents are not asked -/
def insert (t : Tree) (parent node : NodeId) (child : Option NodeId) : Change Unit :=
  match t.checkPlace parent node child with
  | .error e => (.error e, t)
  | .ok () =>
    if (t.parent? node).isSome then (.error (.alreadyHasParent node), t)
    else
      let ids := t.contributed node
      if ids.isEmpty then (.ok (), t)
      else
        let t := t.emptied node
        match t.position parent child with
        | .error e => (.error e, t)
        | .ok i => (.ok (), t.splice parent i ids)

/-- puts `node` under `parent` before `child`, or at the end, by all rules.  A node put before
itself stays where it is.  The answer is the node. -/
def preInsert (t : Tree) (parent node : NodeId) (child : Option NodeId) : Change NodeId :=
  match t.checkPlace parent node child with
  | .error e => (.error e, t)
  | .ok () =>
    match t.hierarchyFault? parent node child with
    | some fault => (.error (.hierarchyRequest fault), t)
    | none =>
      if child = some node then (.ok node, t)
      else
        let (outcome, t) := t.insert parent node child
        (outcome.map fun _ => node, t)

/-- puts `node` at the end of the parent's children, by all rules -/
def appendChild (t : Tree) (parent node : NodeId) : Change NodeId := t.preInsert parent node none

end HtmlTree.Tree
