import HtmlTree.Proofs.Attach

/-!
# Edits

A tree is changed from outside by a few operations, with any handles.  One that is refused may have
left something behind all the same, so what follows it goes on from there.

* `Edit`, `Edit.apply`   the operations, and the tree after one of them;
* `Tree.edited`          the tree after several, whatever became of each;
* `Tree.EditsTo`         a tree that comes from another by edits.
-/

namespace HtmlTree

/-- what a tree may be asked for; only `insert` does not look at the rules of documents -/
inductive Edit where
  | alloc (data : NodeData)
  | appendChild (parent node : NodeId)
  | preInsert (parent node : NodeId) (child : Option NodeId)
  | insert (parent node : NodeId) (child : Option NodeId)
  /-- a change of an element's attributes, or of all that an element holds -/
  | editElement (id : NodeId) (f : Element → Element)
  | editText (id : NodeId) (f : CharacterData → CharacterData)
  | setMode (mode : DocumentMode)

/-- the tree after an edit, whether it was refused or not -/
def Edit.apply (t : Tree) : Edit → Tree
  | alloc data => (t.alloc data).2
  | appendChild parent node => (t.appendChild parent node).2
  | preInsert parent node child => (t.preInsert parent node child).2
  | insert parent node child => (t.insert parent node child).2
  | editElement id f => t.modifyData id (NodeData.mapElement f)
  | editText id f => t.modifyData id (NodeData.mapCharacterData f)
  | setMode mode => t.setMode mode

namespace Tree
variable {t u v : Tree}

def edited (t : Tree) (edits : List Edit) : Tree := edits.foldl Edit.apply t

theorem edited_cons (t : Tree) (edit : Edit) (edits : List Edit) :
    t.edited (edit :: edits) = (edit.apply t).edited edits := rfl

theorem edited_append (t : Tree) (a b : List Edit) : t.edited (a ++ b) = (t.edited a).edited b :=
  List.foldl_append

/-- `u` comes from `t` by edits -/
def EditsTo (t u : Tree) : Prop := ∃ edits, t.edited edits = u

theorem EditsTo.refl (t : Tree) : t.EditsTo t := ⟨[], rfl⟩

theorem editsTo_one (t : Tree) (edit : Edit) : t.EditsTo (edit.apply t) := ⟨[edit], rfl⟩

theorem EditsTo.trans (h : t.EditsTo u) (h' : u.EditsTo v) : t.EditsTo v := by
  obtain ⟨a, rfl⟩ := h
  obtain ⟨b, rfl⟩ := h'
  exact ⟨a ++ b, t.edited_append a b⟩

end Tree

end HtmlTree
