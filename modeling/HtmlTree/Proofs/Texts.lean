import Mathlib.Algebra.GroupWithZero.Nat
import HtmlTree.Proofs.Outlined
import HtmlTree.Proofs.Site

/-!
# The texts of a document

A character that comes to a document lengthens the text at the end of some node, or begins one
there.  That is all that becomes of the texts: there is one character more, and every other text is
the same.

* `Tree.textLength`     the number of characters in all texts;
* `Tree.SameTexts`      a later document with the same texts;
* `Tree.Typed`          one in which a character has come to the text at the end of a node;
* `withCharacter_typed` the document with a character more.
-/

namespace HtmlTree

namespace Tree
variable {t u v : Tree} {id place : NodeId} {d : NodeData} {ch : Char}

/-! ## the length of all texts -/

/-- the number of characters in all texts -/
def textLength (t : Tree) : Nat := (t.ids.map fun id => ((t.text? id).getD "").length).sum

theorem mem_ids : id ∈ t.ids ↔ id.index < t.size := by
  unfold ids
  rw [List.mem_map]
  constructor
  · rintro ⟨i, hi, rfl⟩
    exact List.mem_range.mp hi
  · exact fun h => ⟨id.index, List.mem_range.mpr h, rfl⟩

theorem nodup_ids (t : Tree) : t.ids.Nodup :=
  List.nodup_range.map fun _ _ h => congrArg NodeId.index h

theorem text?_of_le (h : t.size ≤ id.index) : t.text? id = none := by
  unfold text?
  rw [get?_eq_none_iff.mpr h]
  rfl

theorem index_lt_of_text? (h : (t.text? id).isSome = true) : id.index < t.size := by
  by_contra hlt
  rw [text?_of_le (Nat.le_of_not_lt hlt)] at h
  cases h

theorem text?_attach (t : Tree) (place : NodeId) (d : NodeData) (id : NodeId) :
    (t.attach place d).text? id = if id.index = t.size then d.text? else t.text? id := by
  unfold text?
  rw [get?_attach]
  split
  · rfl
  · split
    · cases t.get? id <;> rfl
    · rfl

theorem text?_isSome_of_isKind (h : t.isKind .text id = true) : (t.text? id).isSome = true := by
  have hkind : (t.get? id).map Node.kind = some .text := eq_of_beq h
  obtain ⟨n, hn, hk⟩ := Option.map_eq_some_iff.mp hkind
  unfold text?
  rw [hn]
  show n.data.text?.isSome = true
  have hdata : n.data.kind = .text := hk
  cases hd : n.data <;> rw [hd] at hdata <;> first | rfl | cases hdata

/-- one node has come, with its text if it has one -/
theorem textLength_attach (t : Tree) (place : NodeId) (d : NodeData) :
    (t.attach place d).textLength = t.textLength + (d.text?.getD "").length := by
  have hids : (t.attach place d).ids = t.ids ++ [⟨t.size⟩] := by
    unfold ids
    rw [size_attach, List.range_succ, List.map_append]
    rfl
  unfold textLength
  rw [hids, List.map_append, List.sum_append, List.map_singleton, List.sum_singleton,
    text?_attach, if_pos rfl]
  congr 2
  refine List.map_congr_left fun id hid => ?_
  rw [text?_attach_old d (mem_ids.mp hid)]

/-- one text has become longer -/
theorem textLength_lengthen (ch : Char) (h : (t.text? id).isSome = true) :
    (t.modifyData id (.lengthen ch)).textLength = t.textLength + 1 := by
  have hids : (t.modifyData id (.lengthen ch)).ids = t.ids := by
    unfold ids
    rw [size_modifyData]
  have hperm := List.perm_cons_erase (mem_ids.mpr (index_lt_of_text? h))
  obtain ⟨text, htext⟩ := Option.isSome_iff_exists.mp h
  unfold textLength
  rw [hids, (hperm.map _).sum_nat, (hperm.map _).sum_nat, List.map_cons, List.map_cons,
    List.sum_cons, List.sum_cons, text?_lengthen, if_pos rfl, htext]
  have hrest : ∀ x ∈ t.ids.erase id, (t.modifyData id (.lengthen ch)).text? x = t.text? x :=
    fun x hx => by rw [text?_lengthen, if_neg (t.nodup_ids.mem_erase_iff.mp hx).1]
  rw [List.map_congr_left fun x hx => by rw [hrest x hx]]
  show (text ++ String.singleton ch).length + _ = text.length + _ + 1
  rw [String.length_append, String.length_singleton]
  omega

/-! ## the same texts -/

/-- every text is the same, and there are no others -/
structure SameTexts (t u : Tree) : Prop where
  text : ∀ id, u.text? id = t.text? id
  length : u.textLength = t.textLength

theorem SameTexts.refl (t : Tree) : t.SameTexts t := ⟨fun _ => rfl, rfl⟩

theorem SameTexts.trans (h : t.SameTexts u) (h' : u.SameTexts v) : t.SameTexts v :=
  ⟨fun id => (h'.text id).trans (h.text id), h'.length.trans h.length⟩

theorem sameTexts_setMode (t : Tree) (mode : DocumentMode) : t.SameTexts (t.setMode mode) :=
  ⟨fun _ => rfl, rfl⟩

theorem sameTexts_attach (t : Tree) (place : NodeId) (hd : d.text? = none) :
    t.SameTexts (t.attach place d) where
  text := fun id => by
    rw [text?_attach]
    split
    · rw [text?_of_le (by omega), hd]
    · rfl
  length := by
    rw [textLength_attach, hd]
    rfl

/-! ## a character more -/

/-- `ch` is at the end of the text that is the last child of `place`: a longer text than before or a
new one, and every other text is the same -/
structure Typed (t : Tree) (place : NodeId) (ch : Char) (u : Tree) : Prop where
  last : ∃ id, u.lastChild? place = some id ∧
    u.text? id = some ((t.text? id).getD "" ++ String.singleton ch) ∧
    ∀ other, other ≠ id → u.text? other = t.text? other
  length : u.textLength = t.textLength + 1

theorem SameTexts.typed (h : t.SameTexts u) (h' : u.Typed place ch v) : t.Typed place ch v := by
  obtain ⟨id, hid, htext, hother⟩ := h'.last
  refine ⟨⟨id, hid, ?_, fun x hx => (hother x hx).trans (h.text x)⟩, ?_⟩
  · rw [htext, h.text]
  · rw [h'.length, h.length]

theorem withCharacter_typed (hp : place.index < t.size) (ch : Char) :
    t.Typed place ch (t.withCharacter place ch) := by
  cases hlast : t.lastText? place with
  | some last =>
    obtain ⟨hchild, hkind⟩ := Option.filter_eq_some_iff.mp hlast
    have htext := text?_isSome_of_isKind hkind
    obtain ⟨before, hbefore⟩ := Option.isSome_iff_exists.mp htext
    rw [withCharacter_of_text hlast]
    refine ⟨⟨last, ?_, ?_, fun x hx => ?_⟩, textLength_lengthen ch htext⟩
    · unfold lastChild?
      rw [children_modifyData]
      exact hchild
    · rw [text?_lengthen, if_pos rfl, hbefore]
      rfl
    · rw [text?_lengthen, if_neg hx]
  | none =>
    rw [withCharacter_of_none hlast]
    refine ⟨⟨⟨t.size⟩, ?_, ?_, fun x hx => ?_⟩, ?_⟩
    · unfold lastChild?
      rw [children_attach hp, if_pos rfl, List.getLast?_append]
      rfl
    · rw [text?_attach, if_pos rfl, text?_of_le (show t.size ≤ NodeId.index ⟨t.size⟩ from le_rfl)]
      exact congrArg some (String.empty_append).symm
    · rw [text?_attach, if_neg fun hnew => hx (congrArg NodeId.mk hnew)]
    · rw [textLength_attach]
      show _ + (String.singleton ch).length = _
      rw [String.length_singleton]

end Tree

end HtmlTree
