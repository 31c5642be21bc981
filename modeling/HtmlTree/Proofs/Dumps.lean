import HtmlTree.Dom.Dump
import HtmlTree.Proofs.DocumentOrder
import Mathlib.Data.List.Sort

/-!
# What the dump of a document shows

The dump has the lines of all nodes below the root in document order, and nothing else.  A node's
lines are told by what it holds and by the number of its ancestors, so trees that differ in the numbers
of their nodes only have one dump.  The attributes of an element are sorted as they are shown, so they
may be listed in any order before that.

* `Tree.ownLines`                    a node's lines, indented by its ancestors;
* `Element.shown`, `ShownBefore`     an attribute as it is shown, and the order of its line;
* `lines_element`                    **any sorted row of the shown attributes** gives an element's lines;
* `WellFormed.linesFrom_eq`          the lines of a subtree, from those of its nodes;
* `Matches.linesFrom`                paired nodes have one dump;
* `dump_lines`                       **the dump is the lines of the nodes in document order**.
-/

namespace HtmlTree

/-! ## the lines of an element -/

/-- an attribute as it is shown: under the name that its element's namespace gives it -/
def Element.shown (e : Element) (a : String × String) : String × String :=
  (if e.ns = .html then a.1 else shownForeignName a.1, a.2)

/-- the line of `a` may stand before that of `b`: by name and then by value -/
def ShownBefore (a b : String × String) : Prop := a.1 < b.1 ∨ a.1 = b.1 ∧ a.2 ≤ b.2

section Attributes
variable {a b c : String × String} {entries shown : List (String × String)} {e : Element}

theorem attributeBefore_iff : attributeBefore a b = true ↔ a.1 < b.1 ∨ a.1 = b.1 ∧ a.2 < b.2 := by
  unfold attributeBefore
  rw [Bool.or_eq_true, Bool.and_eq_true, decide_eq_true_eq, decide_eq_true_eq, beq_iff_eq]

theorem ShownBefore.trans (hab : ShownBefore a b) (hbc : ShownBefore b c) : ShownBefore a c := by
  rcases hab with hab | ⟨hab, hv⟩
  · rcases hbc with hbc | ⟨hbc, _⟩
    · exact .inl (String.lt_trans hab hbc)
    · exact .inl (hbc ▸ hab)
  · rcases hbc with hbc | ⟨hbc, hv'⟩
    · exact .inl (hab ▸ hbc)
    · exact .inr ⟨hab.trans hbc, String.le_trans hv hv'⟩

theorem ShownBefore.antisymm (hab : ShownBefore a b) (hba : ShownBefore b a) : a = b := by
  rcases hab with hab | ⟨hn, hv⟩
  · rcases hba with hba | ⟨hn, _⟩
    · exact (String.lt_irrefl _ (String.lt_trans hab hba)).elim
    · exact (String.lt_irrefl _ (hn ▸ hab)).elim
  · rcases hba with hba | ⟨_, hv'⟩
    · exact (String.lt_irrefl _ (hn ▸ hba)).elim
    · exact Prod.ext hn (String.le_antisymm hv hv')

/-- a line may stand before another exactly if it need not stand behind it -/
theorem shownBefore_iff : ShownBefore a b ↔ ¬attributeBefore b a = true := by
  rw [attributeBefore_iff, not_or, not_and]
  constructor
  · rintro (hn | ⟨hn, hv⟩)
    · exact ⟨String.lt_asymm hn, fun he => (String.lt_irrefl _ (he ▸ hn)).elim⟩
    · exact ⟨hn ▸ String.lt_irrefl _, fun _ => String.not_lt.mpr hv⟩
  · rintro ⟨hn, hv⟩
    by_cases he : b.1 = a.1
    · exact .inr ⟨he.symm, String.not_lt.mp (hv he)⟩
    · exact .inl (Attributes.lt_of_not_lt_of_ne hn he)

theorem ShownBefore.total (a b : String × String) : ShownBefore a b ∨ ShownBefore b a := by
  by_cases h : attributeBefore b a = true
  · refine .inr ((attributeBefore_iff.mp h).imp_right fun ⟨hn, hv⟩ => ⟨hn, ?_⟩)
    exact String.not_lt.mp (String.lt_asymm hv)
  · exact .inl (shownBefore_iff.mpr h)

instance : DecidableRel ShownBefore := fun a b =>
  inferInstanceAs (Decidable (a.1 < b.1 ∨ a.1 = b.1 ∧ a.2 ≤ b.2))

instance : IsTrans (String × String) ShownBefore := ⟨fun _ _ _ => ShownBefore.trans⟩

instance : Std.Total ShownBefore := ⟨ShownBefore.total⟩

theorem insertAttribute_eq (a : String × String) (shown : List (String × String)) :
    insertAttribute a shown = shown.orderedInsert ShownBefore a := by
  induction shown with
  | nil => rfl
  | cons b shown ih =>
    rw [insertAttribute, List.orderedInsert_cons, ih]
    by_cases h : ShownBefore a b
    · rw [if_pos h, if_neg (shownBefore_iff.mp h)]
    · rw [if_neg h, if_pos (not_not.mp (mt shownBefore_iff.mpr h))]

/-- the attributes are sorted by insertion -/
theorem shownAttributes_eq (e : Element) :
    e.shownAttributes = (e.attributes.entries.map e.shown).insertionSort ShownBefore := by
  show (e.attributes.entries.map e.shown).foldr insertAttribute [] = _
  rw [funext fun a => funext (insertAttribute_eq a)]
  rfl

/-- **Any sorted row of the shown attributes gives an element's lines**, in whatever order the
attributes are listed first: the line of its tag, and those of the attributes a level deeper. -/
theorem lines_element (depth : Nat) (hentries : entries.Perm e.attributes.entries)
    (hshown : shown.Perm (entries.map e.shown)) (hsorted : shown.Pairwise ShownBefore) :
    (NodeData.element e).lines depth = dumpLine depth ("<" ++ e.shownName ++ ">") ::
      shown.map fun a => dumpLine (depth + 1) (attributeText a.1 a.2) := by
  have hperm : shown.Perm e.shownAttributes := by
    rw [shownAttributes_eq]
    exact (hshown.trans (hentries.map e.shown)).trans (List.perm_insertionSort ShownBefore _).symm
  have hsorted' : e.shownAttributes.Pairwise ShownBefore := by
    rw [shownAttributes_eq]
    exact List.pairwise_insertionSort ShownBefore _
  have heq : shown = e.shownAttributes :=
    hperm.eq_of_pairwise (fun _ _ _ _ => ShownBefore.antisymm) hsorted hsorted'
  rw [heq]
  show _ :: List.map _ (List.map _ _) = _
  rw [List.map_map]
  rfl

end Attributes

/-! ## the lines of a document -/

namespace Tree
variable {t u : Tree} {a b id : NodeId} {n : Node} {limit limit' depth : Nat}

/-- a node's own lines, indented by its ancestors other than the root -/
def ownLines (t : Tree) (id : NodeId) : List String :=
  match t.get? id with
  | some n => n.data.lines ((t.ancestors id).length - 1)
  | none => []

theorem linesFrom_succ (h : t.get? id = some n) : t.linesFrom (limit + 1) depth id =
    n.data.lines depth ++ n.children.flatMap (t.linesFrom limit (depth + 1)) := by
  rw [linesFrom, h]

namespace WellFormed

/-- the lines of a subtree are the lines of its nodes as the walk meets them -/
theorem linesFrom_eq (h : t.WellFormed) (hid : id.index < t.size)
    (hdepth : (t.ancestors id).length = depth + 1) :
    t.linesFrom limit depth id = (t.subtree limit id).flatMap t.ownLines := by
  induction limit generalizing id depth with
  | zero => rfl
  | succ limit ih =>
    obtain ⟨n, hn⟩ := exists_get?_of_lt hid
    have hown : t.ownLines id = n.data.lines depth := by
      unfold ownLines
      rw [hn, hdepth]
      rfl
    rw [linesFrom_succ hn, subtree, List.flatMap_cons, hown, List.flatMap_assoc,
      children_of_get? hn]
    refine congrArg (n.data.lines depth ++ ·) (List.flatMap_congr fun c hc => ?_)
    rw [← children_of_get? hn] at hc
    refine ih (h.child_lt hc) ?_
    rw [h.length_ancestors_child ((h.mem_children c id).mp hc), hdepth]

/-- **The dump is the lines of the nodes below the root**, as the walk meets them. -/
theorem dumpLines_eq (h : t.WellFormed) : t.dumpLines = t.descendants.flatMap t.ownLines := by
  unfold dumpLines descendants
  rw [List.flatMap_assoc]
  refine List.flatMap_congr fun c hc => h.linesFrom_eq (h.child_lt hc) ?_
  rw [h.length_ancestors_child ((h.mem_children c .root).mp hc)]
  have hroot : (t.ancestors .root).length = ([] : List Nat).length := h.length_path rfl
  exact congrArg (· + 1) hroot

end WellFormed

/-- **Paired nodes have one dump**, as soon as the limits are no less than what is below them. -/
theorem Matches.linesFrom {R : NodeId → NodeId → Prop} (hR : t.Matches u R) (ht : t.WellFormed)
    (hu : u.WellFormed) (hab : R a b) (hlimit : t.size < limit + (t.ancestors a).length)
    (hlimit' : u.size < limit' + (u.ancestors b).length) :
    t.linesFrom limit depth a = u.linesFrom limit' depth b := by
  induction limit generalizing limit' depth a b with
  | zero =>
    obtain ⟨m, _, hm, _⟩ := hR.alike a b hab
    have := ht.length_ancestors_lt (index_lt_of_get? hm)
    omega
  | succ limit ih =>
    obtain ⟨m, n, hm, hn, hdata, _⟩ := hR.alike a b hab
    obtain ⟨limit', rfl⟩ : ∃ k, limit' = k + 1 := by
      have := hu.length_ancestors_lt (index_lt_of_get? hn)
      exact ⟨limit' - 1, by omega⟩
    have hchildren : (t.children a).map (t.linesFrom limit (depth + 1)) =
        (u.children b).map (u.linesFrom limit' (depth + 1)) := by
      refine hR.map_children ht hu hab fun x y hxy hx hy => ?_
      have hx := ht.length_ancestors_child hx
      have hy := hu.length_ancestors_child hy
      exact ih hxy (by omega) (by omega)
    rw [linesFrom_succ hm, linesFrom_succ hn, hdata, ← children_of_get? hm, ← children_of_get? hn,
      List.flatMap_def, List.flatMap_def, hchildren]

theorem Matches.dumpLines {R : NodeId → NodeId → Prop} (hR : t.Matches u R) (ht : t.WellFormed)
    (hu : u.WellFormed) (hlimit : t.size ≤ limit) (hlimit' : u.size ≤ limit') :
    (t.children .root).flatMap (t.linesFrom limit 0) =
      (u.children .root).flatMap (u.linesFrom limit' 0) := by
  rw [List.flatMap_def, List.flatMap_def]
  refine congrArg List.flatten (hR.map_children ht hu hR.root fun x y hxy hx hy => ?_)
  have hx := ht.length_ancestors_child hx
  have hy := hu.length_ancestors_child hy
  exact hR.linesFrom ht hu hxy (by omega) (by omega)

/-- a tree is paired with itself -/
theorem WellFormed.matches_self (h : t.WellFormed) :
    t.Matches t fun a b => a = b ∧ a.index < t.size where
  root := ⟨rfl, h.root_lt⟩
  unique := ⟨fun _ _ _ hac hbc => hac.1.trans hbc.1.symm, fun _ _ _ hab hac => hab.1.symm.trans hac.1⟩
  alike := by
    rintro a _ ⟨rfl, hlt⟩
    obtain ⟨n, hn⟩ := exists_get?_of_lt hlt
    refine ⟨n, n, hn, hn, rfl, List.forall₂_same.mpr fun c hc => ⟨rfl, ?_⟩⟩
    rw [← children_of_get? hn] at hc
    exact h.child_lt hc

/-- more levels than there are nodes add no line -/
theorem WellFormed.dumpLines_limit (h : t.WellFormed) (hlimit : t.size ≤ limit) :
    (t.children .root).flatMap (t.linesFrom limit 0) = t.dumpLines :=
  h.matches_self.dumpLines h h hlimit (Nat.le_refl _)

end Tree

/-! ## every document -/

/-- **The dump is the lines of the nodes in document order.**  After any edits there is one row of the
nodes below the root in document order, and the dump is their own lines one after the other: the walk
never meets its limit.  An element's lines are its tag and its attributes, sorted as they are shown,
from any list of them.  So isomorphic trees have one dump. -/
theorem dump_lines (edits : List Edit) :
    let t := Tree.new.edited edits
    (∃ ids, (∀ l, t.InPreorder l ↔ l = ids) ∧ t.dump = String.join (ids.flatMap t.ownLines)) ∧
    (∀ limit, t.size ≤ limit →
      t.dump = String.join ((t.children .root).flatMap (t.linesFrom limit 0))) ∧
    (∀ (e : Element) (depth : Nat) (entries shown : List (String × String)),
      entries.Perm e.attributes.entries → shown.Perm (entries.map e.shown) →
      shown.Pairwise ShownBefore →
      (NodeData.element e).lines depth = dumpLine depth ("<" ++ e.shownName ++ ">") ::
        shown.map fun a => dumpLine (depth + 1) (attributeText a.1 a.2)) ∧
    ∀ edits', t.Isomorphic (Tree.new.edited edits') → (Tree.new.edited edits').dump = t.dump := by
  intro t
  have ht : t.WellFormed := Tree.WellFormed.new.edited edits
  refine ⟨⟨t.descendants, fun l => ⟨fun hl => ?_, fun hl => ?_⟩, ?_⟩, fun limit hlimit => ?_,
    fun e depth entries shown hentries hshown hsorted => lines_element depth hentries hshown hsorted,
    fun edits' ⟨R, hR⟩ => ?_⟩
  · exact hl.unique ht ht.descendants_inPreorder
  · rw [hl]
    exact ht.descendants_inPreorder
  · unfold Tree.dump
    rw [ht.dumpLines_eq]
  · unfold Tree.dump
    rw [ht.dumpLines_limit hlimit]
  · have hu : (Tree.new.edited edits').WellFormed := Tree.WellFormed.new.edited edits'
    exact (congrArg String.join (hR.dumpLines ht hu (Nat.le_refl _) (Nat.le_refl _))).symm

/-- a comment and an element whose attributes are shown under one name -/
def commentThenLink : List Edit :=
  let link := ((Attributes.empty.insert "xlink:href" "b").insert "xlink href" "c").insert "a" "d"
  [.alloc (.comment ⟨"x"⟩), .alloc (.element ⟨"a", .svg, link⟩), .appendChild .root ⟨1⟩,
    .appendChild .root ⟨2⟩]

/-- the same document, made from its end, with a text left over -/
def linkThenComment : List Edit :=
  let link := ((Attributes.empty.insert "a" "d").insert "xlink href" "c").insert "xlink:href" "b"
  [.alloc (.text ⟨"y"⟩), .alloc (.element ⟨"a", .svg, link⟩), .alloc (.comment ⟨"x"⟩),
    .appendChild .root ⟨2⟩, .preInsert .root ⟨3⟩ (some ⟨2⟩)]

theorem commentThenLink_isomorphic :
    (Tree.new.edited commentThenLink).Isomorphic (Tree.new.edited linkThenComment) := by
  refine ⟨fun a b => (a.index, b.index) ∈ [(0, 0), (1, 3), (2, 2)], by decide, ⟨?_, ?_⟩, ?_⟩
  · rintro ⟨a⟩ ⟨b⟩ ⟨c⟩ hac hbc
    simp only [List.mem_cons, Prod.mk.injEq, List.not_mem_nil, or_false] at hac hbc
    exact congrArg NodeId.mk (by omega)
  · rintro ⟨a⟩ ⟨b⟩ ⟨c⟩ hab hac
    simp only [List.mem_cons, Prod.mk.injEq, List.not_mem_nil, or_false] at hab hac
    exact congrArg NodeId.mk (by omega)
  · rintro ⟨a⟩ ⟨b⟩ hab
    simp only [List.mem_cons, Prod.mk.injEq, List.not_mem_nil, or_false] at hab
    rcases hab with ⟨rfl, rfl⟩ | ⟨rfl, rfl⟩ | ⟨rfl, rfl⟩
    · exact ⟨_, _, rfl, rfl, by decide +kernel, .cons (by decide) (.cons (by decide) .nil)⟩
    · exact ⟨_, _, rfl, rfl, by decide +kernel, .nil⟩
    · exact ⟨_, _, rfl, rfl, by decide +kernel, .nil⟩

/-- The two have one dump, in which the values decide where the names agree. -/
theorem dump_lines_renumbered :
    (Tree.new.edited commentThenLink).dump =
      "| <!-- x -->\n| <svg a>\n|   a=\"d\"\n|   xlink href=\"b\"\n|   xlink href=\"c\"\n" ∧
    (Tree.new.edited linkThenComment).dump = (Tree.new.edited commentThenLink).dump :=
  ⟨by decide +kernel, (dump_lines commentThenLink).2.2.2 linkThenComment commentThenLink_isomorphic⟩

end HtmlTree
