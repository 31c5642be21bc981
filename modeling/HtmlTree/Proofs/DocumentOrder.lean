import HtmlTree.Proofs.Isomorphism

/-!
# Document order

A document is read from the top: a node before what is below it, and what is below a child before
what is below a later child of the same node.  In a well-formed tree this puts the nodes below the
root in one row, each of them once.

* `Tree.Precedes`, `Tree.InPreorder`      the order, and the row of all nodes below the root;
* `WellFormed.siblings_apart`             nothing is below two children of one node;
* `Precedes.asymm`, `InPreorder.unique`   so there is no other row;
* `Tree.subtree`, `Tree.descendants`      the nodes as a walk over child lists meets them;
* `descendants_inPreorder`                **the walk meets them in document order**.
-/

namespace HtmlTree.Tree

variable {t : Tree} {a b c id p x y : NodeId} {limit : Nat}

/-! ## the order -/

/-- `a` comes before `b` in the document -/
inductive Precedes (t : Tree) (a b : NodeId) : Prop
  | below : Relation.TransGen t.ChildOf b a → Precedes t a b
  | beside {p x y : NodeId} {i j : Nat} : i < j →
      (t.children p)[i]? = some x → (t.children p)[j]? = some y →
      Relation.ReflTransGen t.ChildOf a x → Relation.ReflTransGen t.ChildOf b y → Precedes t a b

/-- the nodes below the root, each once and each behind all that come before it -/
structure InPreorder (t : Tree) (ids : List NodeId) : Prop where
  mem_iff : ∀ id, id ∈ ids ↔ Relation.TransGen t.ChildOf id .root
  nodup : ids.Nodup
  sorted : ids.Pairwise t.Precedes

/-- a node has one parent -/
theorem childOf_rightUnique (t : Tree) : Relator.RightUnique t.ChildOf :=
  fun _ _ _ h h' => Option.some.inj (h.symm.trans h')

namespace WellFormed

theorem not_below_self (h : t.WellFormed) (hab : Relation.ReflTransGen t.ChildOf a b)
    (hba : Relation.TransGen t.ChildOf b a) : False :=
  h.acyclic a (Relation.TransGen.trans_right hab hba)

/-- **Nothing is below two children of one node.** -/
theorem siblings_apart (h : t.WellFormed) (hx : t.ChildOf x p) (hy : t.ChildOf y p)
    (hax : Relation.ReflTransGen t.ChildOf a x) (hay : Relation.ReflTransGen t.ChildOf a y) :
    x = y := by
  have habove : ∀ {x y}, t.ChildOf x p → t.ChildOf y p →
      Relation.ReflTransGen t.ChildOf x y → x = y := by
    intro x y hx hy hxy
    rcases Relation.ReflTransGen.cases_head hxy with rfl | ⟨q, hq, hqy⟩
    · rfl
    · cases t.childOf_rightUnique hx hq
      exact (h.not_below_self hqy (.single hy)).elim
  rcases Relation.ReflTransGen.total_of_right_unique t.childOf_rightUnique hax hay with hxy | hyx
  · exact habove hx hy hxy
  · exact (habove hy hx hyx).symm

theorem childOf_of_getElem? (h : t.WellFormed) {i : Nat} (hx : (t.children p)[i]? = some x) :
    t.ChildOf x p := h.parent?_atPath? hx

/-- what is beside each other is below different children -/
theorem ne_of_positions (h : t.WellFormed) {i j : Nat} (hij : i < j)
    (hx : (t.children p)[i]? = some x) (hy : (t.children p)[j]? = some y) : x ≠ y := by
  rintro rfl
  obtain ⟨hlt, _⟩ := List.getElem?_eq_some_iff.mp hx
  exact Nat.ne_of_lt hij ((List.getElem?_inj hlt (h.nodup p)).mp (hx.trans hy.symm))

/-- where two nodes are below different children of `p`, no node below `p` has both below it -/
theorem not_both_below (h : t.WellFormed) (hx : t.ChildOf x p) (hy : t.ChildOf y p) (hne : x ≠ y)
    (hax : Relation.ReflTransGen t.ChildOf a x) (hby : Relation.ReflTransGen t.ChildOf b y)
    (hac : Relation.ReflTransGen t.ChildOf a c) (hbc : Relation.ReflTransGen t.ChildOf b c)
    (hcp : Relation.TransGen t.ChildOf c p) : False := by
  obtain ⟨z, hcz, hz⟩ := Relation.TransGen.tail'_iff.mp hcp
  have hxz := h.siblings_apart hx hz hax (hac.trans hcz)
  have hyz := h.siblings_apart hy hz hby (hbc.trans hcz)
  exact hne (hxz.trans hyz.symm)

end WellFormed

/-- **Of two nodes only one comes before the other.** -/
theorem Precedes.asymm (h : t.WellFormed) (hab : t.Precedes a b) (hba : t.Precedes b a) : False := by
  have hbeside : ∀ {a b}, Relation.TransGen t.ChildOf b a → t.Precedes b a → False := by
    intro a b hbelow hba
    cases hba with
    | below hab => exact h.not_below_self hab.to_reflTransGen hbelow
    | beside hij hx hy hbx hay =>
      refine h.ne_of_positions hij hx hy ?_
      exact h.siblings_apart (h.childOf_of_getElem? hx) (h.childOf_of_getElem? hy) hbx
        (hbelow.to_reflTransGen.trans hay)
  cases hab with
  | below hbelow => exact hbeside hbelow hba
  | @beside p x y i j hij hx hy hax hby =>
    cases hba with
    | below habove => exact hbeside habove (.beside hij hx hy hax hby)
    | @beside q x' y' i' j' hij' hx' hy' hbx' hay' =>
      have hxp := h.childOf_of_getElem? hx
      have hyp := h.childOf_of_getElem? hy
      have hxq := h.childOf_of_getElem? hx'
      have hyq := h.childOf_of_getElem? hy'
      have hne := h.ne_of_positions hij hx hy
      have hne' := h.ne_of_positions hij' hx' hy'
      have hpq : p ≠ q := by
        rintro rfl
        cases h.siblings_apart hxp hyq hax hay'
        cases h.siblings_apart hyp hxq hby hbx'
        obtain ⟨hi, _⟩ := List.getElem?_eq_some_iff.mp hx
        obtain ⟨hj, _⟩ := List.getElem?_eq_some_iff.mp hy
        have hxx := (List.getElem?_inj hi (h.nodup p)).mp (hx.trans hy'.symm)
        have hyy := (List.getElem?_inj hj (h.nodup p)).mp (hy.trans hx'.symm)
        omega
      -- both parents are above both nodes, so one of them is above the other
      rcases Relation.ReflTransGen.total_of_right_unique t.childOf_rightUnique (hax.tail hxp)
        (hay'.tail hyq) with hup | hup
      · have hup := (Relation.reflTransGen_iff_eq_or_transGen.mp hup).resolve_left hpq.symm
        exact h.not_both_below hyq hxq hne'.symm hay' hbx' (hax.tail hxp) (hby.tail hyp) hup
      · have hup := (Relation.reflTransGen_iff_eq_or_transGen.mp hup).resolve_left hpq
        exact h.not_both_below hxp hyp hne hax hby (hay'.tail hyq) (hbx'.tail hxq) hup

/-- **There is one row of nodes in document order.** -/
theorem InPreorder.unique {ids ids' : List NodeId} (h : t.WellFormed)
    (hids : t.InPreorder ids) (hids' : t.InPreorder ids') : ids = ids' := by
  have hperm : ids.Perm ids' := (List.perm_ext_iff_of_nodup hids.nodup hids'.nodup).mpr
    fun id => (hids.mem_iff id).trans (hids'.mem_iff id).symm
  exact hperm.eq_of_pairwise (fun a b _ _ hab hba => (hab.asymm h hba).elim) hids.sorted
    hids'.sorted

/-! ## the walk -/

/-- a node and all below it as a walk over child lists meets them, down to `limit` levels -/
def subtree (t : Tree) : (limit : Nat) → NodeId → List NodeId
  | 0, _ => []
  | limit + 1, id => id :: (t.children id).flatMap (subtree t limit)

/-- all nodes below the root as the walk meets them -/
def descendants (t : Tree) : List NodeId := (t.children .root).flatMap (t.subtree t.size)

theorem mem_subtree_succ : a ∈ t.subtree (limit + 1) id ↔
    a = id ∨ ∃ c ∈ t.children id, a ∈ t.subtree limit c := by
  rw [subtree, List.mem_cons, List.mem_flatMap]

/-- rows of what is below the children of a node, one after the other -/
theorem sorted_flatMap {f : NodeId → List NodeId}
    (hsorted : ∀ c, (f c).Pairwise t.Precedes)
    (hbelow : ∀ c, ∀ a ∈ f c, Relation.ReflTransGen t.ChildOf a c) (p : NodeId) :
    ((t.children p).flatMap f).Pairwise t.Precedes := by
  refine List.pairwise_flatMap.mpr ⟨fun c _ => hsorted c, ?_⟩
  refine List.pairwise_iff_getElem.mpr fun i j hi hj hij a ha b hb => ?_
  exact .beside hij (List.getElem?_eq_getElem hi) (List.getElem?_eq_getElem hj) (hbelow _ a ha)
    (hbelow _ b hb)

namespace WellFormed

theorem below_of_mem_subtree (h : t.WellFormed) (ha : a ∈ t.subtree limit id) :
    Relation.ReflTransGen t.ChildOf a id := by
  induction limit generalizing id with
  | zero => cases ha
  | succ limit ih =>
    rcases mem_subtree_succ.mp ha with rfl | ⟨c, hc, ha⟩
    · exact .refl
    · exact (ih ha).tail ((h.mem_children c id).mp hc)

/-- the walk meets all that is below a node, if its limit is no less than what is there -/
theorem mem_subtree_of_below (h : t.WellFormed) (hid : id.index < t.size)
    (hlimit : t.size < limit + (t.ancestors id).length)
    (ha : Relation.ReflTransGen t.ChildOf a id) : a ∈ t.subtree limit id := by
  induction limit generalizing id with
  | zero =>
    have := h.length_ancestors_lt hid
    omega
  | succ limit ih =>
    rw [mem_subtree_succ]
    rcases Relation.ReflTransGen.cases_tail ha with rfl | ⟨c, hac, hc⟩
    · exact .inl rfl
    · have hmem := (h.mem_children c id).mpr hc
      have hdeeper := h.length_ancestors_child hc
      exact .inr ⟨c, hmem, ih (h.child_lt hmem) (by omega) hac⟩

theorem sorted_subtree (h : t.WellFormed) (limit : Nat) (id : NodeId) :
    (t.subtree limit id).Pairwise t.Precedes := by
  induction limit generalizing id with
  | zero => exact .nil
  | succ limit ih =>
    refine List.pairwise_cons.mpr ⟨fun a ha => .below ?_, ?_⟩
    · obtain ⟨c, hc, ha⟩ := List.mem_flatMap.mp ha
      exact Relation.TransGen.tail' (h.below_of_mem_subtree ha) ((h.mem_children c id).mp hc)
    · exact sorted_flatMap ih (fun _ _ => h.below_of_mem_subtree) id

/-- **The walk meets the nodes below the root in document order.** -/
theorem descendants_inPreorder (h : t.WellFormed) : t.InPreorder t.descendants := by
  have hsorted : t.descendants.Pairwise t.Precedes :=
    sorted_flatMap (h.sorted_subtree t.size) (fun _ _ => h.below_of_mem_subtree) .root
  refine ⟨fun id => ?_, hsorted.imp fun hab heq => ?_, hsorted⟩
  · unfold descendants
    rw [List.mem_flatMap, Relation.TransGen.tail'_iff]
    refine exists_congr fun c => ?_
    rw [h.mem_children, and_comm]
    refine and_congr_left fun hc => ⟨h.below_of_mem_subtree, h.mem_subtree_of_below ?_ ?_⟩
    · exact h.child_lt ((h.mem_children c .root).mpr hc)
    · rw [h.length_ancestors_child hc]
      omega
  · rw [heq] at hab
    exact hab.asymm h hab

end WellFormed

end HtmlTree.Tree
