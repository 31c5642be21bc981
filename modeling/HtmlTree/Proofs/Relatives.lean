import HtmlTree.Proofs.WellFormed

/-!
# Siblings and ancestors

A node's place is looked up from below, by its parent and its position in that one's list.  Seen from
above it is the same: the list has the node at this position and nowhere else, the siblings are what
stands before and behind it, and the ancestors are the nodes from which it is reached by going down
child lists.

* `Tree.PlacedAt`             a node at a position of a child list, and what is found around it;
* `Tree.SiblingsAgree`        every node with a parent has one place, any other has none;
* `Tree.AncestorsAgree`       the walk upwards, by steps down;
* `nextSibling?_eq_some_iff`, `previousSibling?_eq_some_iff`   neighbours in a child list;
* `edited_relatives`          **what is asked for from below is what is seen from above**, after any
                              edits.
-/

namespace HtmlTree.Tree

variable {t : Tree} {a b c p : NodeId} {i : Nat}

/-! ## what is to agree -/

/-- `c` is at position `i` in the list of its parent `p`, and its siblings are around it there -/
structure PlacedAt (t : Tree) (p c : NodeId) (i : Nat) : Prop where
  index : t.index? c = some i
  child : (t.children p)[i]? = some c
  only : ∀ j, (t.children p)[j]? = some c → j = i
  following : t.followingSiblings c = (t.children p).drop (i + 1)
  preceding : t.precedingSiblings c = ((t.children p).take i).reverse

/-- the queries about siblings tell of one relation -/
structure SiblingsAgree (t : Tree) : Prop where
  placed : ∀ c p, t.parent? c = some p → ∃ i, t.PlacedAt p c i
  /-- a node without a parent, or a handle that names no node, has no place -/
  unplaced : ∀ c, t.parent? c = none ∨ t.get? c = none → t.index? c = none ∧
    t.followingSiblings c = [] ∧ t.precedingSiblings c = []
  next : ∀ c, t.nextSibling? c = (t.followingSiblings c).head?
  previous : ∀ c, t.previousSibling? c = (t.precedingSiblings c).head?
  inverse : ∀ a b, t.nextSibling? a = some b ↔ t.previousSibling? b = some a

/-- a step down -/
def ParentOf (t : Tree) (p c : NodeId) : Prop := c ∈ t.children p

/-- the queries about ancestors tell of the steps down -/
structure AncestorsAgree (t : Tree) : Prop where
  /-- nearest first: each is the parent of the one before it -/
  nearest : ∀ id, (id :: t.ancestors id).IsChain fun c p => t.ParentOf p c
  nodup : ∀ id, (id :: t.ancestors id).Nodup
  mem_iff : ∀ a id, a ∈ t.ancestors id ↔ Relation.TransGen t.ParentOf a id
  /-- the walk ends at a node without a parent, which may be the first -/
  ends : ∀ id, ∀ a ∈ (id :: t.ancestors id).getLast?, t.parent? a = none
  inclusive_iff : ∀ a id,
    t.isInclusiveAncestor a id = true ↔ Relation.ReflTransGen t.ParentOf a id

/-! ## siblings -/

theorem siblings?_of_no_parent (h : t.parent? c = none) : t.siblings? c = none := by
  unfold siblings?
  rw [h]

theorem index?_of_no_parent (h : t.parent? c = none) : t.index? c = none := by
  unfold index?
  rw [h]
  rfl

/-- siblings are looked up where the node is -/
theorem siblings?_of_index? (hp : t.parent? c = some p) (hi : t.index? c = some i) :
    t.siblings? c = some (t.children p, i) := by
  unfold siblings?
  rw [hp, hi]

/-- **The next sibling is the first of those that follow.** -/
theorem nextSibling?_eq_head? (t : Tree) (c : NodeId) :
    t.nextSibling? c = (t.followingSiblings c).head? := by
  unfold nextSibling? followingSiblings
  cases t.siblings? c with
  | none => rfl
  | some s => exact (List.head?_drop).symm

namespace WellFormed

theorem index?_eq_some_iff (h : t.WellFormed) (hp : t.parent? c = some p) :
    t.index? c = some i ↔ (t.children p)[i]? = some c := by
  unfold index?
  rw [hp, Option.bind_some, List.idxOf?_eq_some_iff]
  constructor
  · rintro ⟨hlt, hc, _⟩
    exact List.getElem?_eq_some_iff.mpr ⟨hlt, hc⟩
  · intro hc
    obtain ⟨hlt, hget⟩ := List.getElem?_eq_some_iff.mp hc
    refine ⟨hlt, hget, fun j hj heq => ?_⟩
    exact Nat.ne_of_lt hj ((List.Nodup.getElem_inj_iff (h.nodup p)).mp (heq.trans hget.symm))

/-- a node with a parent is found in its list -/
theorem exists_index? (h : t.WellFormed) (hp : t.parent? c = some p) :
    ∃ i, t.index? c = some i := by
  obtain ⟨i, hi⟩ := List.getElem?_of_mem ((h.mem_children c p).mpr hp)
  exact ⟨i, (h.index?_eq_some_iff hp).mpr hi⟩

/-- **A node with a parent has one place among its siblings.** -/
theorem placedAt (h : t.WellFormed) (hp : t.parent? c = some p) (hi : t.index? c = some i) :
    t.PlacedAt p c i where
  index := hi
  child := (h.index?_eq_some_iff hp).mp hi
  only := fun j hj => by
    rw [← h.index?_eq_some_iff hp, hi] at hj
    exact (Option.some.inj hj).symm
  following := by
    unfold followingSiblings
    rw [siblings?_of_index? hp hi]
  preceding := by
    unfold precedingSiblings
    rw [siblings?_of_index? hp hi]

/-- the next sibling is the next one in a child list -/
theorem nextSibling?_eq_some_iff (h : t.WellFormed) : t.nextSibling? a = some b ↔
    ∃ p i, (t.children p)[i]? = some a ∧ (t.children p)[i + 1]? = some b := by
  constructor
  · intro hb
    obtain ⟨⟨all, i⟩, hs, hget⟩ := Option.bind_eq_some_iff.mp hb
    obtain ⟨p, _, rfl, _⟩ := siblings?_eq_some hs
    exact ⟨p, i, h.closed.siblings a _ i hs, hget⟩
  · rintro ⟨p, i, ha, hb⟩
    have hp : t.parent? a = some p := (h.mem_children a p).mp (List.mem_of_getElem? ha)
    unfold nextSibling?
    rw [siblings?_of_index? hp ((h.index?_eq_some_iff hp).mpr ha)]
    exact hb

/-- the previous sibling is the one before in a child list -/
theorem previousSibling?_eq_some_iff (h : t.WellFormed) : t.previousSibling? b = some a ↔
    ∃ p i, (t.children p)[i]? = some a ∧ (t.children p)[i + 1]? = some b := by
  constructor
  · intro ha
    obtain ⟨⟨all, j⟩, hs, hget⟩ := Option.bind_eq_some_iff.mp ha
    obtain ⟨p, _, rfl, _⟩ := siblings?_eq_some hs
    have hb := h.closed.siblings b _ j hs
    cases j with
    | zero => cases hget
    | succ i => exact ⟨p, i, hget, hb⟩
  · rintro ⟨p, i, ha, hb⟩
    have hp : t.parent? b = some p := (h.mem_children b p).mp (List.mem_of_getElem? hb)
    unfold previousSibling?
    rw [siblings?_of_index? hp ((h.index?_eq_some_iff hp).mpr hb)]
    exact ha

/-- **The previous sibling is the nearest of those that precede.** -/
theorem previousSibling?_eq_head? (h : t.WellFormed) (c : NodeId) :
    t.previousSibling? c = (t.precedingSiblings c).head? := by
  unfold previousSibling? precedingSiblings
  cases hs : t.siblings? c with
  | none => rfl
  | some s =>
    obtain ⟨all, i⟩ := s
    have hc := h.closed.siblings c all i hs
    obtain ⟨hlt, _⟩ := List.getElem?_eq_some_iff.mp hc
    show (if i = 0 then none else all[i - 1]?) = (all.take i).reverse.head?
    rw [List.head?_reverse, List.getLast?_take]
    cases i with
    | zero => rfl
    | succ i =>
      rw [if_neg (Nat.succ_ne_zero i), if_neg (Nat.succ_ne_zero i), Nat.add_sub_cancel,
        List.getElem?_eq_getElem (Nat.lt_of_succ_lt hlt)]
      rfl

theorem siblingsAgree (h : t.WellFormed) : t.SiblingsAgree where
  placed := fun c p hp => by
    obtain ⟨i, hi⟩ := h.exists_index? hp
    exact ⟨i, h.placedAt hp hi⟩
  unplaced := fun c hc => by
    have hp : t.parent? c = none := by
      rcases hc with hp | hn
      · exact hp
      · unfold parent?
        rw [hn]
        rfl
    have hs := siblings?_of_no_parent hp
    unfold followingSiblings precedingSiblings
    rw [hs]
    exact ⟨index?_of_no_parent hp, rfl, rfl⟩
  next := t.nextSibling?_eq_head?
  previous := h.previousSibling?_eq_head?
  inverse := fun a b => h.nextSibling?_eq_some_iff.trans h.previousSibling?_eq_some_iff.symm

/-! ## ancestors -/

/-- a step up is a step down the other way -/
theorem parentOf_iff (h : t.WellFormed) : t.ParentOf p c ↔ t.ChildOf c p := h.mem_children c p

theorem parentOf_eq_swap (h : t.WellFormed) : t.ParentOf = Function.swap t.ChildOf := by
  funext p c
  exact propext h.parentOf_iff

theorem transGen_parentOf_iff (h : t.WellFormed) :
    Relation.TransGen t.ParentOf a c ↔ Relation.TransGen t.ChildOf c a := by
  rw [h.parentOf_eq_swap, Relation.transGen_swap]

theorem reflTransGen_parentOf_iff (h : t.WellFormed) :
    Relation.ReflTransGen t.ParentOf a c ↔ Relation.ReflTransGen t.ChildOf c a := by
  rw [h.parentOf_eq_swap, Relation.reflTransGen_swap]

end WellFormed

/-- where a walk was not cut off it has come to a node without a parent -/
theorem parent?_of_getLast?_walk {limit : Nat} {id : NodeId}
    (h : (t.ancestorsUpTo limit id).length < limit)
    (ha : a ∈ (id :: t.ancestorsUpTo limit id).getLast?) : t.parent? a = none := by
  induction limit generalizing id with
  | zero => exact absurd h (Nat.not_lt_zero _)
  | succ limit ih =>
    cases hp : t.parent? id with
    | none =>
      rw [ancestorsUpTo_of_none hp] at ha
      cases ha
      exact hp
    | some p =>
      rw [ancestorsUpTo_of_parent hp] at h ha
      rw [List.getLast?_cons_cons] at ha
      exact ih (Nat.lt_of_succ_lt_succ h) ha

namespace WellFormed

/-- a walk that may take one step more than there are nodes is not cut off -/
theorem length_walk_lt (h : t.WellFormed) (id : NodeId) :
    (t.ancestorsUpTo (t.size + 1) id).length < t.size + 1 := by
  rw [ancestorsUpTo_eq h.acyclic h.parentsKnown (Nat.le_succ t.size), Nat.lt_succ_iff]
  refine length_le_size ((h.acyclic.nodup_walk t.size id).of_cons) fun x hx => ?_
  exact h.answers_lt id x (by simp only [answers, List.mem_append, hx, true_or, or_true])

theorem ancestorsAgree (h : t.WellFormed) : t.AncestorsAgree where
  nearest := fun id => (isChain_ancestorsUpTo t t.size id).imp fun _ _ => h.parentOf_iff.mpr
  nodup := h.acyclic.nodup_walk t.size
  mem_iff := fun a id =>
    (mem_ancestors_iff h.acyclic h.parentsKnown).trans h.transGen_parentOf_iff.symm
  ends := fun id a ha => by
    rw [← ancestorsUpTo_eq h.acyclic h.parentsKnown (Nat.le_succ t.size)] at ha
    exact parent?_of_getLast?_walk (h.length_walk_lt id) ha
  inclusive_iff := fun a id =>
    (isInclusiveAncestor_iff h.acyclic h.parentsKnown).trans h.reflTransGen_parentOf_iff.symm

end WellFormed

/-! ## every tree -/

/-- **What a node's relatives are, asked from below, is what they are seen from above**, after any
edits: it has one place in the list of its parent, its siblings stand around it there, and its
ancestors are the nodes from which it is reached by steps down. -/
theorem edited_relatives (edits : List Edit) :
    let t := Tree.new.edited edits
    t.SiblingsAgree ∧ t.AncestorsAgree :=
  have h := WellFormed.new.edited edits
  ⟨h.siblingsAgree, h.ancestorsAgree⟩

end HtmlTree.Tree
