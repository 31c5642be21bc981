import HtmlTree.Proofs.Attach
import Mathlib.Data.List.Nodup
import Mathlib.Data.List.Perm.Subperm
import Mathlib.Logic.Relation

/-!
# Descent

The parent of a node, the parent of that and so on are its ancestors.  Where no node descends from
itself the walk over them meets no node twice, so it is over before it has as many steps as there
are nodes.

* `Tree.ChildOf`, `Tree.Acyclic`   the relation of a node to its parent; it has no cycle;
* `ancestorsUpTo_eq`               the walk ends by itself;
* `mem_ancestors_iff`, `isInclusiveAncestor_iff`   what it meets;
* `Acyclic.relink`                 nodes may be given a parent that does not descend from them.
-/

namespace HtmlTree.Tree

/-- the first node has the second as its parent -/
def ChildOf (t : Tree) (c p : NodeId) : Prop := t.parent? c = some p

/-- no node descends from itself -/
def Acyclic (t : Tree) : Prop := ∀ id, ¬ Relation.TransGen t.ChildOf id id

/-- parents are nodes of the tree -/
def ParentsKnown (t : Tree) : Prop := ∀ c p, t.parent? c = some p → p.index < t.size

variable {t u : Tree} {a id p : NodeId} {m n : Nat}

/-! ## the walk -/

theorem ancestorsUpTo_zero : t.ancestorsUpTo 0 id = [] := rfl

theorem ancestorsUpTo_of_parent (h : t.parent? id = some p) :
    t.ancestorsUpTo (n + 1) id = p :: t.ancestorsUpTo n p := by
  rw [ancestorsUpTo, h]

theorem ancestorsUpTo_of_none (h : t.parent? id = none) : t.ancestorsUpTo n id = [] := by
  cases n with
  | zero => rfl
  | succ n => rw [ancestorsUpTo, h]

theorem isChain_ancestorsUpTo (t : Tree) (n : Nat) (id : NodeId) :
    (id :: t.ancestorsUpTo n id).IsChain t.ChildOf := by
  induction n generalizing id with
  | zero => exact .singleton id
  | succ n ih =>
    cases h : t.parent? id with
    | none =>
      rw [ancestorsUpTo_of_none h]
      exact .singleton id
    | some p =>
      rw [ancestorsUpTo_of_parent h]
      exact List.isChain_cons_cons.mpr ⟨h, ih p⟩

/-- without cycles no node is met twice -/
theorem Acyclic.nodup_walk (ha : t.Acyclic) (n : Nat) (id : NodeId) :
    (id :: t.ancestorsUpTo n id).Nodup := by
  have hchain := (isChain_ancestorsUpTo t n id).imp fun _ _ => Relation.TransGen.single
  refine hchain.pairwise.imp ?_
  intro x y hxy he
  rw [he] at hxy
  exact ha y hxy

theorem ParentsKnown.walk (hk : t.ParentsKnown) (hid : id.index < t.size) :
    ∀ x ∈ id :: t.ancestorsUpTo n id, x.index < t.size := by
  induction n generalizing id with
  | zero => simpa [ancestorsUpTo_zero] using hid
  | succ n ih =>
    intro x hx
    rcases List.mem_cons.mp hx with rfl | hx
    · exact hid
    · cases h : t.parent? id with
      | none =>
        rw [ancestorsUpTo_of_none h] at hx
        cases hx
      | some p =>
        rw [ancestorsUpTo_of_parent h] at hx
        exact ih (hk id p h) x hx

/-- different nodes of a tree are no more than it has -/
theorem length_le_size {ids : List NodeId} (hnd : ids.Nodup) (h : ∀ x ∈ ids, x.index < t.size) :
    ids.length ≤ t.size := by
  have hmap : (ids.map NodeId.index).Nodup := hnd.map fun _ _ => NodeId.ext_index
  have hsub : ids.map NodeId.index ⊆ List.range t.size := by
    intro i hi
    obtain ⟨x, hx, rfl⟩ := List.mem_map.mp hi
    exact List.mem_range.mpr (h x hx)
  have hle := (hmap.subperm hsub).length_le
  rwa [List.length_map, List.length_range] at hle

/-- a walk that was not cut off does not change with its limit -/
theorem ancestorsUpTo_of_length_lt (h : (t.ancestorsUpTo n id).length < n) (hle : n ≤ m) :
    t.ancestorsUpTo m id = t.ancestorsUpTo n id := by
  induction n generalizing id m with
  | zero => exact absurd h (Nat.not_lt_zero _)
  | succ n ih =>
    obtain ⟨m, rfl⟩ : ∃ k, m = k + 1 := ⟨m - 1, by omega⟩
    cases hp : t.parent? id with
    | none => rw [ancestorsUpTo_of_none hp, ancestorsUpTo_of_none hp]
    | some p =>
      rw [ancestorsUpTo_of_parent hp, List.length_cons] at h
      rw [ancestorsUpTo_of_parent hp, ancestorsUpTo_of_parent hp, ih (by omega) (by omega)]

/-- **The walk over the ancestors ends by itself.** -/
theorem ancestorsUpTo_eq (ha : t.Acyclic) (hk : t.ParentsKnown) (hle : t.size ≤ n) :
    t.ancestorsUpTo n id = t.ancestors id := by
  cases hp : t.parent? id with
  | none =>
    rw [ancestors, ancestorsUpTo_of_none hp, ancestorsUpTo_of_none hp]
  | some p =>
    have hlen := length_le_size (ha.nodup_walk t.size id) (hk.walk (index_lt_of_parent? hp))
    rw [List.length_cons] at hlen
    exact ancestorsUpTo_of_length_lt (by omega) hle

/-! ## what the walk meets -/

theorem ancestors_of_parent (ha : t.Acyclic) (hk : t.ParentsKnown) (h : t.parent? id = some p) :
    t.ancestors id = p :: t.ancestors p := by
  rw [← ancestorsUpTo_eq ha hk (Nat.le_succ t.size), ancestorsUpTo_of_parent h]
  rfl

theorem transGen_of_mem_ancestorsUpTo (h : a ∈ t.ancestorsUpTo n id) :
    Relation.TransGen t.ChildOf id a := by
  have hchain := (isChain_ancestorsUpTo t n id).imp fun _ _ => Relation.TransGen.single
  exact (List.pairwise_cons.mp hchain.pairwise).1 a h

theorem mem_ancestors_iff (ha : t.Acyclic) (hk : t.ParentsKnown) :
    a ∈ t.ancestors id ↔ Relation.TransGen t.ChildOf id a := by
  constructor
  · exact transGen_of_mem_ancestorsUpTo
  · intro h
    induction h using Relation.TransGen.head_induction_on with
    | single h =>
      rw [ancestors_of_parent ha hk h]
      exact List.mem_cons_self
    | head h _ ih =>
      rw [ancestors_of_parent ha hk h]
      exact List.mem_cons_of_mem _ ih

theorem isInclusiveAncestor_iff (ha : t.Acyclic) (hk : t.ParentsKnown) :
    t.isInclusiveAncestor a id = true ↔ Relation.ReflTransGen t.ChildOf id a := by
  unfold isInclusiveAncestor
  rw [Relation.reflTransGen_iff_eq_or_transGen, ← mem_ancestors_iff ha hk]
  simp

/-! ## new parents -/

/-- **Nodes that are given a new parent make no cycle**, if it does not descend from any of them. -/
theorem Acyclic.relink (ha : t.Acyclic) {ids : List NodeId}
    (hu : ∀ c q, u.ChildOf c q → t.ChildOf c q ∨ c ∈ ids ∧ q = p)
    (hno : ∀ c ∈ ids, ¬ Relation.ReflTransGen t.ChildOf p c) : u.Acyclic := by
  have above : ∀ x, Relation.ReflTransGen u.ChildOf p x → Relation.ReflTransGen t.ChildOf p x := by
    intro x hx
    induction hx with
    | refl => exact .refl
    | tail _ hyz ih =>
      rcases hu _ _ hyz with h | ⟨h, _⟩
      · exact ih.tail h
      · exact absurd ih (hno _ h)
  -- a line of descent is an old one, or comes to one of the nodes and goes on above `p`
  have split : ∀ x y, Relation.TransGen u.ChildOf x y → Relation.TransGen t.ChildOf x y ∨
      ∃ c ∈ ids, Relation.ReflTransGen t.ChildOf x c ∧ Relation.ReflTransGen u.ChildOf p y := by
    intro x y hxy
    induction hxy with
    | single h =>
      rcases hu _ _ h with h | ⟨h, rfl⟩
      · exact Or.inl (.single h)
      · exact Or.inr ⟨x, h, .refl, .refl⟩
    | tail _ hyz ih =>
      rcases ih with ih | ⟨c, hc, hxc, hpy⟩
      · rcases hu _ _ hyz with h | ⟨h, rfl⟩
        · exact Or.inl (ih.tail h)
        · exact Or.inr ⟨_, h, ih.to_reflTransGen, .refl⟩
      · exact Or.inr ⟨c, hc, hxc, hpy.tail hyz⟩
  intro x hx
  rcases split x x hx with h | ⟨c, hc, hxc, hpx⟩
  · exact ha x h
  · exact hno c hc ((above x hpx).trans hxc)

end HtmlTree.Tree
