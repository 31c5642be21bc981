import HtmlTree.Proofs.WellFormed
import Mathlib.Data.List.Forall2
import Mathlib.Logic.Relator

/-!
# Trees that differ in their numbers only

The number of a node tells when it was made, and nodes that hang from nothing are in the array as
well.  Two trees are isomorphic if they are the same apart from that: their nodes below the root are
paired one to one, paired nodes hold the same, and their children are paired in their order.

* `Tree.atPath?`            the node to which a list of positions leads down from the root;
* `WellFormed.path_unique`  only one path leads to a node;
* `WellFormed.length_path`  a path is as long as its node has ancestors, so it is shorter than the
                            array;
* `Tree.Matches`, `Tree.Isomorphic`   the pairing, and that there is one;
* `Matches.map_children`    what paired children have in common their parents list alike;
* `isomorphic_of_paths`     it is enough to compare the nodes at the end of equal paths.
-/

namespace HtmlTree.Tree

variable {t u : Tree} {a b c p : NodeId} {path path' : List Nat}

/-! ## paths -/

/-- the node at the end of a path, whose last step comes first: the position of the node in the
child list of its parent, and then the path to that one -/
def atPath? (t : Tree) : List Nat → Option NodeId
  | [] => some .root
  | i :: path => (t.atPath? path).bind fun p => (t.children p)[i]?

theorem atPath?_cons_iff {i : Nat} : t.atPath? (i :: path) = some c ↔
    ∃ p, t.atPath? path = some p ∧ (t.children p)[i]? = some c := Option.bind_eq_some_iff

namespace WellFormed

theorem parent?_root (h : t.WellFormed) : t.parent? .root = none := by
  cases hp : t.parent? .root with
  | none => rfl
  | some p =>
    obtain ⟨n, hn, hparent⟩ := get?_of_parent? hp
    have hkind := h.root
    rw [isKind_of_get? hn, Node.kind, beq_iff_eq] at hkind
    have hborne := h.borne .root n hn (by rw [hparent]; rfl)
    cases hd : n.data <;> rw [hd] at hkind hborne <;> first
      | exact Bool.noConfusion hborne
      | exact NodeKind.noConfusion hkind

theorem parent?_atPath? (h : t.WellFormed) {i : Nat} (hc : (t.children p)[i]? = some c) :
    t.parent? c = some p :=
  (h.mem_children c p).mp (List.mem_of_getElem? hc)

/-- **Only one path leads to a node.** -/
theorem path_unique (h : t.WellFormed) (ha : t.atPath? path = some c)
    (hb : t.atPath? path' = some c) : path = path' := by
  induction path generalizing path' c with
  | nil =>
    cases ha
    cases path' with
    | nil => rfl
    | cons j path' =>
      obtain ⟨p, _, hj⟩ := atPath?_cons_iff.mp hb
      have hparent := h.parent?_atPath? hj
      rw [h.parent?_root] at hparent
      cases hparent
  | cons i path ih =>
    obtain ⟨p, hp, hi⟩ := atPath?_cons_iff.mp ha
    have hparent := h.parent?_atPath? hi
    cases path' with
    | nil =>
      cases hb
      rw [h.parent?_root] at hparent
      cases hparent
    | cons j path' =>
      obtain ⟨q, hq, hj⟩ := atPath?_cons_iff.mp hb
      -- the parent is the same, and it has the node at one position only
      cases hparent.symm.trans (h.parent?_atPath? hj)
      obtain ⟨hlt, _⟩ := List.getElem?_eq_some_iff.mp hi
      rw [ih hp hq, (List.getElem?_inj hlt (h.nodup p)).mp (hi.trans hj.symm)]

/-- a child is one level deeper -/
theorem length_ancestors_child (h : t.WellFormed) (hc : t.ChildOf c p) :
    (t.ancestors c).length = (t.ancestors p).length + 1 := by
  rw [ancestors_of_parent h.acyclic h.parentsKnown hc, List.length_cons]

theorem length_path (h : t.WellFormed) (ha : t.atPath? path = some c) :
    (t.ancestors c).length = path.length := by
  induction path generalizing c with
  | nil =>
    cases ha
    unfold ancestors
    rw [ancestorsUpTo_of_none h.parent?_root]
    rfl
  | cons i path ih =>
    obtain ⟨p, hp, hi⟩ := atPath?_cons_iff.mp ha
    rw [h.length_ancestors_child (h.parent?_atPath? hi), ih hp, List.length_cons]

theorem length_ancestors_lt (h : t.WellFormed) (hc : c.index < t.size) :
    (t.ancestors c).length < t.size :=
  length_le_size (h.acyclic.nodup_walk t.size c) (h.parentsKnown.walk hc)

theorem root_lt (h : t.WellFormed) : NodeId.root.index < t.size := by
  cases hn : t.get? .root with
  | some n => exact index_lt_of_get? hn
  | none =>
    have hkind := h.root
    unfold isKind kind? at hkind
    rw [hn] at hkind
    cases hkind

/-- what is at the end of a path is a node of the tree -/
theorem atPath?_lt (h : t.WellFormed) (ha : t.atPath? path = some c) : c.index < t.size := by
  cases path with
  | nil =>
    cases ha
    exact h.root_lt
  | cons i path =>
    obtain ⟨p, _, hi⟩ := atPath?_cons_iff.mp ha
    exact h.child_lt (List.mem_of_getElem? hi)

theorem length_path_lt (h : t.WellFormed) (ha : t.atPath? path = some c) :
    path.length < t.size := by
  rw [← h.length_path ha]
  exact h.length_ancestors_lt (h.atPath?_lt ha)

end WellFormed

/-! ## pairings -/

/-- a pairing of the nodes below the roots, one to one, of nodes that hold the same -/
structure Matches (t u : Tree) (R : NodeId → NodeId → Prop) : Prop where
  root : R .root .root
  unique : Relator.BiUnique R
  alike : ∀ a b, R a b → ∃ m n, t.get? a = some m ∧ u.get? b = some n ∧ m.data = n.data ∧
    List.Forall₂ R m.children n.children

/-- the same tree but for the numbers of its nodes and for nodes that do not hang from the root -/
def Isomorphic (t u : Tree) : Prop := ∃ R, t.Matches u R

/-- the values of the children of paired nodes, where those of paired children are equal -/
theorem Matches.map_children {α : Type} {R : NodeId → NodeId → Prop} (hR : t.Matches u R)
    (ht : t.WellFormed) (hu : u.WellFormed) (hab : R a b) {f g : NodeId → α}
    (h : ∀ x y, R x y → t.ChildOf x a → u.ChildOf y b → f x = g y) :
    (t.children a).map f = (u.children b).map g := by
  obtain ⟨m, n, hm, hn, _, hchildren⟩ := hR.alike a b hab
  rw [← children_of_get? hm, ← children_of_get? hn] at hchildren
  rw [← List.forall₂_eq_eq_eq, List.forall₂_map_left_iff, List.forall₂_map_right_iff]
  refine List.forall₂_iff_zip.mpr ⟨hchildren.length_eq, fun {x y} hxy => ?_⟩
  have hmem := List.of_mem_zip hxy
  exact h x y (List.forall₂_zip hchildren hxy) ((ht.mem_children x a).mp hmem.1)
    ((hu.mem_children y b).mp hmem.2)

/-- **Trees are isomorphic if equal paths lead to equal nodes**, with equally many children. -/
theorem isomorphic_of_paths (ht : t.WellFormed) (hu : u.WellFormed)
    (h : ∀ path a b, t.atPath? path = some a → u.atPath? path = some b → ∃ m n,
      t.get? a = some m ∧ u.get? b = some n ∧ m.data = n.data ∧
        m.children.length = n.children.length) : t.Isomorphic u := by
  let R := fun a b => ∃ path, t.atPath? path = some a ∧ u.atPath? path = some b
  have hchild : ∀ path a b (i : Nat) x y, t.atPath? path = some a → u.atPath? path = some b →
      (t.children a)[i]? = some x → (u.children b)[i]? = some y → R x y := by
    intro path a b i x y ha hb hx hy
    exact ⟨i :: path, atPath?_cons_iff.mpr ⟨a, ha, hx⟩, atPath?_cons_iff.mpr ⟨b, hb, hy⟩⟩
  refine ⟨R, ⟨[], rfl, rfl⟩, ⟨?_, ?_⟩, ?_⟩
  · rintro a a' b ⟨path, ha, hb⟩ ⟨path', ha', hb'⟩
    cases hu.path_unique hb hb'
    exact Option.some.inj (ha.symm.trans ha')
  · rintro a b b' ⟨path, ha, hb⟩ ⟨path', ha', hb'⟩
    cases ht.path_unique ha ha'
    exact Option.some.inj (hb.symm.trans hb')
  · rintro a b ⟨path, ha, hb⟩
    obtain ⟨m, n, hm, hn, hdata, hlength⟩ := h path a b ha hb
    refine ⟨m, n, hm, hn, hdata, List.forall₂_iff_get.mpr ⟨hlength, fun i hi hj => ?_⟩⟩
    refine hchild path a b i _ _ ha hb ?_ ?_
    · rw [children_of_get? hm]
      exact List.getElem?_eq_getElem hi
    · rw [children_of_get? hn]
      exact List.getElem?_eq_getElem hj

end HtmlTree.Tree
