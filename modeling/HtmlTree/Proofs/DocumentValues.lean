import HtmlTree.Dom.DocumentJson
import HtmlTree.Proofs.Isomorphism

/-!
# What the JSON form of a document keeps

The JSON form of a document loses nothing but the numbers of its nodes.  A node's object tells its
kind by the member `type` and has a member for whatever else the node holds.  Fragments and shadow
roots would look alike, and the objects of doctypes and of character data have no place for children;
but nothing below a root is a fragment, and these nodes have no children.

* `NodeData.json_injective`  a node's value gives back what the node holds;
* `WellFormed.jsonFrom_eq`   the value of a node at the end of a path, from those of its children;
* `WellFormed.alike`         two documents with one form, along all paths;
* `Tree.Matches.jsonFrom`    paired nodes have one form;
* `json_eq_iff`              **two documents have one form exactly if they are isomorphic**, with the
                             same mode.
-/

namespace HtmlTree

open Json (Value)

/-! ## what a node holds -/

theorem Namespace.url_injective {a b : Namespace} (h : a.url = b.url) : a = b := by
  have hread := congrArg Namespace.ofUrl? h
  rw [ofUrl?_url, ofUrl?_url] at hread
  exact Option.some.inj hread

theorem DocumentMode.name_injective {a b : DocumentMode} (h : a.name = b.name) : a = b := by
  cases a <;> cases b <;> first
    | rfl
    | exact absurd h (by decide)

theorem Attributes.json_injective {a b : Attributes} (h : a.json = b.json) : a = b := by
  refine ext_entries (List.map_injective_iff.mpr ?_ (Value.object.inj h))
  rintro ⟨_, _⟩ ⟨_, _⟩ he
  cases he
  rfl

namespace NodeData
variable {d d' : NodeData} {cs cs' : List Value}

/-- values of different kinds differ in the member `type` -/
theorem kind_eq_of_json (h : d.json cs = d'.json cs') : d.kind = d'.kind := by
  cases d <;> cases d' <;> first
    | rfl
    | simp [json] at h

/-- **A node's value gives back what the node holds**, and the values of its children where it may
have any. -/
theorem json_injective (hd : d.isFragment = false) (hd' : d'.isFragment = false)
    (h : d.json cs = d'.json cs') : d = d' ∧ (d.canHaveChildren = true → cs = cs') := by
  have hkind := kind_eq_of_json h
  cases d <;> cases d' <;> first
    | exact NodeKind.noConfusion hkind
    | exact Bool.noConfusion hd
    | exact Bool.noConfusion hd'
    | simp only [json, Value.object.injEq, List.cons.injEq, Prod.mk.injEq, Value.array.injEq,
        Value.string.injEq, true_and, and_true] at h
  case document.document => exact ⟨rfl, fun _ => h⟩
  case documentType.documentType x y =>
    obtain ⟨name, publicId, systemId⟩ := x
    obtain ⟨rfl, rfl, rfl⟩ := h
    exact ⟨rfl, nofun⟩
  case element.element x y =>
    obtain ⟨name, ns, attributes⟩ := x
    obtain ⟨name', ns', attributes'⟩ := y
    obtain ⟨hattributes, hcs, rfl, hns⟩ := h
    cases Attributes.json_injective hattributes
    cases Namespace.url_injective hns
    exact ⟨rfl, fun _ => hcs⟩
  case attr.attr =>
    obtain ⟨rfl, rfl⟩ := h
    exact ⟨rfl, nofun⟩
  case processingInstruction.processingInstruction target x target' y =>
    obtain ⟨data⟩ := x
    obtain ⟨data'⟩ := y
    obtain ⟨rfl, rfl⟩ := h
    exact ⟨rfl, nofun⟩
  -- texts, sections and comments hold character data and nothing else
  all_goals
    rename_i x y
    obtain ⟨data⟩ := x
    obtain rfl := h
    exact ⟨rfl, nofun⟩

end NodeData

namespace Tree
variable {t u : Tree} {a b c id : NodeId} {path : List Nat} {n : Node} {limit limit' : Nat}

/-! ## nodes at the end of a path -/

theorem jsonFrom_succ (h : t.get? id = some n) :
    t.jsonFrom (limit + 1) id = n.data.json (n.children.map (t.jsonFrom limit)) := by
  rw [jsonFrom, h]

namespace WellFormed

/-- what is below a root is no fragment -/
theorem not_fragment (h : t.WellFormed) (ha : t.atPath? path = some a) (hn : t.get? a = some n) :
    n.data.isFragment = false := by
  cases path with
  | nil =>
    cases ha
    have hkind := h.root
    rw [isKind_of_get? hn, Node.kind, beq_iff_eq] at hkind
    cases hd : n.data <;> rw [hd] at hkind <;> first
      | rfl
      | exact NodeKind.noConfusion hkind
  | cons i path =>
    obtain ⟨p, _, hi⟩ := atPath?_cons_iff.mp ha
    have hparent := h.parent?_atPath? hi
    rw [parent?_of_get? hn] at hparent
    have hborne := h.borne a n hn (by rw [hparent]; rfl)
    rw [NodeData.canHaveParent, Bool.and_eq_true, Bool.not_eq_true'] at hborne
    exact hborne.2

/-- two nodes below roots with one value hold the same, and so have their children one value each -/
theorem children_of_json (ht : t.WellFormed) (hu : u.WellFormed) (ha : t.atPath? path = some a)
    (hb : u.atPath? path = some b) {m n : Node} (hm : t.get? a = some m) (hn : u.get? b = some n)
    (h : t.jsonFrom (limit + 1) a = u.jsonFrom (limit' + 1) b) :
    m.data = n.data ∧ m.children.map (t.jsonFrom limit) = n.children.map (u.jsonFrom limit') := by
  rw [jsonFrom_succ hm, jsonFrom_succ hn] at h
  obtain ⟨hdata, hchildren⟩ :=
    NodeData.json_injective (ht.not_fragment ha hm) (hu.not_fragment hb hn) h
  refine ⟨hdata, ?_⟩
  cases hcan : m.data.canHaveChildren with
  | true => exact hchildren hcan
  | false =>
    -- where there is no place for children there are none
    have hnone : ∀ {v : Tree} {x : NodeId} {k : Node}, v.WellFormed → v.get? x = some k →
        k.data.canHaveChildren = false → k.children = [] := by
      intro v x k hv hk hno
      by_contra hne
      rw [hv.bears x k hk hne] at hno
      cases hno
    rw [hnone ht hm hcan, hnone hu hn (hdata ▸ hcan)]
    rfl

theorem get?_root (h : t.WellFormed) :
    ∃ n, t.get? .root = some n ∧ n.data = .document ∧ n.children = t.children .root := by
  obtain ⟨n, hn⟩ := exists_get?_of_lt h.root_lt
  have hkind := h.root
  rw [isKind_of_get? hn, Node.kind, beq_iff_eq] at hkind
  refine ⟨n, hn, ?_, (children_of_get? hn).symm⟩
  cases hd : n.data <;> rw [hd] at hkind <;> first
    | rfl
    | exact NodeKind.noConfusion hkind

/-- **Documents with one form are alike along all paths.** -/
theorem alike (ht : t.WellFormed) (hu : u.WellFormed)
    (h : (t.children .root).map (t.jsonFrom t.size) = (u.children .root).map (u.jsonFrom u.size))
    (ha : t.atPath? path = some a) (hb : u.atPath? path = some b) :
    ∃ m n, t.get? a = some m ∧ u.get? b = some n ∧ m.data = n.data ∧
      m.children.map (t.jsonFrom (t.size - path.length)) =
        n.children.map (u.jsonFrom (u.size - path.length)) := by
  induction path generalizing a b with
  | nil =>
    cases ha
    cases hb
    obtain ⟨m, hm, hmd, hmc⟩ := ht.get?_root
    obtain ⟨n, hn, hnd, hnc⟩ := hu.get?_root
    exact ⟨m, n, hm, hn, hmd.trans hnd.symm, by rw [hmc, hnc]; exact h⟩
  | cons i path ih =>
    obtain ⟨p, hp, hi⟩ := atPath?_cons_iff.mp ha
    obtain ⟨q, hq, hj⟩ := atPath?_cons_iff.mp hb
    obtain ⟨m, n, hm, hn, _, hmap⟩ := ih hp hq
    rw [children_of_get? hm] at hi
    rw [children_of_get? hn] at hj
    -- a step of the path takes one level from the limit, which is never used up
    obtain ⟨x, hx⟩ := exists_get?_of_lt (ht.atPath?_lt ha)
    obtain ⟨y, hy⟩ := exists_get?_of_lt (hu.atPath?_lt hb)
    have hlimit : t.size - path.length = t.size - (i :: path).length + 1 := by
      have := ht.length_path_lt ha
      rw [List.length_cons] at this ⊢
      omega
    have hlimit' : u.size - path.length = u.size - (i :: path).length + 1 := by
      have := hu.length_path_lt hb
      rw [List.length_cons] at this ⊢
      omega
    have hvalue : t.jsonFrom (t.size - path.length) a = u.jsonFrom (u.size - path.length) b := by
      have hget := congrArg (·[i]?) hmap
      simpa [List.getElem?_map, hi, hj] using hget
    rw [hlimit, hlimit'] at hvalue
    exact ⟨x, y, hx, hy, children_of_json ht hu ha hb hx hy hvalue⟩

end WellFormed

/-! ## paired nodes -/

/-- **Paired nodes have one form**, as soon as the limits are no less than what is below them. -/
theorem Matches.jsonFrom {R : NodeId → NodeId → Prop} (hR : t.Matches u R) (ht : t.WellFormed)
    (hu : u.WellFormed) (hab : R a b) (hlimit : t.size < limit + (t.ancestors a).length)
    (hlimit' : u.size < limit' + (u.ancestors b).length) :
    t.jsonFrom limit a = u.jsonFrom limit' b := by
  induction limit generalizing limit' a b with
  | zero =>
    obtain ⟨m, _, hm, _⟩ := hR.alike a b hab
    have := ht.length_ancestors_lt (index_lt_of_get? hm)
    omega
  | succ limit ih =>
    obtain ⟨m, n, hm, hn, hdata, _⟩ := hR.alike a b hab
    obtain ⟨limit', rfl⟩ : ∃ k, limit' = k + 1 := by
      have := hu.length_ancestors_lt (index_lt_of_get? hn)
      exact ⟨limit' - 1, by omega⟩
    have hforms : (t.children a).map (t.jsonFrom limit) =
        (u.children b).map (u.jsonFrom limit') := by
      refine hR.map_children ht hu hab fun x y hxy hx hy => ?_
      have hx := ht.length_ancestors_child hx
      have hy := hu.length_ancestors_child hy
      exact ih hxy (by omega) (by omega)
    rw [jsonFrom_succ hm, jsonFrom_succ hn, hdata, ← children_of_get? hm, ← children_of_get? hn,
      hforms]

end Tree

/-! ## every document -/

theorem Tree.json_eq_iff_children {t u : Tree} : t.json = u.json ↔ t.mode = u.mode ∧
    (t.children .root).map (t.jsonFrom t.size) = (u.children .root).map (u.jsonFrom u.size) := by
  unfold Tree.json
  constructor
  · intro h
    simp only [Value.object.injEq, List.cons.injEq, Prod.mk.injEq, Value.array.injEq,
      Value.string.injEq, true_and, and_true] at h
    exact ⟨DocumentMode.name_injective h.2, h.1⟩
  · rintro ⟨hmode, hchildren⟩
    rw [hmode, hchildren]

/-- **The JSON form of a document keeps everything but the numbers of nodes**: after any edits two
trees have one form exactly if they have the same mode and are isomorphic. -/
theorem json_eq_iff (edits edits' : List Edit) :
    let t := Tree.new.edited edits
    let u := Tree.new.edited edits'
    t.json = u.json ↔ t.mode = u.mode ∧ t.Isomorphic u := by
  intro t u
  have ht : t.WellFormed := Tree.WellFormed.new.edited edits
  have hu : u.WellFormed := Tree.WellFormed.new.edited edits'
  rw [Tree.json_eq_iff_children]
  refine and_congr_right fun _ => ⟨fun h => ?_, fun h => ?_⟩
  · refine Tree.isomorphic_of_paths ht hu fun path a b ha hb => ?_
    obtain ⟨m, n, hm, hn, hdata, hmap⟩ := ht.alike hu h ha hb
    have hlength := congrArg List.length hmap
    rw [List.length_map, List.length_map] at hlength
    exact ⟨m, n, hm, hn, hdata, hlength⟩
  · obtain ⟨R, hR⟩ := h
    have hroot : t.jsonFrom (t.size + 1) .root = u.jsonFrom (u.size + 1) .root :=
      hR.jsonFrom ht hu hR.root (by omega) (by omega)
    obtain ⟨m, hm, hmd, hmc⟩ := ht.get?_root
    obtain ⟨n, hn, hnd, hnc⟩ := hu.get?_root
    rw [Tree.jsonFrom_succ hm, Tree.jsonFrom_succ hn, hmd, hnd, hmc, hnc] at hroot
    exact (NodeData.json_injective rfl rfl hroot).2 rfl

end HtmlTree
