import HtmlTree.Proofs.Descent
import HtmlTree.Proofs.Edits
import HtmlTree.Proofs.Placement

/-!
# Well-formed trees

A tree keeps the relation of children to parents twice, as a parent in the child and as a list of
children in the parent.  No edit lets the two drift apart, gives children to a node that cannot have
any, or makes a node its own ancestor, with whatever handles it is asked for.  So nothing that is
read or changed by a stored handle is ever missing.

* `Tree.WellFormed`           the two agree, nodes are where their kind allows, there is no cycle;
* `Tree.Closed`               stored handles name nodes, walks end, positions are inside lists;
* `WellFormed.closed`         the second follows from the first;
* `WellFormed.inserted`       what an insertion keeps, also of the children of a fragment;
* `WellFormed.edited`         what any edits keep.
-/

namespace HtmlTree

/-- whether a node with this content is ever found below another: a fragment hands over its children
instead of going in itself -/
def NodeData.canHaveParent (d : NodeData) : Bool := d.canBeChild && !d.isFragment

/-! ## what the kind decides -/

namespace NodeData
variable {d d' : NodeData}

theorem canHaveChildren_congr (h : d.kind = d'.kind) : d.canHaveChildren = d'.canHaveChildren := by
  cases d <;> cases d' <;> first | rfl | cases h

theorem canHaveParent_congr (h : d.kind = d'.kind) : d.canHaveParent = d'.canHaveParent := by
  cases d <;> cases d' <;> first | rfl | cases h

end NodeData

namespace Tree

structure WellFormed (t : Tree) : Prop where
  /-- node `0` is a document -/
  root : t.isKind .document .root = true
  /-- a node is in a child list exactly if the owner of the list is its parent -/
  mem_children : ∀ c p, c ∈ t.children p ↔ t.parent? c = some p
  /-- and it is there only once -/
  nodup : ∀ p, (t.children p).Nodup
  /-- only documents, fragments, shadow roots and elements have children -/
  bears : ∀ p n, t.get? p = some n → n.children ≠ [] → n.data.canHaveChildren = true
  /-- documents, fragments, shadow roots and attributes have no parent -/
  borne : ∀ c n, t.get? c = some n → n.parent.isSome → n.data.canHaveParent = true
  acyclic : t.Acyclic

variable {t u : Tree} {parent node id c p : NodeId} {child : Option NodeId} {n : Node}

namespace WellFormed

theorem parentsKnown (h : t.WellFormed) : t.ParentsKnown := by
  intro c p hp
  obtain ⟨n, hn, _⟩ := get?_of_mem_children ((h.mem_children c p).mpr hp)
  exact index_lt_of_get? hn

theorem child_lt (h : t.WellFormed) (hc : c ∈ t.children p) : c.index < t.size :=
  index_lt_of_parent? ((h.mem_children c p).mp hc)

/-! ## the document of a new tree -/

theorem new : Tree.new.WellFormed where
  root := rfl
  mem_children := by
    rintro c ⟨_ | i⟩ <;> obtain ⟨_ | j⟩ := c <;>
      simp [Tree.new, children, parent?, get?, Node.detached]
  nodup := by
    rintro ⟨_ | i⟩ <;> exact List.nodup_nil
  bears := by
    rintro ⟨_ | i⟩ n hn hne <;> cases hn
    exact absurd rfl hne
  borne := by
    rintro ⟨_ | i⟩ n hn hp <;> cases hn
    cases hp
  acyclic := by
    intro id hid
    obtain ⟨p, hp, _⟩ := Relation.TransGen.head'_iff.mp hid
    obtain ⟨_ | i⟩ := id <;> cases hp

/-! ## edits that move nothing -/

/-- what is well formed stays so where every place is as before and every kind is, apart from new
nodes, which have no place -/
theorem of_places (h : t.WellFormed) (hp : ∀ id, u.parent? id = t.parent? id)
    (hc : ∀ id, u.children id = t.children id)
    (hk : ∀ id n, t.get? id = some n → ∃ m, u.get? id = some m ∧ m.kind = n.kind) :
    u.WellFormed where
  root := by
    have hr := h.root
    unfold isKind kind? at hr ⊢
    obtain ⟨n, hn, hkind⟩ := Option.map_eq_some_iff.mp (eq_of_beq hr)
    obtain ⟨m, hm, hmk⟩ := hk _ n hn
    rw [hm, Option.map_some, hmk, hkind]
    exact beq_self_eq_true _
  mem_children := fun c p => by rw [hc, hp]; exact h.mem_children c p
  nodup := fun p => by rw [hc]; exact h.nodup p
  bears := fun p m hm hne => by
    rw [← children_of_get? hm, hc] at hne
    obtain ⟨c, hmem⟩ := List.exists_mem_of_ne_nil _ hne
    obtain ⟨n, hn, hcn⟩ := get?_of_mem_children hmem
    obtain ⟨m', hm', hmk⟩ := hk p n hn
    rw [hm] at hm'
    cases hm'
    rw [NodeData.canHaveChildren_congr hmk]
    exact h.bears p n hn (List.ne_nil_of_mem hcn)
  borne := fun c m hm hpar => by
    rw [← parent?_of_get? hm, hp] at hpar
    obtain ⟨q, hq⟩ := Option.isSome_iff_exists.mp hpar
    obtain ⟨n, hn, hnp⟩ := get?_of_parent? hq
    obtain ⟨m', hm', hmk⟩ := hk c n hn
    rw [hm] at hm'
    cases hm'
    rw [NodeData.canHaveParent_congr hmk]
    exact h.borne c n hn (by rw [hnp]; rfl)
  acyclic := by
    have heq : u.ChildOf = t.ChildOf := by
      funext c p
      unfold ChildOf
      rw [hp]
    unfold Acyclic
    rw [heq]
    exact h.acyclic

theorem alloc (h : t.WellFormed) (d : NodeData) : (t.alloc d).2.WellFormed := by
  refine h.of_places (parent?_alloc t d) (children_alloc t d) fun id n hn => ?_
  rw [get?_alloc_of_lt t d (index_lt_of_get? hn)]
  exact ⟨n, hn, rfl⟩

theorem modifyData (h : t.WellFormed) {f : NodeData → NodeData} (hf : ∀ d, (f d).kind = d.kind) :
    (t.modifyData id f).WellFormed := by
  refine h.of_places (parent?_modifyData t id · f) (children_modifyData t id · f) ?_
  intro other n hn
  unfold Tree.modifyData
  rw [get?_modify, hn]
  split
  · exact ⟨_, rfl, hf n.data⟩
  · exact ⟨n, rfl, rfl⟩

theorem setMode (h : t.WellFormed) (mode : DocumentMode) : (t.setMode mode).WellFormed :=
  h.of_places (fun _ => rfl) (fun _ => rfl) fun _ n hn => ⟨n, hn, rfl⟩

end WellFormed

/-! ## what goes in -/

theorem contributed_single (hn : t.get? node = some n) (hf : n.data.isFragment = false) :
    t.contributed node = [node] := by
  rw [contributed_of_get? hn, hf, if_neg Bool.false_ne_true]

theorem contributed_fragment (hn : t.get? node = some n) (hf : n.data.isFragment = true) :
    t.contributed node = t.children node := by
  rw [contributed_of_get? hn, if_pos hf, children_of_get? hn]

/-- what goes in is the node, or the children of the fragment that it is -/
theorem WellFormed.mem_contributed (h : t.WellFormed) (hn : t.get? node = some n)
    (hc : c ∈ t.contributed node) :
    n.data.isFragment = false ∧ c = node ∨ n.data.isFragment = true ∧ t.parent? c = some node := by
  cases hf : n.data.isFragment with
  | false =>
    rw [contributed_single hn hf] at hc
    exact Or.inl ⟨rfl, List.mem_singleton.mp hc⟩
  | true =>
    rw [contributed_fragment hn hf] at hc
    exact Or.inr ⟨rfl, (h.mem_children c node).mp hc⟩

theorem WellFormed.nodup_contributed (h : t.WellFormed) (hn : t.get? node = some n) :
    (t.contributed node).Nodup := by
  cases hf : n.data.isFragment with
  | false =>
    rw [contributed_single hn hf]
    exact List.nodup_singleton node
  | true =>
    rw [contributed_fragment hn hf]
    exact h.nodup node

/-- all that goes in is known, may have a parent and, but for the fragment, has none -/
theorem WellFormed.contributed (h : t.WellFormed) (hn : t.get? node = some n)
    (hchild : n.data.canBeChild = true) (hc : c ∈ t.contributed node) :
    ∃ m, t.get? c = some m ∧ m.data.canHaveParent = true := by
  rcases h.mem_contributed hn hc with ⟨hf, rfl⟩ | ⟨hf, hpar⟩
  · refine ⟨n, hn, ?_⟩
    unfold NodeData.canHaveParent
    rw [hchild, hf]
    rfl
  · obtain ⟨m, hm, hp⟩ := get?_of_parent? hpar
    exact ⟨m, hm, h.borne c m hm (by rw [hp]; rfl)⟩

theorem WellFormed.contributed_known (h : t.WellFormed) (hpl : t.Placeable parent node child)
    (hc : c ∈ t.contributed node) : ∃ m, t.get? c = some m := by
  obtain ⟨n, hn, hchild⟩ := hpl.goes
  obtain ⟨m, hm, _⟩ := h.contributed hn hchild hc
  exact ⟨m, hm⟩

/-- the new parent does not descend from what goes in -/
theorem WellFormed.above (h : t.WellFormed) (hpl : t.Placeable parent node child)
    (hc : c ∈ t.contributed node) : ¬ Relation.ReflTransGen t.ChildOf parent c := by
  obtain ⟨n, hn, _⟩ := hpl.goes
  have hno : ¬ Relation.ReflTransGen t.ChildOf parent node := by
    rw [← isInclusiveAncestor_iff h.acyclic h.parentsKnown, hpl.noCycle]
    exact Bool.false_ne_true
  intro hpc
  rcases h.mem_contributed hn hc with ⟨_, rfl⟩ | ⟨_, hpar⟩
  · exact hno hpc
  · exact hno (hpc.tail hpar)

/-! ## places after an insertion -/

theorem WellFormed.parent?_inserted (h : t.WellFormed) (hpl : t.Placeable parent node child)
    (id : NodeId) : (t.inserted parent node child).parent? id =
      if id ∈ t.contributed node then some parent else t.parent? id := by
  obtain ⟨n, hn, _⟩ := hpl.goes
  unfold parent?
  rw [get?_inserted hn hpl.ne]
  split
  · rename_i hid
    obtain ⟨m, hm⟩ := h.contributed_known hpl hid
    rw [hm]
    simp
  · rename_i hid
    cases t.get? id with
    | none => rfl
    | some m => simp

theorem children_inserted (hn : t.get? node = some n) (hpl : t.Placeable parent node child)
    (id : NodeId) :
    (t.inserted parent node child).children id =
      if id = parent then insertBefore child (t.contributed node) (t.children parent)
      else if n.data.isFragment ∧ id = node then [] else t.children id := by
  unfold children
  rw [get?_inserted hn hpl.ne]
  cases hm : t.get? id with
  | none =>
    have hid : id ≠ parent := by
      rintro rfl
      obtain ⟨p, hp, _⟩ := hpl.takes
      rw [hp] at hm
      cases hm
    rw [if_neg hid]
    simp
  | some m =>
    by_cases hid : id = parent
    · rw [hid] at hm
      simp [hid, hm]
    · simp [hid]

/-- the parent is not the fragment that is emptied -/
theorem children_emptied (hpl : t.Placeable parent node child) :
    (t.emptied node).children parent = t.children parent := by
  obtain ⟨n, hn, _⟩ := hpl.goes
  rw [children_eq, children_eq, get?_emptied hn]
  cases t.get? parent with
  | none => rfl
  | some m => simp [hpl.ne.symm]

/-! ## an insertion keeps the tree well formed -/

namespace WellFormed

theorem mem_children_inserted (h : t.WellFormed) (hpl : t.Placeable parent node child)
    (hd : t.parent? node = none) (c p : NodeId) :
    c ∈ (t.inserted parent node child).children p ↔
      (t.inserted parent node child).parent? c = some p := by
  obtain ⟨n, hn, _⟩ := hpl.goes
  rw [children_inserted hn hpl, h.parent?_inserted hpl]
  by_cases hp : p = parent
  · rw [if_pos hp, mem_insertBefore, h.mem_children, hp]
    by_cases hc : c ∈ t.contributed node
    · simp [hc]
    · simp [hc]
  · rw [if_neg hp]
    by_cases hfrag : n.data.isFragment = true ∧ p = node
    · rw [if_pos hfrag]
      by_cases hc : c ∈ t.contributed node
      · simp [hc, Ne.symm hp]
      · rw [if_neg hc, ← h.mem_children, hfrag.2, ← contributed_fragment hn hfrag.1]
        simp [hc]
    · rw [if_neg hfrag, h.mem_children]
      by_cases hc : c ∈ t.contributed node
      · rw [if_pos hc]
        -- what goes in was in no other list than that of the fragment
        refine ⟨fun hcp => ?_, fun hcp => absurd (Option.some.inj hcp).symm hp⟩
        rcases h.mem_contributed hn hc with ⟨_, rfl⟩ | ⟨hf, hpar⟩
        · rw [hd] at hcp
          cases hcp
        · rw [hpar] at hcp
          cases hcp
          exact absurd ⟨hf, rfl⟩ hfrag
      · rw [if_neg hc]

theorem nodup_inserted (h : t.WellFormed) (hpl : t.Placeable parent node child)
    (hd : t.parent? node = none) (p : NodeId) :
    ((t.inserted parent node child).children p).Nodup := by
  obtain ⟨n, hn, _⟩ := hpl.goes
  rw [children_inserted hn hpl]
  split
  · rw [(perm_insertBefore child _ _).nodup_iff]
    refine List.Nodup.append (h.nodup_contributed hn) (h.nodup parent) fun c hc hmem => ?_
    have hpar := (h.mem_children c parent).mp hmem
    rcases h.mem_contributed hn hc with ⟨_, rfl⟩ | ⟨_, hnode⟩
    · rw [hd] at hpar
      cases hpar
    · rw [hnode] at hpar
      exact hpl.ne (Option.some.inj hpar)
  · split
    · exact List.nodup_nil
    · exact h.nodup p

/-- **An insertion keeps the tree well formed**, of a node and of the children of a fragment. -/
theorem inserted (h : t.WellFormed) (hpl : t.Placeable parent node child)
    (hd : t.parent? node = none) : (t.inserted parent node child).WellFormed := by
  obtain ⟨n, hn, hchild⟩ := hpl.goes
  have hget : ∀ id, (t.inserted parent node child).get? id = _ := get?_inserted hn hpl.ne
  refine ⟨?_, h.mem_children_inserted hpl hd, h.nodup_inserted hpl hd, ?_, ?_, ?_⟩
  case refine_1 =>
    have hr := h.root
    unfold isKind kind? at hr ⊢
    rw [hget, Option.map_map]
    exact hr
  case refine_2 =>
    intro p m hm hne
    rw [hget] at hm
    obtain ⟨old, hold, rfl⟩ := Option.map_eq_some_iff.mp hm
    by_cases hp : p = parent
    · obtain ⟨q, hq, hcan⟩ := hpl.takes
      rw [hp, hq] at hold
      cases hold
      exact hcan
    · refine h.bears p old hold fun hnil => hne ?_
      simp only [if_neg hp, hnil, ite_self]
  case refine_3 =>
    intro c m hm hpar
    rw [hget] at hm
    obtain ⟨old, hold, rfl⟩ := Option.map_eq_some_iff.mp hm
    by_cases hc : c ∈ t.contributed node
    · obtain ⟨m, hm, hcan⟩ := h.contributed hn hchild hc
      rw [hold] at hm
      cases hm
      exact hcan
    · simp only [if_neg hc] at hpar
      exact h.borne c old hold hpar
  case refine_4 =>
    refine h.acyclic.relink (fun c q hcq => ?_) fun c hc => h.above hpl hc
    unfold ChildOf at hcq
    rw [h.parent?_inserted hpl] at hcq
    split at hcq
    · rename_i hc
      exact Or.inr ⟨hc, (Option.some.inj hcq).symm⟩
    · exact Or.inl hcq

/-- a given child still has its position when the fragment has been emptied -/
theorem position_emptied (h : t.WellFormed) (hpl : t.Placeable parent node child) :
    (t.emptied node).position parent child = .ok (upTo child (t.children parent)).length := by
  obtain ⟨n, hn, _⟩ := hpl.goes
  have hkids := children_emptied hpl
  cases child with
  | none =>
    show Except.ok _ = _
    rw [hkids]
    rfl
  | some c =>
    have hpar := hpl.reference c rfl
    -- the parent is not the fragment, so its child is none of those that were taken away
    have hpar' : (t.emptied node).parent? c = some parent := by
      obtain ⟨m, hm, hmp⟩ := get?_of_parent? hpar
      have hnot : c ∉ n.children := fun hc => by
        have hnode := (h.mem_children c node).mp (by rw [children_of_get? hn]; exact hc)
        rw [hpar] at hnode
        exact hpl.ne (Option.some.inj hnode).symm
      unfold parent?
      rw [get?_emptied hn, hm]
      simp [hnot, hmp]
    obtain ⟨before, after, hsplit, hnot⟩ :=
      List.eq_append_cons_of_mem ((h.mem_children c parent).mpr hpar)
    have hindex : (t.emptied node).index? c = some before.length := by
      unfold index?
      rw [hpar', Option.bind_some, hkids, hsplit, idxOf?_split hnot]
    unfold position
    dsimp only
    rw [hindex, hsplit, upTo_split hnot]

/-- an insertion that is not refused -/
theorem insert_eq (h : t.WellFormed) (hpl : t.Placeable parent node child)
    (hd : t.parent? node = none) :
    t.insert parent node child = (.ok (), t.inserted parent node child) :=
  insert_eq_inserted hpl hd (h.position_emptied hpl)

theorem insert (h : t.WellFormed) (parent node : NodeId) (child : Option NodeId) :
    (t.insert parent node child).2.WellFormed := by
  cases hchk : t.checkPlace parent node child with
  | error e =>
    unfold Tree.insert
    rw [hchk]
    exact h
  | ok _ =>
    have hpl := checkPlace_eq_ok_iff.mp hchk
    cases hd : t.parent? node with
    | none =>
      rw [h.insert_eq hpl hd]
      exact h.inserted hpl hd
    | some p =>
      unfold Tree.insert
      rw [hchk, hd]
      exact h

theorem preInsert (h : t.WellFormed) (parent node : NodeId) (child : Option NodeId) :
    (t.preInsert parent node child).2.WellFormed := by
  unfold Tree.preInsert
  split
  · exact h
  · split
    · exact h
    · split
      · exact h
      · exact h.insert parent node child

/-! ## any edits -/

theorem apply (h : t.WellFormed) (edit : Edit) : (edit.apply t).WellFormed := by
  cases edit with
  | alloc d => exact h.alloc d
  | appendChild parent node => exact h.preInsert parent node none
  | preInsert parent node child => exact h.preInsert parent node child
  | insert parent node child => exact h.insert parent node child
  | editElement id f => exact h.modifyData (NodeData.kind_mapElement f)
  | editText id f => exact h.modifyData (NodeData.kind_mapCharacterData f)
  | setMode mode => exact h.setMode mode

theorem edited (h : t.WellFormed) (edits : List Edit) : (t.edited edits).WellFormed := by
  induction edits generalizing t with
  | nil => exact h
  | cons edit edits ih => exact ih (h.apply edit)

end WellFormed

/-! ## nothing is missing -/

/-- every handle that a question about `id`, or about the whole document, answers with -/
def answers (t : Tree) (id : NodeId) : List NodeId :=
  t.children id ++ t.ancestors id ++ t.followingSiblings id ++ t.precedingSiblings id
    ++ (t.parent? id).toList ++ (t.firstChild? id).toList ++ (t.lastChild? id).toList
    ++ (t.nextSibling? id).toList ++ (t.previousSibling? id).toList
    ++ t.documentElement?.toList ++ t.doctype?.toList

/-- no question and no edit reaches past the nodes of the tree -/
structure Closed (t : Tree) : Prop where
  /-- the parents and the children that nodes have are nodes -/
  parent_lt : ∀ id n, t.get? id = some n → ∀ p ∈ n.parent, p.index < t.size
  child_lt : ∀ id n, t.get? id = some n → ∀ c ∈ n.children, c.index < t.size
  /-- a walk over ancestors ends by itself, so a greater limit adds nothing -/
  walk : ∀ id limit, t.size ≤ limit → t.ancestorsUpTo limit id = t.ancestors id
  /-- the list of a node's siblings has that node at its position, where the list is cut -/
  siblings : ∀ id all i, t.siblings? id = some (all, i) → all[i]? = some id
  answers : ∀ id, ∀ x ∈ t.answers id, x.index < t.size
  /-- where an insertion passes the check of its place, all that it changes is there, and it takes
  place at a position of the child list -/
  insertion : ∀ parent node child, t.checkPlace parent node child = .ok () →
    parent.index < t.size ∧ node.index < t.size ∧ (∀ c ∈ child, c.index < t.size) ∧
      (∀ c ∈ t.contributed node, c.index < t.size) ∧
      ∃ i, (t.emptied node).position parent child = .ok i ∧
        i ≤ ((t.emptied node).children parent).length

theorem siblings?_eq_some {all : List NodeId} {i : Nat} (h : t.siblings? id = some (all, i)) :
    ∃ p, t.parent? id = some p ∧ t.children p = all ∧ all.idxOf? id = some i := by
  unfold siblings? index? at h
  cases hp : t.parent? id with
  | none =>
    rw [hp] at h
    cases h
  | some p =>
    rw [hp, Option.bind_some] at h
    cases hi : (t.children p).idxOf? id with
    | none =>
      rw [hi] at h
      cases h
    | some j =>
      rw [hi] at h
      cases h
      exact ⟨p, rfl, rfl, hi⟩

namespace WellFormed

theorem siblings_lt (h : t.WellFormed) {all : List NodeId} {i : Nat}
    (hs : t.siblings? id = some (all, i)) : ∀ x ∈ all, x.index < t.size := by
  obtain ⟨p, _, rfl, _⟩ := siblings?_eq_some hs
  exact fun x hx => h.child_lt hx

theorem following_lt (h : t.WellFormed) (id : NodeId) :
    ∀ x ∈ t.followingSiblings id, x.index < t.size := by
  unfold followingSiblings
  intro x hx
  split at hx
  · rename_i hs
    exact h.siblings_lt hs x (List.mem_of_mem_drop hx)
  · cases hx

theorem preceding_lt (h : t.WellFormed) (id : NodeId) :
    ∀ x ∈ t.precedingSiblings id, x.index < t.size := by
  unfold precedingSiblings
  intro x hx
  split at hx
  · rename_i hs
    exact h.siblings_lt hs x (List.mem_of_mem_take (List.mem_reverse.mp hx))
  · cases hx

theorem next_lt (h : t.WellFormed) (id : NodeId) : ∀ x ∈ t.nextSibling? id, x.index < t.size := by
  intro x hx
  obtain ⟨⟨all, i⟩, hs, hget⟩ := Option.bind_eq_some_iff.mp hx
  exact h.siblings_lt hs x (List.mem_of_getElem? hget)

theorem previous_lt (h : t.WellFormed) (id : NodeId) :
    ∀ x ∈ t.previousSibling? id, x.index < t.size := by
  intro x hx
  obtain ⟨⟨all, i⟩, hs, hget⟩ := Option.bind_eq_some_iff.mp hx
  split at hget
  · cases hget
  · exact h.siblings_lt hs x (List.mem_of_getElem? hget)

theorem answers_lt (h : t.WellFormed) (id : NodeId) : ∀ x ∈ t.answers id, x.index < t.size := by
  intro x hx
  simp only [answers, List.mem_append, Option.mem_toList, or_assoc] at hx
  rcases hx with hx | hx | hx | hx | hx | hx | hx | hx | hx | hx | hx
  · exact h.child_lt hx
  · -- an ancestor is a parent of the one before it
    obtain ⟨q, _, hq⟩ := Relation.TransGen.tail'_iff.mp (transGen_of_mem_ancestorsUpTo hx)
    exact h.parentsKnown q x hq
  · exact h.following_lt id x hx
  · exact h.preceding_lt id x hx
  · exact h.parentsKnown id x hx
  · exact h.child_lt (List.mem_of_mem_head? hx)
  · exact h.child_lt (List.mem_of_mem_getLast? hx)
  · exact h.next_lt id x hx
  · exact h.previous_lt id x hx
  · exact h.child_lt (List.mem_of_find?_eq_some hx)
  · exact h.child_lt (List.mem_of_find?_eq_some hx)

/-- **In a well-formed tree nothing that is asked for or changed is missing.** -/
theorem closed (h : t.WellFormed) : t.Closed where
  parent_lt := fun id n hn p hp => h.parentsKnown id p (by rw [parent?_of_get? hn]; exact hp)
  child_lt := fun id n hn c hc => h.child_lt (by rw [children_of_get? hn]; exact hc)
  walk := fun id limit hle => ancestorsUpTo_eq h.acyclic h.parentsKnown hle
  siblings := fun id all i hs => by
    obtain ⟨_, _, _, hi⟩ := siblings?_eq_some hs
    obtain ⟨hlt, hget, _⟩ := List.idxOf?_eq_some_iff.mp hi
    rw [List.getElem?_eq_getElem hlt, hget]
  answers := h.answers_lt
  insertion := fun parent node child hchk => by
    have hpl := checkPlace_eq_ok_iff.mp hchk
    obtain ⟨p, hp, _⟩ := hpl.takes
    obtain ⟨n, hn, _⟩ := hpl.goes
    refine ⟨index_lt_of_get? hp, index_lt_of_get? hn, fun c hc => ?_, fun c hc => ?_, ?_⟩
    · exact index_lt_of_parent? (hpl.reference c hc)
    · obtain ⟨m, hm⟩ := h.contributed_known hpl hc
      exact index_lt_of_get? hm
    · refine ⟨_, h.position_emptied hpl, ?_⟩
      rw [children_emptied hpl]
      conv => rhs; rw [← upTo_append_onFrom child (t.children parent)]
      rw [List.length_append]
      exact Nat.le_add_right _ _

end WellFormed

end Tree

end HtmlTree
