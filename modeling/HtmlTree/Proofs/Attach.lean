import HtmlTree.Dom.Insertion
import Mathlib.Data.List.Basic

/-!
# A new node at the end of a child list

A document under construction grows in one way only: a node is made and becomes the last child of a
node that is there already.  `Tree.attach` is the tree after it.

* `Tree.Grown`            what such growth keeps: the document is node `0`, nodes come after their
                          parents, so no chain of ancestors can close;
* `Tree.Accepts`          the places where a node of this kind is never refused;
* `appendChild_alloc`     there a new node is inserted, and the tree is `attach`.
-/

namespace HtmlTree

theorem NodeId.ext_index {a b : NodeId} (h : a.index = b.index) : a = b := by
  cases a; cases b; cases h; rfl

/-- content that an element may have: no doctype, and nothing that is not itself inserted -/
def NodeData.isContent : NodeData → Bool
  | .element _ => true
  | .text _ => true
  | .comment _ => true
  | _ => false

namespace Tree

/-! ## trees by their nodes -/

theorem ext_get? {t u : Tree} (hm : t.mode = u.mode) (h : ∀ id, t.get? id = u.get? id) : t = u := by
  obtain ⟨ns, m⟩ := t
  obtain ⟨ns', m'⟩ := u
  cases hm
  have hn : ns = ns' := Array.ext_getElem? fun i => h ⟨i⟩
  rw [hn]

theorem get?_eq_none_iff {t : Tree} {id : NodeId} : t.get? id = none ↔ t.size ≤ id.index := by
  simp [get?, size]

theorem index_lt_of_get? {t : Tree} {id : NodeId} {n : Node} (h : t.get? id = some n) :
    id.index < t.size := by
  by_contra hlt
  rw [get?_eq_none_iff.mpr (Nat.le_of_not_lt hlt)] at h
  cases h

theorem exists_get?_of_lt {t : Tree} {id : NodeId} (h : id.index < t.size) :
    ∃ n, t.get? id = some n := by
  cases hn : t.get? id with
  | none => exact absurd (get?_eq_none_iff.mp hn) (by omega)
  | some n => exact ⟨n, rfl⟩

theorem get?_alloc (t : Tree) (d : NodeData) (id : NodeId) :
    (t.alloc d).2.get? id = if id.index = t.size then some (.detached d) else t.get? id := by
  split
  · rename_i h
    have hid : id = (t.alloc d).1 := NodeId.ext_index h
    rw [hid, get?_alloc_self]
  · rename_i h
    rcases Nat.lt_or_ge id.index t.size with hlt | hge
    · exact get?_alloc_of_lt t d hlt
    · have hs := size_alloc t d
      rw [get?_eq_none_iff.mpr hge, get?_eq_none_iff]
      omega

theorem get?_modify (t : Tree) (id other : NodeId) (f : Node → Node) :
    (t.modify id f).get? other = if other = id then (t.get? other).map f else t.get? other := by
  split
  · rename_i h
    rw [h, get?_modify_self]
  · rename_i h
    exact get?_modify_ne t f h

theorem parent?_of_get? {t : Tree} {id : NodeId} {n : Node} (h : t.get? id = some n) :
    t.parent? id = n.parent := by
  unfold parent?
  rw [h]
  rfl

theorem children_of_get? {t : Tree} {id : NodeId} {n : Node} (h : t.get? id = some n) :
    t.children id = n.children := by
  unfold children
  rw [h]

theorem get?_of_parent? {t : Tree} {c p : NodeId} (h : t.parent? c = some p) :
    ∃ n, t.get? c = some n ∧ n.parent = some p :=
  Option.bind_eq_some_iff.mp h

theorem get?_of_mem_children {t : Tree} {c p : NodeId} (h : c ∈ t.children p) :
    ∃ n, t.get? p = some n ∧ c ∈ n.children := by
  cases hn : t.get? p with
  | none =>
    unfold children at h
    rw [hn] at h
    cases h
  | some n =>
    rw [children_of_get? hn] at h
    exact ⟨n, rfl, h⟩

theorem isKind_of_get? {t : Tree} {id : NodeId} {n : Node} {kind : NodeKind}
    (h : t.get? id = some n) : t.isKind kind id = (n.kind == kind) := by
  unfold isKind kind?
  rw [h]
  rfl

theorem children_eq (t : Tree) (id : NodeId) :
    t.children id = ((t.get? id).map (·.children)).getD [] := by
  unfold children
  cases t.get? id <;> rfl

theorem children_of_le {t : Tree} {id : NodeId} (h : t.size ≤ id.index) : t.children id = [] := by
  rw [children_eq, get?_eq_none_iff.mpr h]
  rfl

theorem children_alloc (t : Tree) (d : NodeData) (id : NodeId) :
    (t.alloc d).2.children id = t.children id := by
  rw [children_eq, children_eq, get?_alloc]
  split
  · rw [get?_eq_none_iff.mpr (by omega)]
    rfl
  · rfl

theorem children_modifyData (t : Tree) (id other : NodeId) (f : NodeData → NodeData) :
    (t.modifyData id f).children other = t.children other := by
  unfold modifyData
  rw [children_eq, children_eq, get?_modify]
  split <;> cases t.get? other <;> rfl

/-! ## attaching -/

/-- the tree with a new node as the last child of `parent` -/
def attach (t : Tree) (parent : NodeId) (data : NodeData) : Tree :=
  let grown := t.modify parent fun n => { n with children := n.children ++ [⟨t.size⟩] }
  { grown with nodes := grown.nodes.push ⟨data, some parent, []⟩ }

variable {t : Tree} {parent id : NodeId} {d : NodeData}

theorem size_attach (t : Tree) (parent : NodeId) (d : NodeData) :
    (t.attach parent d).size = t.size + 1 := by
  simp [attach, size, modify]

theorem get?_attach (t : Tree) (parent : NodeId) (d : NodeData) (id : NodeId) :
    (t.attach parent d).get? id =
      if id.index = t.size then some ⟨d, some parent, []⟩
      else if id = parent then
        (t.get? id).map fun n => { n with children := n.children ++ [⟨t.size⟩] }
      else t.get? id := by
  have hs : (t.modify parent fun n => { n with children := n.children ++ [⟨t.size⟩] }).nodes.size
      = t.size := by simp [modify, size]
  rw [← get?_modify]
  unfold attach get?
  dsimp only
  rw [Array.getElem?_push, hs]

theorem get?_attach_new (t : Tree) (parent : NodeId) (d : NodeData) :
    (t.attach parent d).get? ⟨t.size⟩ = some ⟨d, some parent, []⟩ := by
  rw [get?_attach, if_pos rfl]

/-- a node that was there before keeps its content and its parent -/
theorem get?_attach_old (h : id.index < t.size) :
    (t.attach parent d).get? id =
      (t.get? id).map fun n =>
        { n with children := if id = parent then n.children ++ [⟨t.size⟩] else n.children } := by
  rw [get?_attach, if_neg (by omega)]
  split
  · rfl
  · cases t.get? id <;> rfl

theorem parent?_attach (h : id.index < t.size) :
    (t.attach parent d).parent? id = t.parent? id := by
  unfold parent?
  rw [get?_attach_old h]
  cases t.get? id <;> rfl

theorem parent?_attach_new (t : Tree) (parent : NodeId) (d : NodeData) :
    (t.attach parent d).parent? ⟨t.size⟩ = some parent := by
  unfold parent?
  rw [get?_attach_new]
  rfl

theorem element?_attach_new (t : Tree) (parent : NodeId) (d : NodeData) :
    (t.attach parent d).element? ⟨t.size⟩ = d.element? := by
  unfold element?
  rw [get?_attach_new]
  rfl

/-! ## grown trees -/

structure Grown (t : Tree) : Prop where
  /-- the document is there and has no parent -/
  root : ∃ children, t.get? .root = some ⟨.document, none, children⟩
  /-- a node comes after its parent -/
  parent_lt : ∀ id p, t.parent? id = some p → p.index < id.index
  /-- a child knows its parent -/
  parent_child : ∀ id n c, t.get? id = some n → c ∈ n.children → t.parent? c = some id

theorem index_lt_of_parent? {p : NodeId} (h : t.parent? id = some p) : id.index < t.size := by
  obtain ⟨n, hn, _⟩ := Option.bind_eq_some_iff.mp h
  exact index_lt_of_get? hn

theorem grown_new : new.Grown where
  root := ⟨[], rfl⟩
  parent_lt := fun id p hp => by
    obtain ⟨_ | i⟩ := id <;> cases hp
  parent_child := fun id n c hn hc => by
    obtain ⟨_ | i⟩ := id <;> cases hn
    cases hc

theorem Grown.root_lt (h : t.Grown) : NodeId.root.index < t.size := by
  obtain ⟨_, hr⟩ := h.root
  exact index_lt_of_get? hr

theorem Grown.attach (h : t.Grown) (hp : parent.index < t.size) : (t.attach parent d).Grown where
  root := by
    obtain ⟨_, hr⟩ := h.root
    rw [get?_attach_old h.root_lt, hr]
    exact ⟨_, rfl⟩
  parent_lt := fun id p hpar => by
    have hlt := index_lt_of_parent? hpar
    rw [size_attach] at hlt
    by_cases hi : id.index = t.size
    · rw [show id = ⟨t.size⟩ from NodeId.ext_index hi, parent?_attach_new] at hpar
      cases hpar
      omega
    · rw [parent?_attach (by omega)] at hpar
      exact h.parent_lt id p hpar
  parent_child := fun id n c hn hc => by
    rw [get?_attach] at hn
    split at hn
    · cases hn
      cases hc
    · split at hn
      · rename_i hid
        subst hid
        obtain ⟨m, hm, rfl⟩ := Option.map_eq_some_iff.mp hn
        rcases List.mem_append.mp hc with hc | hc
        · have hpar := h.parent_child id m c hm hc
          rw [parent?_attach (index_lt_of_parent? hpar), hpar]
        · rw [List.mem_singleton.mp hc, parent?_attach_new]
      · have hpar := h.parent_child id n c hn hc
        rw [parent?_attach (index_lt_of_parent? hpar), hpar]

theorem parent?_modifyData (t : Tree) (id other : NodeId) (f : NodeData → NodeData) :
    (t.modifyData id f).parent? other = t.parent? other := by
  unfold parent? modifyData
  rw [get?_modify]
  split <;> cases t.get? other <;> rfl

/-- a change to what a node holds leaves every place alone -/
theorem Grown.modifyData (h : t.Grown) {f : NodeData → NodeData} (hf : f .document = .document) :
    (t.modifyData id f).Grown where
  root := by
    obtain ⟨cs, hr⟩ := h.root
    unfold Tree.modifyData
    rw [get?_modify, hr]
    split
    · exact ⟨cs, by rw [Option.map_some, hf]⟩
    · exact ⟨cs, rfl⟩
  parent_lt := fun other p hpar => by
    rw [parent?_modifyData] at hpar
    exact h.parent_lt other p hpar
  parent_child := fun other n c hn hc => by
    rw [parent?_modifyData]
    unfold Tree.modifyData at hn
    rw [get?_modify] at hn
    split at hn
    · obtain ⟨m, hm, rfl⟩ := Option.map_eq_some_iff.mp hn
      exact h.parent_child other m c hm hc
    · exact h.parent_child other n c hn hc

theorem Grown.setMode (h : t.Grown) (m : DocumentMode) : (t.setMode m).Grown :=
  ⟨h.root, h.parent_lt, h.parent_child⟩

/-! ## ancestors -/

/-- where nodes come after their parents, every ancestor is older -/
theorem index_lt_of_mem_ancestorsUpTo (h : ∀ id p, t.parent? id = some p → p.index < id.index)
    {a : NodeId} :
    ∀ {limit : Nat} {id : NodeId}, a ∈ t.ancestorsUpTo limit id → a.index < id.index := by
  intro limit
  induction limit with
  | zero =>
    intro id ha
    cases ha
  | succ limit ih =>
    intro id ha
    unfold ancestorsUpTo at ha
    split at ha
    · cases ha
    · rename_i p hp
      have hlt := h id p hp
      rcases List.mem_cons.mp ha with rfl | ha
      · exact hlt
      · exact Nat.lt_trans (ih ha) hlt

theorem parent?_alloc (t : Tree) (d : NodeData) (id : NodeId) :
    (t.alloc d).2.parent? id = t.parent? id := by
  unfold parent?
  rw [get?_alloc]
  split
  · rename_i h
    rw [get?_eq_none_iff.mpr (by omega)]
    rfl
  · rfl

/-- a new node is no ancestor of an older one -/
theorem isInclusiveAncestor_alloc (hg : t.Grown) (hp : parent.index < t.size) :
    (t.alloc d).2.isInclusiveAncestor ⟨t.size⟩ parent = false := by
  have hlt : ∀ id p, (t.alloc d).2.parent? id = some p → p.index < id.index := by
    intro id p hpar
    rw [parent?_alloc] at hpar
    exact hg.parent_lt id p hpar
  have hne : (⟨t.size⟩ : NodeId) ≠ parent := fun h => by
    rw [← h] at hp
    exact Nat.lt_irrefl _ hp
  have hnot : (⟨t.size⟩ : NodeId) ∉ (t.alloc d).2.ancestors parent := fun h => by
    have h' := index_lt_of_mem_ancestorsUpTo hlt h
    exact absurd hp (Nat.not_lt.mpr (Nat.le_of_lt h'))
  unfold isInclusiveAncestor
  rw [beq_false_of_ne hne, List.contains_eq_mem, decide_eq_false hnot]
  rfl

/-! ## acceptance -/

/-- what the document still has room for -/
def RootAccepts (t : Tree) : NodeData → Prop
  | .comment _ => True
  | .element _ => t.anyOfKind .element (t.children .root) = false
  | .documentType _ =>
    t.anyOfKind .documentType (t.children .root) = false ∧
      t.anyOfKind .element (t.children .root) = false
  | _ => False

/-- a place at which a new node with this content is never refused -/
def Accepts (t : Tree) (parent : NodeId) (d : NodeData) : Prop :=
  (t.element? parent).isSome ∧ d.isContent ∨ parent = .root ∧ t.RootAccepts d

theorem exists_of_element? {e : Element} (h : t.element? id = some e) :
    ∃ n, t.get? id = some n ∧ n.data = .element e := by
  obtain ⟨n, hn, he⟩ := Option.bind_eq_some_iff.mp h
  refine ⟨n, hn, ?_⟩
  cases hd : n.data <;> rw [hd] at he <;> cases he
  rfl

theorem index_lt_of_element? {e : Element} (h : t.element? id = some e) : id.index < t.size := by
  obtain ⟨n, hn, _⟩ := exists_of_element? h
  exact index_lt_of_get? hn

/-- what an accepting place and its new child have in common, whatever they are -/
theorem Accepts.facts (hg : t.Grown) (h : t.Accepts parent d) :
    ∃ n, t.get? parent = some n ∧ n.data.canHaveChildren ∧ d.canBeChild ∧ d.isFragment = false := by
  rcases h with ⟨he, hd⟩ | ⟨rfl, hd⟩
  · obtain ⟨e, he⟩ := Option.isSome_iff_exists.mp he
    obtain ⟨n, hn, hdata⟩ := exists_of_element? he
    refine ⟨n, hn, by rw [hdata]; rfl, ?_, ?_⟩ <;> cases d <;> first | rfl | cases hd
  · obtain ⟨cs, hr⟩ := hg.root
    refine ⟨_, hr, rfl, ?_, ?_⟩ <;> cases d <;> first | rfl | exact hd.elim

/-! ## no refusal -/

theorem node_eq_ok {n : Node} (h : t.get? id = some n) : t.node id = .ok n := by
  unfold node
  rw [h]

/-- the general rules of insertion, for a new node at the end -/
theorem checkPlace_alloc (hg : t.Grown) (h : t.Accepts parent d) :
    (t.alloc d).2.checkPlace parent ⟨t.size⟩ none = .ok () := by
  obtain ⟨n, hn, hcan, hchild, _⟩ := h.facts hg
  have hlt := index_lt_of_get? hn
  have hp : (t.alloc d).2.node parent = .ok n := node_eq_ok (by rw [get?_alloc_of_lt t d hlt, hn])
  have hnew : (t.alloc d).2.node ⟨t.size⟩ = .ok (.detached d) := node_eq_ok (get?_alloc_self t d)
  unfold checkPlace
  rw [hp, hnew]
  show (if !n.data.canHaveChildren then _ else _) = _
  rw [hcan, isInclusiveAncestor_alloc hg hlt]
  show (if d.canBeChild then _ else _) = _
  rw [if_pos hchild]

theorem anyOfKind_alloc {kind : NodeKind} (hg : t.Grown) :
    (t.alloc d).2.anyOfKind kind ((t.alloc d).2.children .root)
      = t.anyOfKind kind (t.children .root) := by
  obtain ⟨cs, hr⟩ := hg.root
  have hc : (t.alloc d).2.children .root = t.children .root := by
    unfold children
    rw [get?_alloc_of_lt t d hg.root_lt]
  have hcs : t.children .root = cs := by
    unfold children
    rw [hr]
  have hk : ∀ c ∈ cs, (t.alloc d).2.isKind kind c = t.isKind kind c := by
    intro c hmem
    have hlt := index_lt_of_parent? (hg.parent_child .root _ c hr hmem)
    unfold isKind kind?
    rw [get?_alloc_of_lt t d hlt]
  rw [hc, hcs]
  unfold anyOfKind
  rw [Bool.eq_iff_iff, List.any_eq_true, List.any_eq_true]
  exact exists_congr fun c => and_congr_right fun hmem => by rw [hk c hmem]

/-- the rules of documents and doctypes, for a new node at the end -/
theorem hierarchyFault?_alloc (hg : t.Grown) (h : t.Accepts parent d) :
    (t.alloc d).2.hierarchyFault? parent ⟨t.size⟩ none = none := by
  have hnew := get?_alloc_self t d
  rcases h with ⟨he, hd⟩ | ⟨rfl, hd⟩
  · obtain ⟨e, he⟩ := Option.isSome_iff_exists.mp he
    obtain ⟨n, hn, hdata⟩ := exists_of_element? he
    have hp : (t.alloc d).2.get? parent = some n := by
      rw [get?_alloc_of_lt t d (index_lt_of_get? hn), hn]
    unfold hierarchyFault?
    rw [hp, show (t.alloc d).2.get? ⟨t.size⟩ = _ from hnew]
    dsimp only
    rw [if_neg (by rw [hdata]; exact NodeData.noConfusion), if_neg]
    cases d <;> first | exact NodeKind.noConfusion | cases hd
  · obtain ⟨cs, hr⟩ := hg.root
    have hp : (t.alloc d).2.get? .root = some ⟨.document, none, cs⟩ := by
      rw [get?_alloc_of_lt t d hg.root_lt, hr]
    unfold hierarchyFault?
    rw [hp, show (t.alloc d).2.get? ⟨t.size⟩ = _ from hnew]
    show (t.alloc d).2.documentFault? .root ⟨t.size⟩ none d = none
    cases d with
    | comment data => rfl
    | element e =>
      unfold documentFault?
      dsimp only
      rw [anyOfKind_alloc hg, show t.anyOfKind .element (t.children .root) = false from hd]
      rfl
    | documentType dt =>
      unfold documentFault? elementBefore
      dsimp only
      rw [anyOfKind_alloc hg, anyOfKind_alloc hg, hd.1, hd.2]
      rfl
    | _ => exact hd.elim

/-- **Where a new node is accepted it becomes the last child**, and nothing else changes. -/
theorem appendChild_alloc (hg : t.Grown) (h : t.Accepts parent d) :
    (t.alloc d).2.appendChild parent ⟨t.size⟩ = (.ok ⟨t.size⟩, t.attach parent d) := by
  obtain ⟨n, hn, _, _, hfrag⟩ := h.facts hg
  have hlt := index_lt_of_get? hn
  have hnew : (t.alloc d).2.get? ⟨t.size⟩ = some (.detached d) := get?_alloc_self t d
  have hpar : (t.alloc d).2.parent? ⟨t.size⟩ = none := by
    unfold parent?
    rw [hnew]
    rfl
  have hcon : (t.alloc d).2.contributed ⟨t.size⟩ = [⟨t.size⟩] := by
    unfold contributed
    rw [hnew]
    show (if d.isFragment then _ else _) = _
    rw [hfrag]
    rfl
  have hemp : (t.alloc d).2.emptied ⟨t.size⟩ = (t.alloc d).2 := by
    unfold emptied
    rw [hnew]
    show (if d.isFragment then _ else _) = _
    rw [hfrag]
    rfl
  have hins : (t.alloc d).2.insert parent ⟨t.size⟩ none
      = (.ok (),
          (t.alloc d).2.splice parent ((t.alloc d).2.children parent).length [⟨t.size⟩]) := by
    unfold insert
    rw [checkPlace_alloc hg h, hpar, hcon, hemp]
    rfl
  unfold appendChild preInsert
  rw [checkPlace_alloc hg h, hierarchyFault?_alloc hg h, hins]
  have hsplice : (t.alloc d).2.splice parent ((t.alloc d).2.children parent).length [⟨t.size⟩]
      = t.attach parent d := by
    refine ext_get? rfl fun id => ?_
    have hcs : (t.alloc d).2.children parent = n.children := by
      unfold children
      rw [get?_alloc_of_lt t d hlt, hn]
    have hne : parent ≠ ⟨t.size⟩ := fun e => by
      rw [e] at hlt
      exact Nat.lt_irrefl _ hlt
    rw [hcs, get?_attach]
    unfold splice setParents
    rw [List.foldl_cons, List.foldl_nil, get?_modify, get?_modify, get?_alloc]
    by_cases hid : id = ⟨t.size⟩
    · rw [hid, if_pos rfl, if_neg hne.symm, if_pos rfl, if_pos rfl]
      rfl
    · have hix : id.index ≠ t.size := fun e => hid (NodeId.ext_index e)
      rw [if_neg hid, if_neg hix, if_neg hix]
      by_cases hidp : id = parent
      · rw [hidp, if_pos rfl, if_pos rfl, hn, Option.map_some, Option.map_some,
          List.take_length, List.drop_length, List.append_nil]
      · rw [if_neg hidp, if_neg hidp]
  rw [hsplice]
  rfl

end Tree

end HtmlTree
