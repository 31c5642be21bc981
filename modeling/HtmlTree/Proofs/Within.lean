import HtmlTree.OpenElements
import HtmlTree.Proofs.Attach

/-!
# A tree within a later one

Construction never takes a node back.  `Tree.Within t u` says what is left of a tree `t` in a later
tree `u`: every node, with its parent, its kind and, for an element, its namespace and name.

* `Tree.label?`           namespace and name of an element, on which all questions about it rest;
* `Within.refl`, `trans`  the order of growth;
* `within_attach`, `within_appendNew`, `within_modifyData`, `within_setMode`   the ways to grow.
-/

namespace HtmlTree

/-- namespace and name of an element -/
def NodeData.label? (d : NodeData) : Option (Namespace × String) :=
  d.element?.map fun e => (e.ns, e.localName)

namespace Tree

/-! ## labels -/

def label? (t : Tree) (id : NodeId) : Option (Namespace × String) :=
  (t.element? id).map fun e => (e.ns, e.localName)

variable {t u v : Tree} {id : NodeId}

theorem label?_eq (t : Tree) (id : NodeId) : t.label? id = (t.get? id).bind (·.data.label?) := by
  unfold label? element? NodeData.label?
  cases t.get? id <;> rfl

theorem isHtml_iff {name : String} :
    t.isHtml name id = true ↔ t.label? id = some (.html, name) := by
  unfold isHtml elementSatisfies Element.isHtml label?
  cases t.element? id <;> simp

theorem isHtmlOneOf_iff {names : List String} :
    t.isHtmlOneOf names id = true ↔ ∃ name ∈ names, t.label? id = some (.html, name) := by
  unfold isHtmlOneOf elementSatisfies Element.isHtmlOneOf label?
  cases t.element? id with
  | none => simp
  | some e =>
    constructor
    · intro h
      simp only [Option.any_some, Bool.and_eq_true, beq_iff_eq, List.contains_eq_mem,
        decide_eq_true_eq] at h
      exact ⟨e.localName, h.2, by simp [h.1]⟩
    · rintro ⟨name, hn, he⟩
      simp only [Option.map_some, Option.some.injEq, Prod.mk.injEq] at he
      simp [he.1, he.2, hn]

theorem isHtmlOneOf_singleton (t : Tree) (name : String) :
    t.isHtmlOneOf [name] = t.isHtml name := by
  funext id
  rw [Bool.eq_iff_iff, isHtmlOneOf_iff, isHtml_iff]
  simp

theorem isHtml_congr (h : u.label? id = t.label? id) (name : String) :
    u.isHtml name id = t.isHtml name id := by
  rw [Bool.eq_iff_iff, isHtml_iff, isHtml_iff, h]

theorem isHtmlOneOf_congr (h : u.label? id = t.label? id) (names : List String) :
    u.isHtmlOneOf names id = t.isHtmlOneOf names id := by
  rw [Bool.eq_iff_iff, isHtmlOneOf_iff, isHtmlOneOf_iff, h]

theorem isHtmlOneOf_of_isHtml {name : String} {names : List String} (h : t.isHtml name id = true)
    (hn : name ∈ names) : t.isHtmlOneOf names id = true :=
  isHtmlOneOf_iff.mpr ⟨name, hn, isHtml_iff.mp h⟩

/-- an element has one name, so it has none of some others -/
theorem isHtmlOneOf_eq_false {name : String} {names : List String} (h : t.isHtml name id = true)
    (hn : name ∉ names) : t.isHtmlOneOf names id = false := by
  rw [Bool.eq_false_iff]
  intro h'
  obtain ⟨other, ho, hl⟩ := isHtmlOneOf_iff.mp h'
  rw [isHtml_iff.mp h] at hl
  cases hl
  exact hn ho

/-! ## growth -/

/-- every node of `t` is in `u`, in the same place and under the same name -/
def Within (t u : Tree) : Prop :=
  ∀ id n, t.get? id = some n → ∃ m, u.get? id = some m ∧
    m.parent = n.parent ∧ m.kind = n.kind ∧ m.data.label? = n.data.label?

theorem Within.refl (t : Tree) : t.Within t := fun _ n hn => ⟨n, hn, rfl, rfl, rfl⟩

theorem Within.trans (h : t.Within u) (h' : u.Within v) : t.Within v := fun id n hn => by
  obtain ⟨m, hm, hp, hk, hl⟩ := h id n hn
  obtain ⟨m', hm', hp', hk', hl'⟩ := h' id m hm
  exact ⟨m', hm', hp'.trans hp, hk'.trans hk, hl'.trans hl⟩

theorem Within.size_le (h : t.Within u) : t.size ≤ u.size := by
  by_contra hlt
  have hindex : NodeId.index ⟨u.size⟩ < t.size := Nat.lt_of_not_le hlt
  obtain ⟨n, hn⟩ := exists_get?_of_lt hindex
  obtain ⟨m, hm, _⟩ := h _ n hn
  exact Nat.lt_irrefl _ (index_lt_of_get? hm)

theorem Within.label? (h : t.Within u) (hid : id.index < t.size) : u.label? id = t.label? id := by
  obtain ⟨n, hn⟩ := exists_get?_of_lt hid
  obtain ⟨m, hm, _, _, hl⟩ := h id n hn
  rw [label?_eq, label?_eq, hm, hn]
  exact hl

theorem Within.isHtml (h : t.Within u) {name : String} (hid : t.isHtml name id = true) :
    u.isHtml name id = true := by
  have hl := isHtml_iff.mp hid
  obtain ⟨e, he, _⟩ := Option.map_eq_some_iff.mp hl
  rw [isHtml_congr (h.label? (index_lt_of_element? he)) name, hid]

theorem within_attach (t : Tree) (parent : NodeId) (d : NodeData) : t.Within (t.attach parent d) :=
  fun id n hn => by
    rw [get?_attach_old (index_lt_of_get? hn), hn]
    exact ⟨_, rfl, rfl, rfl, rfl⟩

theorem within_alloc (t : Tree) (d : NodeData) : t.Within (t.alloc d).2 := fun id n hn => by
  rw [get?_alloc_of_lt t d (index_lt_of_get? hn), hn]
  exact ⟨n, rfl, rfl, rfl, rfl⟩

theorem within_setMode (t : Tree) (m : DocumentMode) : t.Within (t.setMode m) :=
  fun _ n hn => ⟨n, hn, rfl, rfl, rfl⟩

theorem within_modifyData (t : Tree) (target : NodeId) {f : NodeData → NodeData}
    (hk : ∀ d, (f d).kind = d.kind) (hl : ∀ d, (f d).label? = d.label?) :
    t.Within (t.modifyData target f) := fun id n hn => by
  unfold modifyData
  rw [get?_modify, hn]
  split
  · exact ⟨_, rfl, rfl, hk n.data, hl n.data⟩
  · exact ⟨n, rfl, rfl, rfl, rfl⟩

/-- a change of a child list keeps every node in its place -/
theorem within_modify_children (t : Tree) (target : NodeId) (f : List NodeId → List NodeId) :
    t.Within (t.modify target fun n => { n with children := f n.children }) := fun id n hn => by
  rw [get?_modify, hn]
  split
  · exact ⟨_, rfl, rfl, rfl, rfl⟩
  · exact ⟨n, rfl, rfl, rfl, rfl⟩

/-- a new node is put among the children of `parent`, or refused -/
theorem appendNew_cases (t : Tree) (parent : NodeId) {d : NodeData} (hd : d.isFragment = false) :
    ((t.alloc d).2.appendChild parent ⟨t.size⟩).2 = (t.alloc d).2 ∨
      ∃ i, ((t.alloc d).2.appendChild parent ⟨t.size⟩).2 =
        (t.alloc d).2.splice parent i [⟨t.size⟩] := by
  have hnew : (t.alloc d).2.get? ⟨t.size⟩ = some (.detached d) := get?_alloc_self t d
  have hcon : (t.alloc d).2.contributed ⟨t.size⟩ = [⟨t.size⟩] := by
    unfold contributed
    rw [hnew]
    show (if d.isFragment then _ else _) = _
    rw [hd]
    rfl
  have hemp : (t.alloc d).2.emptied ⟨t.size⟩ = (t.alloc d).2 := by
    unfold emptied
    rw [hnew]
    show (if d.isFragment then _ else _) = _
    rw [hd]
    rfl
  have hins : ((t.alloc d).2.insert parent ⟨t.size⟩ none).2 = (t.alloc d).2 ∨
      ∃ i, ((t.alloc d).2.insert parent ⟨t.size⟩ none).2 =
        (t.alloc d).2.splice parent i [⟨t.size⟩] := by
    unfold insert
    rw [hcon, hemp]
    split
    · exact Or.inl rfl
    · split
      · exact Or.inl rfl
      · exact Or.inr ⟨_, rfl⟩
  unfold appendChild preInsert
  split
  · exact Or.inl rfl
  · split
    · exact Or.inl rfl
    · rw [if_neg (by simp)]
      exact hins

theorem size_appendNew (t : Tree) (parent : NodeId) {d : NodeData} (hd : d.isFragment = false) :
    ((t.alloc d).2.appendChild parent ⟨t.size⟩).2.size = t.size + 1 := by
  rcases t.appendNew_cases parent hd with h | ⟨i, h⟩ <;> rw [h]
  · exact size_alloc t d
  · unfold splice setParents
    rw [List.foldl_cons, List.foldl_nil, size_modify, size_modify, size_alloc]

/-- only the new node itself is given a parent, whether or not it is accepted -/
theorem within_appendNew (t : Tree) (parent : NodeId) {d : NodeData} (hd : d.isFragment = false) :
    t.Within ((t.alloc d).2.appendChild parent ⟨t.size⟩).2 := by
  rcases t.appendNew_cases parent hd with h | ⟨i, h⟩ <;> rw [h]
  · exact within_alloc t d
  · have hw := (within_alloc t d).trans
      (within_modify_children _ parent fun cs => cs.take i ++ [⟨t.size⟩] ++ cs.drop i)
    intro id n hn
    have hne : id ≠ ⟨t.size⟩ := fun e => by
      have hlt := index_lt_of_get? hn
      rw [e] at hlt
      exact Nat.lt_irrefl _ hlt
    unfold splice setParents
    rw [List.foldl_cons, List.foldl_nil, get?_modify_ne _ _ hne]
    exact hw id n hn

/-- nodes that are moved keep what they hold -/
theorem label?_modify (t : Tree) (target id : NodeId) {f : Node → Node}
    (hf : ∀ n, (f n).data = n.data) : (t.modify target f).label? id = t.label? id := by
  rw [label?_eq, label?_eq, get?_modify]
  split
  · cases t.get? id with
    | none => rfl
    | some n => exact congrArg NodeData.label? (hf n)
  · rfl

/-- whether or not it is accepted, the new node is the only one with a new label -/
theorem label?_appendNew (t : Tree) (parent id : NodeId) {d : NodeData}
    (hd : d.isFragment = false) :
    ((t.alloc d).2.appendChild parent ⟨t.size⟩).2.label? id =
      if id.index = t.size then d.label? else t.label? id := by
  have halloc : (t.alloc d).2.label? id = if id.index = t.size then d.label? else t.label? id := by
    rw [label?_eq, get?_alloc]
    split
    · rfl
    · exact (label?_eq t id).symm
  rw [← halloc]
  rcases t.appendNew_cases parent hd with h | ⟨i, h⟩ <;> rw [h]
  unfold splice setParents
  rw [List.foldl_cons, List.foldl_nil]
  refine Eq.trans (label?_modify _ _ id ?_) (label?_modify _ _ id ?_)
  · exact fun _ => rfl
  · exact fun _ => rfl

end Tree

/-! ## the changes that construction makes to what a node holds -/

theorem NodeData.label?_mapCharacterData (f : CharacterData → CharacterData) (d : NodeData) :
    (d.mapCharacterData f).label? = d.label? := by
  cases d <;> rfl

theorem NodeData.label?_mapElement {f : Element → Element}
    (hf : ∀ e, (f e).ns = e.ns ∧ (f e).localName = e.localName) (d : NodeData) :
    (d.mapElement f).label? = d.label? := by
  cases d with
  | element e =>
    show some ((f e).ns, (f e).localName) = some (e.ns, e.localName)
    rw [(hf e).1, (hf e).2]
  | _ => rfl

end HtmlTree
