import HtmlTree.Proofs.WellFormed

/-!
# The children of a document

A document has at most one element and at most one doctype, the doctype first, and no text; no other
node has a doctype.  The checks before an insertion look at the kind of the node, at what a fragment
holds and at what stands before and after the given child.  They come to just this: an insertion is
accepted exactly if the rules hold of the new child list.

* `Tree.DocumentRules`, `Tree.Admits`   the rules, for a list of children;
* `documentRules_between`               what new children must be like, by what is around them;
* `hierarchyFault?_eq_none_iff`         the checks are exact;
* `edited_admits`                       the rules hold after any edits, bare insertions apart.
-/

namespace HtmlTree

/-- a fragment is neither a document nor a doctype -/
theorem NodeData.kind_ne_of_isFragment {d : NodeData} (h : d.isFragment = true) :
    d.kind ≠ .document ∧ d.kind ≠ .documentType := by
  cases d <;> first
    | exact ⟨NodeKind.noConfusion, NodeKind.noConfusion⟩
    | cases h

namespace Tree

/-! ## the rules -/

/-- `b` may come after `a` among the children of a document -/
def InDocumentOrder (t : Tree) (a b : NodeId) : Prop :=
  t.isKind .element a = true → t.isKind .documentType b = false

/-- the rules for the children of a document -/
structure DocumentRules (t : Tree) (ids : List NodeId) : Prop where
  oneElement : ids.countP (t.isKind .element) ≤ 1
  oneDoctype : ids.countP (t.isKind .documentType) ≤ 1
  noText : ∀ id ∈ ids, t.isKind .text id = false
  /-- no element stands before a doctype -/
  order : ids.Pairwise t.InDocumentOrder

/-- the rules for the children of any node: only a document has doctypes -/
def Admits (t : Tree) (parent : NodeId) (ids : List NodeId) : Prop :=
  if t.isKind .document parent then t.DocumentRules ids
  else ∀ id ∈ ids, t.isKind .documentType id = false

/-- every child list keeps the rules -/
def Ruled (t : Tree) : Prop := ∀ p, t.Admits p (t.children p)

variable {t u : Tree} {parent node id c p : NodeId} {child : Option NodeId} {n : Node}
  {kind : NodeKind} {ids before given after : List NodeId}

theorem eq_of_isKind (h : t.isKind kind id = true) : t.kind? id = some kind := eq_of_beq h

theorem isKind_eq_false {other : NodeKind} (h : t.isKind kind id = true) (hne : kind ≠ other) :
    t.isKind other id = false := by
  unfold isKind
  rw [eq_of_isKind h, beq_eq_false_iff_ne]
  exact fun he => hne (Option.some.inj he)

theorem documentRules_nil : t.DocumentRules [] := by
  constructor <;> simp

theorem admits_nil (t : Tree) (p : NodeId) : t.Admits p [] := by
  unfold Admits
  split
  · exact documentRules_nil
  · exact fun _ h => nomatch h

/-- the rules are about kinds only -/
theorem DocumentRules.congr (h : t.DocumentRules ids)
    (hk : ∀ id ∈ ids, ∀ kind, u.isKind kind id = t.isKind kind id) : u.DocumentRules ids where
  oneElement := by
    rw [List.countP_congr fun id hid => by rw [hk id hid]]
    exact h.oneElement
  oneDoctype := by
    rw [List.countP_congr fun id hid => by rw [hk id hid]]
    exact h.oneDoctype
  noText := fun id hid => by rw [hk id hid]; exact h.noText id hid
  order := h.order.imp_of_mem fun {a b} ha hb hab hea => by
    rw [hk a ha] at hea
    rw [hk b hb]
    exact hab hea

theorem Admits.congr (h : t.Admits p ids)
    (hp : u.isKind .document p = t.isKind .document p)
    (hk : ∀ id ∈ ids, ∀ kind, u.isKind kind id = t.isKind kind id) : u.Admits p ids := by
  unfold Admits at h ⊢
  rw [hp]
  split
  · rename_i hd
    rw [if_pos hd] at h
    exact h.congr hk
  · rename_i hd
    rw [if_neg hd] at h
    exact fun id hid => by rw [hk id hid]; exact h id hid

/-! ## new children between others -/

/-- the rules for a longer list, where they hold of what is around the new children -/
theorem documentRules_between (h : t.DocumentRules (before ++ after)) :
    t.DocumentRules (before ++ given ++ after) ↔
      (given.countP (t.isKind .element) + (before ++ after).countP (t.isKind .element) ≤ 1 ∧
        given.countP (t.isKind .documentType)
          + (before ++ after).countP (t.isKind .documentType) ≤ 1) ∧
      (∀ id ∈ given, t.isKind .text id = false) ∧ given.Pairwise t.InDocumentOrder ∧
      (∀ a ∈ before, ∀ b ∈ given, t.InDocumentOrder a b) ∧
      ∀ a ∈ given, ∀ b ∈ after, t.InDocumentOrder a b := by
  have hcount : ∀ f : NodeId → Bool, (before ++ given ++ after).countP f
      = given.countP f + (before ++ after).countP f := by
    intro f
    rw [List.countP_append, List.countP_append, List.countP_append]
    omega
  obtain ⟨hb, ha, hba⟩ := List.pairwise_append.mp h.order
  constructor
  · intro hall
    obtain ⟨hbn, _, hcross⟩ := List.pairwise_append.mp hall.order
    obtain ⟨_, hn, hbn⟩ := List.pairwise_append.mp hbn
    refine ⟨⟨by rw [← hcount]; exact hall.oneElement, by rw [← hcount]; exact hall.oneDoctype⟩,
      fun id hid => hall.noText id ?_, hn, hbn, fun a hx b hy => hcross a ?_ b hy⟩
    · exact List.mem_append_left _ (List.mem_append_right _ hid)
    · exact List.mem_append_right _ hx
  · rintro ⟨⟨he, hd⟩, htext, hn, hbn, hna⟩
    refine ⟨by rw [hcount]; exact he, by rw [hcount]; exact hd, fun id hid => ?_, ?_⟩
    · rcases List.mem_append.mp hid with hid | hid
      · rcases List.mem_append.mp hid with hid | hid
        · exact h.noText id (List.mem_append_left _ hid)
        · exact htext id hid
      · exact h.noText id (List.mem_append_right _ hid)
    · refine List.pairwise_append.mpr ⟨List.pairwise_append.mpr ⟨hb, hn, hbn⟩, ha, ?_⟩
      intro a hx b hy
      rcases List.mem_append.mp hx with hx | hx
      · exact hba a hx b hy
      · exact hna a hx b hy

theorem anyOfKind_eq_decide (t : Tree) (kind : NodeKind) (ids : List NodeId) :
    t.anyOfKind kind ids = decide (0 < ids.countP (t.isKind kind)) := by
  unfold anyOfKind
  rw [Bool.eq_iff_iff, List.any_eq_true, decide_eq_true_iff, List.countP_pos_iff]

theorem anyOfKind_eq_false_iff :
    t.anyOfKind kind ids = false ↔ ∀ id ∈ ids, t.isKind kind id = false := by
  unfold anyOfKind
  rw [List.any_eq_false]
  simp

theorem countP_eq_zero_of_none (h : ∀ id ∈ ids, t.isKind kind id = false) :
    ids.countP (t.isKind kind) = 0 :=
  List.countP_eq_zero.mpr fun id hid => by rw [h id hid]; exact Bool.false_ne_true

theorem documentRules_of_no_doctype (h : t.DocumentRules (before ++ after))
    (hnew : ∀ id ∈ given, t.isKind .documentType id = false) :
    t.DocumentRules (before ++ given ++ after) ↔
      given.countP (t.isKind .element) + (before ++ after).countP (t.isKind .element) ≤ 1 ∧
      t.anyOfKind .text given = false ∧
      (0 < given.countP (t.isKind .element) → t.anyOfKind .documentType after = false) := by
  rw [documentRules_between h, countP_eq_zero_of_none hnew, Nat.zero_add, anyOfKind_eq_false_iff,
    anyOfKind_eq_false_iff, List.countP_pos_iff]
  have horder : ∀ a, ∀ b ∈ given, t.InDocumentOrder a b := fun _ b hb _ => hnew b hb
  have hpair : given.Pairwise t.InDocumentOrder :=
    List.pairwise_of_forall_mem_list fun a _ b hb => horder a b hb
  constructor
  · rintro ⟨⟨he, _⟩, htext, _, _, hna⟩
    refine ⟨he, htext, ?_⟩
    rintro ⟨a, ha, hea⟩ b hb
    exact hna a ha b hb hea
  · rintro ⟨he, htext, hna⟩
    exact ⟨⟨he, h.oneDoctype⟩, htext, hpair, fun a _ => horder a, fun a ha b hb hea =>
      hna ⟨a, ha, hea⟩ b hb⟩

theorem documentRules_of_doctype (h : t.DocumentRules (before ++ after))
    (hnew : t.isKind .documentType node = true) :
    t.DocumentRules (before ++ [node] ++ after) ↔
      t.anyOfKind .documentType (before ++ after) = false ∧
        t.anyOfKind .element before = false := by
  have hel : t.isKind .element node = false := isKind_eq_false hnew NodeKind.noConfusion
  have htext : t.isKind .text node = false := isKind_eq_false hnew NodeKind.noConfusion
  have hone := h.oneElement
  rw [documentRules_between h, List.countP_singleton, List.countP_singleton, hel, hnew,
    anyOfKind_eq_false_iff, anyOfKind_eq_false_iff]
  constructor
  · rintro ⟨⟨_, hd⟩, _, _, hbn, _⟩
    refine ⟨fun id hid => ?_, fun a ha => ?_⟩
    · have hzero : (before ++ after).countP (t.isKind .documentType) = 0 := by
        rw [if_pos rfl] at hd
        omega
      simpa using List.countP_eq_zero.mp hzero id hid
    · by_contra hea
      have hno := hbn a ha node List.mem_cons_self (by simpa using hea)
      rw [hnew] at hno
      cases hno
  · rintro ⟨hd, hb⟩
    rw [countP_eq_zero_of_none hd]
    refine ⟨⟨by simpa using hone, by simp⟩, ?_, List.pairwise_singleton _ _, ?_, ?_⟩
    · intro id hid
      rw [List.mem_singleton.mp hid]
      exact htext
    · intro a ha b _ hea
      rw [hb a ha] at hea
      cases hea
    · intro a ha b _ hea
      rw [List.mem_singleton.mp ha, hel] at hea
      cases hea

/-! ## what stands before and after a child -/

namespace WellFormed

/-- the siblings of a child are those that the child list is cut into -/
theorem siblings_split (h : t.WellFormed) (hc : t.parent? c = some parent) :
    t.precedingSiblings c = (upTo (some c) (t.children parent)).reverse ∧
      c :: t.followingSiblings c = onFrom (some c) (t.children parent) := by
  obtain ⟨before, after, hsplit, hnot⟩ :=
    List.eq_append_cons_of_mem ((h.mem_children c parent).mpr hc)
  have hs : t.siblings? c = some (before ++ c :: after, before.length) := by
    unfold siblings? index?
    rw [hc, Option.bind_some, hsplit, idxOf?_split hnot]
    dsimp only
    rw [hsplit]
  unfold precedingSiblings followingSiblings
  rw [hs, hsplit, upTo_split hnot, onFrom_split hnot]
  simp

theorem doctypeFrom_eq (h : t.WellFormed) (hpl : t.Placeable parent node child) :
    t.doctypeFrom child = t.anyOfKind .documentType (onFrom child (t.children parent)) := by
  cases child with
  | none => rfl
  | some c =>
    rw [← (h.siblings_split (hpl.reference c rfl)).2]
    rfl

theorem elementBefore_eq (h : t.WellFormed) (hpl : t.Placeable parent node child) :
    t.elementBefore parent child = t.anyOfKind .element (upTo child (t.children parent)) := by
  cases child with
  | none => rfl
  | some c =>
    unfold elementBefore
    dsimp only
    rw [(h.siblings_split (hpl.reference c rfl)).1]
    exact List.any_reverse

/-! ## the checks are exact -/

theorem rules (hr : t.Ruled) (hdoc : t.isKind .document parent = true) :
    t.DocumentRules (t.children parent) := by
  have had := hr parent
  unfold Admits at had
  rwa [if_pos hdoc] at had

/-- a fragment, as it is no document, has no doctypes -/
theorem no_doctype_of_fragment (hr : t.Ruled) (hn : t.get? node = some n)
    (hf : n.data.isFragment = true) :
    ∀ id ∈ t.children node, t.isKind .documentType id = false := by
  have had := hr node
  have hdoc : t.isKind .document node = false := by
    rw [isKind_of_get? hn]
    exact beq_false_of_ne (NodeData.kind_ne_of_isFragment hf).1
  unfold Admits at had
  rw [hdoc] at had
  exact had

/-- the rules with new children that are no doctypes, in the terms of the checks -/
theorem rules_iff (hr : t.Ruled) (hdoc : t.isKind .document parent = true)
    (hnew : ∀ id ∈ given, t.isKind .documentType id = false) (child : Option NodeId) :
    t.DocumentRules (insertBefore child given (t.children parent)) ↔
      given.countP (t.isKind .element) + (t.children parent).countP (t.isKind .element) ≤ 1 ∧
      t.anyOfKind .text given = false ∧ (0 < given.countP (t.isKind .element) →
        t.anyOfKind .documentType (onFrom child (t.children parent)) = false) := by
  have hcut := upTo_append_onFrom child (t.children parent)
  have hiff := documentRules_of_no_doctype (by rw [hcut]; exact rules hr hdoc) hnew
  rwa [hcut] at hiff

/-- a fragment is accepted exactly if its children may go in -/
theorem fragmentFault_iff (h : t.WellFormed) (hr : t.Ruled)
    (hpl : t.Placeable parent node child) (hn : t.get? node = some n)
    (hdoc : t.isKind .document parent = true) (hf : n.data.isFragment = true) :
    t.documentFault? parent node child n.data = none ↔
      t.DocumentRules (insertBefore child (t.contributed node) (t.children parent)) := by
  have hone := (rules hr hdoc).oneElement
  have hfault : t.documentFault? parent node child n.data =
      if 1 < (t.children node).countP (t.isKind .element)
          || t.anyOfKind .text (t.children node) then
        some .fragmentNotOneElement
      else if (t.children node).countP (t.isKind .element) == 1
          && (t.anyOfKind .element (t.children parent) || t.doctypeFrom child) then
        some .secondDocumentElement
      else none := by
    rw [List.countP_eq_length_filter]
    cases hd : n.data <;> rw [hd] at hf <;> first | rfl | cases hf
  rw [hfault, contributed_fragment hn hf, rules_iff hr hdoc (no_doctype_of_fragment hr hn hf),
    h.doctypeFrom_eq hpl]
  cases htext : t.anyOfKind .text (t.children node) with
  | true => simp
  | false =>
    -- what is left is about two numbers, of elements in the fragment and in the document
    rw [anyOfKind_eq_decide t .element]
    generalize (t.children node).countP (t.isKind .element) = offered at *
    generalize (t.children parent).countP (t.isKind .element) = present at *
    cases t.anyOfKind .documentType (onFrom child (t.children parent)) <;> simp <;> split <;>
      simp <;> omega

/-- the rules with one new child that is no doctype, in the terms of the checks -/
theorem rules_single_iff (h : t.WellFormed) (hr : t.Ruled) (hpl : t.Placeable parent node child)
    (hdoc : t.isKind .document parent = true) (hdt : t.isKind .documentType node = false) :
    t.DocumentRules (insertBefore child [node] (t.children parent)) ↔
      t.isKind .text node = false ∧ (t.isKind .element node = true →
        t.anyOfKind .element (t.children parent) = false ∧ t.doctypeFrom child = false) := by
  have hone := (rules hr hdoc).oneElement
  rw [rules_iff hr hdoc fun id (hid : id ∈ [node]) => by rw [List.mem_singleton.mp hid, hdt],
    h.doctypeFrom_eq hpl, List.countP_singleton, anyOfKind_eq_decide t .element]
  have htext : t.anyOfKind .text [node] = t.isKind .text node := Bool.or_false _
  rw [htext]
  cases t.isKind .element node with
  | false => simpa using fun _ => hone
  | true =>
    have hsum : ∀ k, 1 + k ≤ 1 ↔ ¬ 0 < k := fun k => by omega
    simp only [if_pos, hsum, Nat.zero_lt_one, forall_const, decide_eq_false_iff_not]
    exact and_left_comm

/-- any other node is accepted exactly if it may go in itself -/
theorem singleFault_iff (h : t.WellFormed) (hr : t.Ruled) (hpl : t.Placeable parent node child)
    (hn : t.get? node = some n) (hdoc : t.isKind .document parent = true)
    (hf : n.data.isFragment = false) :
    t.documentFault? parent node child n.data = none ↔
      t.DocumentRules (insertBefore child (t.contributed node) (t.children parent)) := by
  have hkind : ∀ kind, t.isKind kind node = (n.data.kind == kind) := fun _ => isKind_of_get? hn
  rw [contributed_single hn hf]
  by_cases hdt : n.data.kind = .documentType
  · have hcut := upTo_append_onFrom child (t.children parent)
    unfold insertBefore
    rw [documentRules_of_doctype (by rw [hcut]; exact rules hr hdoc) (by rw [hkind, hdt]; rfl),
      hcut, ← h.elementBefore_eq hpl]
    cases hd : n.data <;> rw [hd] at hdt <;> cases hdt
    unfold documentFault?
    cases t.anyOfKind .documentType (t.children parent) <;>
      cases t.elementBefore parent child <;> simp
  · have hno : t.isKind .documentType node = false := (hkind _).trans (beq_false_of_ne hdt)
    rw [rules_single_iff h hr hpl hdoc hno, hkind, hkind]
    cases hd : n.data with
    | documentType d => exact absurd (by rw [hd]; rfl) hdt
    | documentFragment | shadowRoot => rw [hd] at hf; cases hf
    | element e =>
      unfold documentFault?
      cases t.anyOfKind .element (t.children parent) <;> cases t.doctypeFrom child <;>
        simp [NodeData.kind]
    | _ => simp [documentFault?, NodeData.kind]

/-- **The checks before an insertion are exact.** -/
theorem hierarchyFault?_eq_none_iff (h : t.WellFormed) (hr : t.Ruled)
    (hpl : t.Placeable parent node child) :
    t.hierarchyFault? parent node child = none ↔
      t.Admits parent (insertBefore child (t.contributed node) (t.children parent)) := by
  obtain ⟨p, hp, _⟩ := hpl.takes
  obtain ⟨n, hn, _⟩ := hpl.goes
  have hdoc : p.data = .document ↔ t.isKind .document parent = true := by
    rw [isKind_of_get? hp]
    unfold Node.kind
    cases p.data <;> simp [NodeData.kind]
  unfold hierarchyFault? Admits
  rw [hp, hn]
  dsimp only
  by_cases hd : t.isKind .document parent = true
  · rw [if_pos (hdoc.mpr hd), if_pos hd]
    cases hf : n.data.isFragment with
    | false => exact singleFault_iff h hr hpl hn hd hf
    | true => exact fragmentFault_iff h hr hpl hn hd hf
  · rw [if_neg fun he => hd (hdoc.mp he), if_neg hd]
    have hold : ∀ id ∈ t.children parent, t.isKind .documentType id = false := by
      have had := hr parent
      unfold Admits at had
      rwa [if_neg hd] at had
    cases hf : n.data.isFragment with
    | true =>
      have hne : n.kind ≠ .documentType := (NodeData.kind_ne_of_isFragment hf).2
      rw [if_neg hne, contributed_fragment hn hf]
      refine ⟨fun _ id hid => ?_, fun _ => rfl⟩
      rcases mem_insertBefore.mp hid with hid | hid
      · exact no_doctype_of_fragment hr hn hf id hid
      · exact hold id hid
    | false =>
      have hnode : t.isKind .documentType node = (n.kind == .documentType) := isKind_of_get? hn
      rw [contributed_single hn hf]
      constructor
      · intro hno id hid
        rcases mem_insertBefore.mp hid with hid | hid
        · rw [List.mem_singleton.mp hid, hnode, beq_eq_false_iff_ne]
          intro he
          rw [if_pos he] at hno
          cases hno
        · exact hold id hid
      · intro hall
        have hno := hall node (mem_insertBefore.mpr (Or.inl List.mem_cons_self))
        rw [hnode, beq_eq_false_iff_ne] at hno
        rw [if_neg hno]

theorem preInsert_ok_iff (h : t.WellFormed) (hr : t.Ruled) (hpl : t.Placeable parent node child)
    (hd : t.parent? node = none) :
    (t.preInsert parent node child).1.isOk = true ↔
      t.Admits parent (insertBefore child (t.contributed node) (t.children parent)) := by
  rw [← hierarchyFault?_eq_none_iff h hr hpl]
  unfold Tree.preInsert
  rw [checkPlace_eq_ok_iff.mpr hpl]
  dsimp only
  cases hfault : t.hierarchyFault? parent node child with
  | some fault => exact ⟨fun h => Bool.noConfusion h, fun h => (nomatch h)⟩
  | none =>
    rw [h.insert_eq hpl hd]
    dsimp only
    split <;> exact ⟨fun _ => rfl, fun _ => rfl⟩

end WellFormed

/-! ## any edits but bare insertions -/

namespace Ruled

theorem new : Tree.new.Ruled := by
  rintro ⟨_ | i⟩ <;> exact admits_nil _ _

/-- the rules still hold where kinds and child lists are as before, apart from new nodes without
children -/
theorem of_kinds (hr : t.Ruled) (h : t.WellFormed) (hc : ∀ p, u.children p = t.children p)
    (hk : ∀ id, id.index < t.size → ∀ kind, u.isKind kind id = t.isKind kind id) : u.Ruled := by
  intro p
  rw [hc]
  rcases Nat.lt_or_ge p.index t.size with hp | hp
  · exact (hr p).congr (hk p hp .document) fun id hid => hk id (h.child_lt hid)
  · rw [children_of_le hp]
    exact admits_nil u p

theorem alloc (hr : t.Ruled) (h : t.WellFormed) (d : NodeData) : (t.alloc d).2.Ruled := by
  refine hr.of_kinds h (children_alloc t d) fun id hid kind => ?_
  unfold isKind kind?
  rw [get?_alloc_of_lt t d hid]

theorem modifyData (hr : t.Ruled) (h : t.WellFormed) {f : NodeData → NodeData}
    (hf : ∀ d, (f d).kind = d.kind) : (t.modifyData id f).Ruled := by
  refine hr.of_kinds h (children_modifyData t id · f) fun other _ kind => ?_
  unfold isKind kind? Tree.modifyData
  rw [get?_modify]
  split
  · cases t.get? other with
    | none => rfl
    | some n => exact congrArg (fun k => some k == some kind) (hf n.data)
  · rfl

theorem preInsert (hr : t.Ruled) (h : t.WellFormed) (parent node : NodeId)
    (child : Option NodeId) : (t.preInsert parent node child).2.Ruled := by
  cases hchk : t.checkPlace parent node child with
  | error e =>
    unfold Tree.preInsert
    rw [hchk]
    exact hr
  | ok _ =>
    have hpl := checkPlace_eq_ok_iff.mp hchk
    obtain ⟨n, hn, _⟩ := hpl.goes
    unfold Tree.preInsert
    rw [hchk]
    dsimp only
    cases hfault : t.hierarchyFault? parent node child with
    | some fault => exact hr
    | none =>
      dsimp only
      split
      · exact hr
      · cases hd : t.parent? node with
        | some p =>
          unfold Tree.insert
          rw [hchk, hd]
          exact hr
        | none =>
          have hadm := (h.hierarchyFault?_eq_none_iff hr hpl).mp hfault
          rw [h.insert_eq hpl hd]
          intro p
          have hk : ∀ id kind, (t.inserted parent node child).isKind kind id
              = t.isKind kind id := by
            intro id kind
            unfold isKind kind?
            rw [get?_inserted hn hpl.ne, Option.map_map]
            rfl
          show (t.inserted parent node child).Admits p ((t.inserted parent node child).children p)
          rw [children_inserted hn hpl]
          split
          · rename_i hp
            rw [hp]
            exact hadm.congr (hk _ _) fun id _ => hk id
          · split
            · exact admits_nil _ _
            · exact (hr p).congr (hk _ _) fun id _ => hk id

end Ruled

end Tree

/-- whether an edit leaves the rules of documents unasked -/
def Edit.isBare : Edit → Bool
  | insert _ _ _ => true
  | _ => false

theorem Tree.Ruled.apply {t : Tree} (hr : t.Ruled) (h : t.WellFormed) {edit : Edit}
    (hb : edit.isBare = false) : (edit.apply t).Ruled := by
  cases edit with
  | alloc d => exact hr.alloc h d
  | appendChild parent node => exact hr.preInsert h parent node none
  | preInsert parent node child => exact hr.preInsert h parent node child
  | insert parent node child => cases hb
  | editElement id f => exact hr.modifyData h (NodeData.kind_mapElement f)
  | editText id f => exact hr.modifyData h (NodeData.kind_mapCharacterData f)
  | setMode mode => exact hr.of_kinds h (fun _ => rfl) fun _ _ _ => rfl

theorem Tree.Ruled.edited {t : Tree} (hr : t.Ruled) (h : t.WellFormed) {edits : List Edit}
    (hb : ∀ edit ∈ edits, edit.isBare = false) : (t.edited edits).Ruled := by
  induction edits generalizing t with
  | nil => exact hr
  | cons edit edits ih =>
    rw [Tree.edited_cons]
    exact ih (hr.apply h (hb edit List.mem_cons_self)) (h.apply edit)
      fun e he => hb e (List.mem_cons_of_mem _ he)

/-- **Documents keep their rules, and insertion is refused by nothing else.**  In a tree made by any
edits but bare insertions every child list keeps the rules, and a detached node that may be put into
a parent at all, before a child of it or at the end, is accepted exactly if the rules hold of the
child list with that node, or with the children of the fragment that it is, put in there. -/
theorem edited_admits (edits : List Edit) (hb : ∀ edit ∈ edits, edit.isBare = false) :
    let t := Tree.new.edited edits
    (∀ p, t.Admits p (t.children p)) ∧
      ∀ parent node child, t.Placeable parent node child → t.parent? node = none →
        ((t.preInsert parent node child).1.isOk = true ↔
          t.Admits parent (insertBefore child (t.contributed node) (t.children parent))) := by
  have h := Tree.WellFormed.new.edited edits
  have hr := Tree.Ruled.new.edited Tree.WellFormed.new hb
  exact ⟨hr, fun parent node child hpl hd => h.preInsert_ok_iff hr hpl hd⟩

/-- a document with a comment and an element: a doctype may come between them, not at the end -/
theorem edited_admits_doctype :
    let edits := [.alloc (.comment ⟨"a"⟩), .alloc (.element (.bare "html" .html)),
      .alloc (.documentType ⟨"html", "", ""⟩), .alloc .documentFragment, .appendChild ⟨4⟩ ⟨1⟩,
      .appendChild ⟨4⟩ ⟨2⟩, .appendChild .root ⟨4⟩]
    let t := Tree.new.edited edits
    (∀ p, t.Admits p (t.children p)) ∧ t.children .root = [⟨1⟩, ⟨2⟩] ∧
      t.Admits .root (insertBefore (some ⟨2⟩) (t.contributed ⟨3⟩) (t.children .root)) ∧
      ¬ t.Admits .root (insertBefore none (t.contributed ⟨3⟩) (t.children .root)) := by
  have h := edited_admits [.alloc (.comment ⟨"a"⟩), .alloc (.element (.bare "html" .html)),
      .alloc (.documentType ⟨"html", "", ""⟩), .alloc .documentFragment, .appendChild ⟨4⟩ ⟨1⟩,
      .appendChild ⟨4⟩ ⟨2⟩, .appendChild .root ⟨4⟩] (by decide)
  refine ⟨h.1, by decide +kernel, ?_, ?_⟩
  · have hiff := h.2 .root ⟨3⟩ (some ⟨2⟩) (Tree.checkPlace_eq_ok_iff.mp (by decide +kernel))
      (by decide +kernel)
    exact hiff.mp (by decide +kernel)
  · have hiff := h.2 .root ⟨3⟩ none (Tree.checkPlace_eq_ok_iff.mp (by decide +kernel))
      (by decide +kernel)
    exact fun hadm => absurd (hiff.mpr hadm) (by decide +kernel)

end HtmlTree
