import HtmlTree.Proofs.WellFormed

/-!
# Insertions, accepted and refused

In a well-formed tree an insertion is either refused, and then nothing has changed, or it puts the
new nodes into one child list, side by side and in order, and changes nothing but that list and the
places of these nodes.  A fragment is emptied before the position in the child list is looked up, so
that the position is always found rests on the tree and not on the order of the checks.

* `Tree.handedOver`, `Tree.placeBefore?`   what goes in, and before which place;
* `Tree.Inserts`                           the tree after an accepted insertion;
* `insert_cases`, `preInsert_cases`        an insertion takes place or changes nothing;
* `insertions_refused`                     **a refused insertion changes nothing**;
* `insertions_accepted`                    **what an accepted insertion changes, and nothing else**.
-/

namespace HtmlTree

variable {t : Tree} {parent node : NodeId} {child : Option NodeId} {n : Node}

theorem NodeData.isFragment_eq (d : NodeData) : d.isFragment = (d.kind == .documentFragment) := by
  cases d <;> rfl

namespace Tree

/-! ## what an insertion comes to -/

/-- what goes into a child list for `node`: a fragment's children, or else the node itself -/
def handedOver (t : Tree) (node : NodeId) : List NodeId :=
  if t.isKind .documentFragment node then t.children node else [node]

/-- the place of `child` in the child list of `parent`, or the end where no child is given -/
def placeBefore? (t : Tree) (parent : NodeId) : Option NodeId → Option Nat
  | none => some (t.children parent).length
  | some c => (t.children parent).idxOf? c

/-- `u` is `t` after `node` has been put into `parent` before `child` -/
structure Inserts (t : Tree) (parent node : NodeId) (child : Option NodeId) (u : Tree) : Prop where
  children_parent : ∃ i, t.placeBefore? parent child = some i ∧
    u.children parent =
      (t.children parent).take i ++ t.handedOver node ++ (t.children parent).drop i
  parent_new : ∀ c ∈ t.handedOver node, u.parent? c = some parent
  /-- a fragment is left with no place and no content -/
  fragment : t.isKind .documentFragment node = true →
    u.children node = [] ∧ u.parent? node = none
  children_other : ∀ id, id ≠ parent → ¬(t.isKind .documentFragment node = true ∧ id = node) →
    u.children id = t.children id
  parent_other : ∀ id, id ∉ t.handedOver node → u.parent? id = t.parent? id
  data : ∀ id, (u.get? id).map (·.data) = (t.get? id).map (·.data)
  mode : u.mode = t.mode

theorem isKind_fragment (hn : t.get? node = some n) :
    t.isKind .documentFragment node = n.data.isFragment := by
  rw [isKind_of_get? hn, NodeData.isFragment_eq]
  rfl

theorem handedOver_eq (hn : t.get? node = some n) : t.handedOver node = t.contributed node := by
  unfold handedOver
  rw [isKind_fragment hn, contributed_of_get? hn, children_of_get? hn]

theorem mode_setParents (t : Tree) (parent : Option NodeId) (ids : List NodeId) :
    (t.setParents parent ids).mode = t.mode := by
  induction ids generalizing t with
  | nil => rfl
  | cons x ids ih => exact ih _

theorem mode_inserted (t : Tree) (parent node : NodeId) (child : Option NodeId) :
    (t.inserted parent node child).mode = t.mode := by
  have hemptied : (t.emptied node).mode = t.mode := by
    unfold emptied
    split
    · split
      · exact mode_setParents _ _ _
      · rfl
    · rfl
  exact (mode_setParents _ _ _).trans hemptied

namespace WellFormed

/-- a given child has its place in the child list -/
theorem placeBefore?_eq (h : t.WellFormed) (hpl : t.Placeable parent node child) :
    t.placeBefore? parent child = some (upTo child (t.children parent)).length := by
  cases child with
  | none => rfl
  | some c =>
    obtain ⟨before, after, hsplit, hnot⟩ :=
      List.eq_append_cons_of_mem ((h.mem_children c parent).mpr (hpl.reference c rfl))
    show (t.children parent).idxOf? c = _
    rw [hsplit, idxOf?_split hnot, upTo_split hnot]

/-- a node without a parent is none of those that a fragment hands over -/
theorem fragment_not_mem (h : t.WellFormed) (hn : t.get? node = some n)
    (hf : n.data.isFragment = true) (hd : t.parent? node = none) : node ∉ t.contributed node := by
  intro hmem
  rcases h.mem_contributed hn hmem with ⟨hf', _⟩ | ⟨_, hpar⟩
  · exact absurd (hf.symm.trans hf') Bool.noConfusion
  · exact absurd (hpar.symm.trans hd) (Option.some_ne_none _)

theorem inserts_inserted (h : t.WellFormed) (hpl : t.Placeable parent node child)
    (hd : t.parent? node = none) :
    t.Inserts parent node child (t.inserted parent node child) := by
  obtain ⟨n, hn, _⟩ := hpl.goes
  have hnew := handedOver_eq hn
  have hkind := isKind_fragment hn
  refine ⟨⟨_, h.placeBefore?_eq hpl, ?_⟩, fun c hc => ?_, fun hf => ⟨?_, ?_⟩, fun id hp hno => ?_,
    fun id hid => ?_, fun id => ?_, t.mode_inserted parent node child⟩
  · rw [children_inserted hn hpl, if_pos rfl, hnew, take_drop_upTo]
  · rw [hnew] at hc
    rw [h.parent?_inserted hpl, if_pos hc]
  · rw [hkind] at hf
    rw [children_inserted hn hpl, if_neg hpl.ne, if_pos ⟨hf, rfl⟩]
  · rw [hkind] at hf
    rw [h.parent?_inserted hpl, if_neg (h.fragment_not_mem hn hf hd), hd]
  · rw [hkind] at hno
    rw [children_inserted hn hpl, if_neg hp, if_neg hno]
  · rw [hnew] at hid
    rw [h.parent?_inserted hpl, if_neg hid]
  · rw [get?_inserted hn hpl.ne, Option.map_map]
    rfl

/-! ## accepted or refused -/

/-- an insertion by the rules of every place is carried out, or refused with the tree as it was -/
theorem insert_cases (h : t.WellFormed) (parent node : NodeId) (child : Option NodeId) :
    (∃ u, t.insert parent node child = (.ok (), u) ∧ t.Inserts parent node child u) ∨
      ∃ e, t.insert parent node child = (.error e, t) := by
  cases hchk : t.checkPlace parent node child with
  | error e =>
    unfold Tree.insert
    rw [hchk]
    exact Or.inr ⟨e, rfl⟩
  | ok _ =>
    have hpl := checkPlace_eq_ok_iff.mp hchk
    cases hd : t.parent? node with
    | none => exact Or.inl ⟨_, h.insert_eq hpl hd, h.inserts_inserted hpl hd⟩
    | some p =>
      unfold Tree.insert
      rw [hchk, hd]
      exact Or.inr ⟨_, rfl⟩

/-- by all rules there is a third way: a node put before itself stays where it is -/
theorem preInsert_cases (h : t.WellFormed) (parent node : NodeId) (child : Option NodeId) :
    (child = some node ∧ t.preInsert parent node child = (.ok node, t)) ∨
      (∃ u, child ≠ some node ∧ t.preInsert parent node child = (.ok node, u) ∧
        t.Inserts parent node child u) ∨
      ∃ e, t.preInsert parent node child = (.error e, t) := by
  unfold Tree.preInsert
  split
  · exact Or.inr (Or.inr ⟨_, rfl⟩)
  · split
    · exact Or.inr (Or.inr ⟨_, rfl⟩)
    · split
      · exact Or.inl ⟨‹_›, rfl⟩
      · rename_i hne
        rcases h.insert_cases parent node child with ⟨u, hok, hu⟩ | ⟨e, herr⟩
        · rw [hok]
          exact Or.inr (Or.inl ⟨u, hne, rfl, hu⟩)
        · rw [herr]
          exact Or.inr (Or.inr ⟨e, rfl⟩)

end WellFormed

end Tree

/-! ## trees that come from edits -/

/-- a `p` element with one child, and a fragment with a text and a comment -/
def Edit.fragmentBesideElement : List Edit :=
  [ .alloc (.element (.bare "p" .html)), .alloc .documentFragment, .alloc (.text ⟨"a"⟩),
    .alloc (.comment ⟨"b"⟩), .alloc (.element (.bare "i" .html)), .appendChild ⟨2⟩ ⟨3⟩,
    .appendChild ⟨2⟩ ⟨4⟩, .appendChild ⟨1⟩ ⟨5⟩ ]

/-- **A refused insertion changes nothing.**  In every tree that edits lead to, with whatever
handles: the tree is the one before, to the last node and to the document's mode.  Where the rules
of the place are kept the position is found, also after a fragment has handed over its children. -/
theorem insertions_refused (edits : List Edit) (parent node : NodeId) (child : Option NodeId) :
    let t := Tree.new.edited edits
    (∀ e, (t.insert parent node child).1 = .error e → (t.insert parent node child).2 = t) ∧
      (∀ e, (t.preInsert parent node child).1 = .error e → (t.preInsert parent node child).2 = t) ∧
      (∀ e, (t.appendChild parent node).1 = .error e → (t.appendChild parent node).2 = t) ∧
      (t.checkPlace parent node child = .ok () →
        ∃ i, (t.emptied node).position parent child = .ok i) := by
  intro t
  have h : t.WellFormed := Tree.WellFormed.new.edited edits
  have hpre : ∀ child e, (t.preInsert parent node child).1 = .error e →
      (t.preInsert parent node child).2 = t := by
    intro child e he
    rcases h.preInsert_cases parent node child with ⟨_, hok⟩ | ⟨_, _, hok, _⟩ | ⟨_, herr⟩
    · rw [hok] at he
      cases he
    · rw [hok] at he
      cases he
    · rw [herr]
  refine ⟨fun e he => ?_, hpre child, hpre none, fun hchk => ?_⟩
  · rcases h.insert_cases parent node child with ⟨_, hok, _⟩ | ⟨_, herr⟩
    · rw [hok] at he
      cases he
    · rw [herr]
  · exact ⟨_, h.position_emptied (Tree.checkPlace_eq_ok_iff.mp hchk)⟩

/-- a fragment keeps its children where it is to go before one of them, or into the document; before
a child of the element it could go, and the place is found -/
theorem insertions_refused_fragment :
    let t := Tree.new.edited Edit.fragmentBesideElement
    t.insert ⟨1⟩ ⟨2⟩ (some ⟨3⟩) = (.error (.notAChild ⟨3⟩ ⟨1⟩), t) ∧
      t.preInsert ⟨1⟩ ⟨2⟩ (some ⟨3⟩) = (.error (.notAChild ⟨3⟩ ⟨1⟩), t) ∧
      t.appendChild .root ⟨2⟩ = (.error (.hierarchyRequest .fragmentNotOneElement), t) ∧
      ∃ i, (t.emptied ⟨2⟩).position ⟨1⟩ (some ⟨5⟩) = .ok i := by
  intro t
  have h := insertions_refused Edit.fragmentBesideElement
  have hinsert : (t.insert ⟨1⟩ ⟨2⟩ (some ⟨3⟩)).1 = .error (.notAChild ⟨3⟩ ⟨1⟩) := by decide +kernel
  have hpre : (t.preInsert ⟨1⟩ ⟨2⟩ (some ⟨3⟩)).1 = .error (.notAChild ⟨3⟩ ⟨1⟩) := by decide +kernel
  have happend : (t.appendChild .root ⟨2⟩).1 =
      .error (.hierarchyRequest .fragmentNotOneElement) := by decide +kernel
  refine ⟨Prod.ext hinsert ?_, Prod.ext hpre ?_, Prod.ext happend ?_, ?_⟩
  · exact (h ⟨1⟩ ⟨2⟩ (some ⟨3⟩)).1 _ hinsert
  · exact (h ⟨1⟩ ⟨2⟩ (some ⟨3⟩)).2.1 _ hpre
  · exact (h .root ⟨2⟩ none).2.2.1 _ happend
  · exact (h ⟨1⟩ ⟨2⟩ (some ⟨5⟩)).2.2.2 (by decide +kernel)

/-- **What an accepted insertion changes, and nothing else.**  In every tree that edits lead to: the
new nodes stand in the child list of their parent before the given child, or at the end, and all
other places, what the nodes hold and the document's mode are as before.  The answer is the node;
a node that is put before itself stays where it is. -/
theorem insertions_accepted (edits : List Edit) (parent node : NodeId) (child : Option NodeId) :
    let t := Tree.new.edited edits
    ((t.insert parent node child).1 = .ok () →
        t.Inserts parent node child (t.insert parent node child).2) ∧
      (∀ a, (t.appendChild parent node).1 = .ok a →
        a = node ∧ t.Inserts parent node none (t.appendChild parent node).2) ∧
      ∀ a, (t.preInsert parent node child).1 = .ok a → a = node ∧
        if child = some node then (t.preInsert parent node child).2 = t
        else t.Inserts parent node child (t.preInsert parent node child).2 := by
  intro t
  have h : t.WellFormed := Tree.WellFormed.new.edited edits
  have hpre : ∀ child a, (t.preInsert parent node child).1 = .ok a → a = node ∧
      if child = some node then (t.preInsert parent node child).2 = t
      else t.Inserts parent node child (t.preInsert parent node child).2 := by
    intro child a ha
    rcases h.preInsert_cases parent node child with ⟨hc, hok⟩ | ⟨u, hc, hok, hu⟩ | ⟨_, herr⟩
    · rw [hok] at ha ⊢
      cases ha
      exact ⟨rfl, by rw [if_pos hc]⟩
    · rw [hok] at ha ⊢
      cases ha
      exact ⟨rfl, by rwa [if_neg hc]⟩
    · rw [herr] at ha
      cases ha
  refine ⟨fun hok => ?_, fun a ha => ?_, hpre child⟩
  · rcases h.insert_cases parent node child with ⟨u, hu, hins⟩ | ⟨_, herr⟩
    · rwa [hu]
    · rw [herr] at hok
      cases hok
  · obtain ⟨hnode, hins⟩ := hpre none a ha
    exact ⟨hnode, by rwa [if_neg (Option.some_ne_none node).symm] at hins⟩

/-- a fragment goes in before a child and at the end; a child that is put before itself stays -/
theorem insertions_accepted_fragment :
    let t := Tree.new.edited Edit.fragmentBesideElement
    t.Inserts ⟨1⟩ ⟨2⟩ (some ⟨5⟩) (t.insert ⟨1⟩ ⟨2⟩ (some ⟨5⟩)).2 ∧
      (t.insert ⟨1⟩ ⟨2⟩ (some ⟨5⟩)).2.children ⟨1⟩ = [⟨3⟩, ⟨4⟩, ⟨5⟩] ∧
      t.Inserts ⟨1⟩ ⟨2⟩ none (t.appendChild ⟨1⟩ ⟨2⟩).2 ∧
      t.Inserts ⟨1⟩ ⟨2⟩ (some ⟨5⟩) (t.preInsert ⟨1⟩ ⟨2⟩ (some ⟨5⟩)).2 ∧
      t.preInsert ⟨1⟩ ⟨5⟩ (some ⟨5⟩) = (.ok ⟨5⟩, t) := by
  intro t
  have h := insertions_accepted Edit.fragmentBesideElement
  have hpre : (t.preInsert ⟨1⟩ ⟨2⟩ (some ⟨5⟩)).1 = .ok ⟨2⟩ := by decide +kernel
  have hself : (t.preInsert ⟨1⟩ ⟨5⟩ (some ⟨5⟩)).1 = .ok ⟨5⟩ := by decide +kernel
  refine ⟨?_, by decide +kernel, ?_, ?_, Prod.ext hself ?_⟩
  · exact (h ⟨1⟩ ⟨2⟩ (some ⟨5⟩)).1 (by decide +kernel)
  · exact ((h ⟨1⟩ ⟨2⟩ none).2.1 ⟨2⟩ (by decide +kernel)).2
  · exact ((h ⟨1⟩ ⟨2⟩ (some ⟨5⟩)).2.2 ⟨2⟩ hpre).2
  · exact ((h ⟨1⟩ ⟨5⟩ (some ⟨5⟩)).2.2 ⟨5⟩ hself).2

end HtmlTree
