import HtmlTree.Proofs.Lineage

/-!
# The chain of open elements

The stack of open elements is a way down the document.  Every entry is inside the one before it, and
what stands between two entries is accounted for: it is a form that was taken out of the stack, or
the head, which is given metadata once it is closed.

* `Tree.Chained`         the entries, from the outermost one on, as such a way;
* `Core.head_eq`         a `head` element is the one that the head pointer names;
* `Core.Lineage.chained` the lineage of the entries read from the other end;
* `after_chained`        **open elements are always chained**.
-/

namespace HtmlTree

namespace Tree
variable {t : Tree} {ids path : List NodeId} {id a : NodeId}

/-- these open elements, the outermost one first, lead down the document -/
structure Chained (t : Tree) (ids : List NodeId) (head : Option NodeId) : Prop where
  element : ∀ id ∈ ids, t.isKind .element id = true
  attached : ∀ id ∈ ids, .root ∈ t.ancestors id
  distinct : ids.Nodup
  /-- an entry is a proper ancestor of the next one, and of all after that -/
  descending : ids.Pairwise fun outer inner => outer ∈ t.ancestors inner
  /-- ancestors that are not open are the root, forms and the head -/
  accounted : ∀ id ∈ ids, ∀ a ∈ t.ancestors id,
    a = .root ∨ a ∈ ids ∨ t.isHtml "form" a = true ∨ head = some a

/-! ## lines of ancestors -/

theorem Traces.mem_or_passedOver (h : t.Traces ids path) (ha : a ∈ path) :
    a ∈ ids ∨ t.PassedOver a := by
  induction h with
  | nil => cases ha
  | keep x _ ih =>
    rcases List.mem_cons.mp ha with rfl | ha
    · exact Or.inl List.mem_cons_self
    · exact (ih ha).imp_left (List.mem_cons_of_mem x)
  | skip hx _ ih =>
    rcases List.mem_cons.mp ha with rfl | ha
    · exact Or.inr hx
    · exact ih ha

theorem PassedOver.cases (h : t.PassedOver a) :
    a = .root ∨ t.isHtml "form" a = true ∨ t.isHtml "head" a = true := by
  refine h.imp_right fun hone => ?_
  obtain ⟨name, hmem, hlabel⟩ := isHtmlOneOf_iff.mp hone
  have hname := isHtml_iff.mpr hlabel
  rcases List.mem_cons.mp hmem with rfl | hmem
  · exact Or.inl hname
  · rw [List.mem_singleton.mp hmem] at hname
    exact Or.inr hname

/-- entries that are open around another are among its ancestors -/
theorem Rooted.pairwise (h : t.Rooted ids) :
    ids.Pairwise fun inner outer => outer ∈ t.ancestors inner := by
  induction ids with
  | nil => exact .nil
  | cons x ids ih =>
    refine List.pairwise_cons.mpr ⟨?_, ih h.2⟩
    intro outer houter
    exact h.1.subset houter

/-- an ancestor of an entry is open around it, or it is passed over -/
theorem Rooted.accounted (h : t.Rooted ids) (hid : id ∈ ids) (ha : a ∈ t.ancestors id) :
    a ∈ ids ∨ t.PassedOver a := by
  induction ids with
  | nil => cases hid
  | cons x ids ih =>
    have hwider : ∀ {P : Prop}, a ∈ ids ∨ P → a ∈ x :: ids ∨ P := fun h =>
      h.imp_left (List.mem_cons_of_mem x)
    rcases List.mem_cons.mp hid with rfl | hid
    · exact hwider (h.1.mem_or_passedOver ha)
    · exact hwider (ih h.2 hid)

end Tree

namespace Core
variable {k : Core} {id : NodeId}

/-- before there is a head pointer the `html` element has no elements in it -/
theorem beforeHeadThere_of_frame (hs : k.Sound) (hactive : k.stopped = false) {name : String}
    (hname : name ∈ k.outerMode.frame.2) : k.mode.beforeHeadThere = false := by
  have hfits := hs.fits hactive
  unfold outerMode at hname
  cases ho : k.originalMode with
  | some m =>
    have htext : k.mode = .text := hfits.original_iff.mp (by rw [ho]; rfl)
    rw [htext]
    rfl
  | none =>
    rw [ho, Option.getD_none] at hname
    cases hm : k.mode <;> first
      | rfl
      | (rw [hm] at hname; exact absurd hname List.not_mem_nil)

/-- **The head is the only element of its name**, while tokens are taken. -/
theorem head_eq (hs : k.Sound) (hf : k.Framed) (hl : k.Lineage) (hactive : k.stopped = false)
    (hid : k.tree.isHtml "head" id = true) : k.head = some id := by
  obtain ⟨hnodup, hnodup'⟩ := k.outerMode.nodup_frame
  have hplace : ∀ x, k.tree.isHtml "head" x = true → ∃ html,
      k.tree.htmlElement? = some html ∧ html ∈ k.tree.elementChildren .root ∧
        x ∈ k.tree.elementChildren html := by
    intro x hx
    obtain ⟨html, hparent, hhtml⟩ := hl.head x hx
    refine ⟨html, hf.tree.htmlElement? hnodup hhtml, hf.tree.mem_outer hhtml, ?_⟩
    exact Tree.mem_elementChildren.mpr
      ⟨hf.tree.planted.listed x html hparent, Tree.isKind_of_isHtml hx⟩
  obtain ⟨html, hhtml, houter, hmem⟩ := hplace id hid
  have hspells := hf.tree.inner html houter
  -- the frame has an element in the `html` element, so the head pointer is set
  obtain ⟨name, hname, _⟩ := hspells.mem hmem
  have hset : k.head.isSome = true :=
    (hs.fits hactive).head_iff.mpr (beforeHeadThere_of_frame hs hactive hname)
  obtain ⟨head, hhead⟩ := Option.isSome_iff_exists.mp hset
  have hheadName := hs.bears.head head hhead
  obtain ⟨html', hhtml', _, hmem'⟩ := hplace head hheadName
  cases hhtml.symm.trans hhtml'
  rw [hhead, hspells.eq_of_isHtml hnodup' hmem' hmem hheadName hid]

theorem Lineage.chained (hl : k.Lineage) (hs : k.Sound) (hf : k.Framed) :
    k.tree.Chained k.entries.reverse k.head where
  element := fun id hid => by
    have hlabel := hs.bears.element id (List.mem_reverse.mp hid)
    rw [← Tree.element?_isSome] at hlabel
    obtain ⟨e, he⟩ := Option.isSome_iff_exists.mp hlabel
    obtain ⟨n, hn, hd⟩ := Tree.exists_of_element? he
    rw [Tree.isKind_of_get? hn, Node.kind, hd]
    rfl
  attached := fun id hid => by
    have hlabel := hs.bears.element id (List.mem_reverse.mp hid)
    have hne := hs.bears.grown.ne_root hlabel
    have hdescends := hf.tree.planted.inOrder.descends id (Tree.index_lt_of_label? hlabel)
    unfold Tree.isInclusiveAncestor at hdescends
    rw [beq_false_of_ne hne.symm, Bool.false_or] at hdescends
    exact List.contains_iff_mem.mp hdescends
  distinct := by
    refine List.nodup_reverse.mpr (hs.bears.sorted.imp ?_)
    rintro inner outer hlt rfl
    exact Nat.lt_irrefl _ hlt
  descending := List.pairwise_reverse.mpr hl.rooted.pairwise
  accounted := fun id hid a ha => by
    have hmem := List.mem_reverse.mp hid
    have hactive : k.stopped = false := by
      cases hstop : k.stopped with
      | false => rfl
      | true =>
        rw [(hf.stopped hstop).1] at hmem
        cases hmem
    rcases hl.rooted.accounted hmem ha with hopen | hpassed
    · exact Or.inr (Or.inl (List.mem_reverse.mpr hopen))
    · rcases hpassed.cases with hroot | hform | hhead
      · exact Or.inl hroot
      · exact Or.inr (Or.inr (Or.inl hform))
      · exact Or.inr (Or.inr (Or.inr (head_eq hs hf hl hactive hhead)))

end Core

/-- **Open elements are always chained**, whatever calls were made and whatever became of them: each
is an element of the document inside all that are open around it, and besides these only the root,
forms and the head are around it. -/
theorem after_chained (options : Options) (calls : List Call) :
    let c := (Constructor.new options).after calls
    c.tree.Chained c.openElements.toList c.head := by
  have hs := Constructor.after_sound options calls
  have hf := Constructor.after_framed options calls
  have hl : ((Constructor.new options).after calls).core.Lineage :=
    Constructor.after_keeps options calls (Core.new_lineage options) fun hs hf hm h =>
      hm.lineage hs hf h
  exact hl.chained hs hf

/-- a form that is no longer open is around what is -/
example :
    let c := (Constructor.new .default).after
      [.run [.startTagNamed "form", .startTagNamed "div", .endTag "form", .startTagNamed "div"]]
    c.openNames = ["html", "body", "div", "div"] ∧
      (c.openElements.current?.map fun id => (c.tree.ancestors id).length) = some 5 := by
  decide +kernel

end HtmlTree
