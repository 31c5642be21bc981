import HtmlTree.Proofs.Arrivals

/-!
# The lineage of open elements

What is open around an element are its ancestors, but for forms that were taken out of the stack, for
the head, which is given metadata once it is closed, and for the root.  None of these ends a search or
is looked for, so a search of the stack finds what one of the ancestors would find.  Elements are
opened where nothing is in their way, and then nothing is in their way among their ancestors.

* `Tree.Traces`       open elements that make up a line of ancestors, but for those passed over;
* `Tree.Rooted`       every open element is inside those that are open around it;
* `Tree.Parted`       no element is inside one that it must not be in, without a boundary between;
* `Core.Lineage`      all of this, `Move.lineage`;
* `after_parted`      **forbidden nestings never occur**.
-/

namespace HtmlTree

namespace Tree
variable {t u : Tree} {ids path inside outside : List NodeId} {id place : NodeId} {d : NodeData}

/-! ## lines of ancestors -/

theorem Within.parent? (h : t.Within u) (hid : id.index < t.size) :
    u.parent? id = t.parent? id := by
  obtain ⟨n, hn⟩ := exists_get?_of_lt hid
  obtain ⟨m, hm, hparent, _⟩ := h id n hn
  rw [parent?_of_get? hm, parent?_of_get? hn, hparent]

theorem Grown.lt_of_mem_ancestors (h : t.Grown) {a : NodeId} (ha : a ∈ t.ancestors id) :
    a.index < t.size := by
  have hanc := (mem_ancestors_iff h.acyclic h.parentsKnown).mp ha
  rcases Relation.TransGen.tail'_iff.mp hanc with ⟨c, _, hc⟩
  exact h.parentsKnown c a hc

theorem Within.ancestors (hw : t.Within u) (ht : t.Grown) (hu : u.Grown) (hid : id.index < t.size) :
    u.ancestors id = t.ancestors id := by
  -- on the index, which a parent has smaller
  induction hn : id.index using Nat.strongRecOn generalizing id with
  | ind n ih =>
    have hparent := hw.parent? hid
    cases hp : t.parent? id with
    | none =>
      rw [hp] at hparent
      unfold Tree.ancestors
      rw [ancestorsUpTo_of_none hp, ancestorsUpTo_of_none hparent]
    | some p =>
      rw [hp] at hparent
      have hlt := ht.parent_lt id p hp
      rw [ancestors_of_parent ht.acyclic ht.parentsKnown hp,
        ancestors_of_parent hu.acyclic hu.parentsKnown hparent,
        ih p.index (hn ▸ hlt) (by omega) rfl]

theorem Grown.ancestors_root (h : t.Grown) : t.ancestors .root = [] := by
  obtain ⟨children, hroot⟩ := h.root
  exact ancestorsUpTo_of_none (parent?_of_get? hroot)

theorem ancestors_attach_new (ht : t.Grown) (hp : place.index < t.size) (d : NodeData) :
    (t.attach place d).ancestors ⟨t.size⟩ = place :: t.ancestors place := by
  have hu := ht.attach (d := d) hp
  rw [ancestors_of_parent hu.acyclic hu.parentsKnown (parent?_attach_new t place d),
    (within_attach t place d).ancestors ht hu hp]

/-- the nodes that are not open and around open elements all the same -/
def PassedOver (t : Tree) (id : NodeId) : Prop :=
  id = .root ∨ t.isHtmlOneOf ["form", "head"] id = true

/-- these open elements are all on the path, but for nodes passed over -/
inductive Traces (t : Tree) : List NodeId → List NodeId → Prop
  | nil : Traces t [] []
  | keep {ids path : List NodeId} (id : NodeId) : Traces t ids path →
      Traces t (id :: ids) (id :: path)
  | skip {ids path : List NodeId} {id : NodeId} : t.PassedOver id → Traces t ids path →
      Traces t ids (id :: path)

/-- every open element is inside those that are open around it -/
def Rooted (t : Tree) : List NodeId → Prop
  | [] => True
  | id :: outside => t.Traces outside (t.ancestors id) ∧ t.Rooted outside

theorem PassedOver.within (hw : t.Within u) (h : t.PassedOver id) : u.PassedOver id :=
  h.imp_right (isHtmlOneOf_within hw)

theorem Traces.within (hw : t.Within u) (h : t.Traces ids path) : u.Traces ids path := by
  induction h with
  | nil => exact .nil
  | keep id _ ih => exact .keep id ih
  | skip hid _ ih => exact .skip (hid.within hw) ih

/-- no search ends at a node that is passed over -/
theorem PassedOver.not_searched (h : t.PassedOver id) (hg : t.Grown) (n : Nesting) :
    t.isHtml n.outer id = false ∧ t.elementSatisfies n.boundary id = false := by
  rcases h with rfl | h
  · have hroot : t.element? .root = none := by
      rw [← Option.map_eq_none_iff (f := fun e : Element => (e.ns, e.localName))]
      exact label?_root hg
    unfold isHtml elementSatisfies
    rw [hroot]
    exact ⟨rfl, rfl⟩
  · obtain ⟨name, hmem, hlabel⟩ := isHtmlOneOf_iff.mp h
    have hname := isHtml_iff.mpr hlabel
    have houter : ∀ name ∈ ["form", "head"], n.outer ≠ name := by cases n <;> decide
    have hbound : ∀ name ∈ ["form", "head"], name ∉ Nesting.boundaryNames := by decide
    exact ⟨isHtml_eq_false hname (houter name hmem),
      boundary_eq_false_of_isHtml n hname (hbound name hmem)⟩

theorem Traces.subset (h : t.Traces ids path) : ids ⊆ path := by
  induction h with
  | nil => exact List.Subset.refl _
  | keep id _ ih => exact List.cons_subset_cons id ih
  | skip _ _ ih => exact List.subset_cons_of_subset _ ih

/-- **A search of the path finds what one of the stack finds.** -/
theorem Traces.clear (h : t.Traces ids path) (hg : t.Grown) {n : Nesting} (hc : n.Clear t ids) :
    n.Clear t path := by
  unfold Nesting.Clear at *
  rw [← hc]
  clear hc
  induction h with
  | nil => rfl
  | keep id _ ih => rw [OpenElements.reaches, OpenElements.reaches, ih]
  | skip hid _ ih =>
    obtain ⟨htarget, hbound⟩ := hid.not_searched hg n
    rw [OpenElements.reaches_cons_of_passed htarget hbound, ih]

theorem Traces.erase (h : t.Traces ids path) (hid : t.PassedOver id) :
    t.Traces (ids.erase id) path := by
  induction h with
  | nil => exact .nil
  | @keep ids path x h ih =>
    by_cases hx : x = id
    · rw [hx, List.erase_cons_head]
      exact .skip hid h
    · rw [List.erase_cons_tail (by simp [hx])]
      exact .keep x ih
  | skip hx _ ih => exact .skip hx ih

/-! ## the stack -/

theorem Rooted.within (h : t.Rooted ids) (hw : t.Within u) (ht : t.Grown) (hu : u.Grown)
    (hids : ∀ id ∈ ids, id.index < t.size) : u.Rooted ids := by
  induction ids with
  | nil => trivial
  | cons x ids ih =>
    refine ⟨?_, ih h.2 fun y hy => hids y (List.mem_cons_of_mem _ hy)⟩
    rw [hw.ancestors ht hu (hids x List.mem_cons_self)]
    exact h.1.within hw

theorem Rooted.drop (h : t.Rooted (inside ++ outside)) : t.Rooted outside := by
  induction inside with
  | nil => exact h
  | cons x inside ih => exact ih h.2

theorem Rooted.tail (h : t.Rooted ids) : t.Rooted ids.tail := by
  cases ids with
  | nil => exact h
  | cons x ids => exact h.2

theorem Rooted.erase (h : t.Rooted ids) (hid : t.PassedOver id) : t.Rooted (ids.erase id) := by
  induction ids with
  | nil => exact h
  | cons x ids ih =>
    by_cases hx : x = id
    · rw [hx, List.erase_cons_head]
      exact h.2
    · rw [List.erase_cons_tail (by simp [hx])]
      exact ⟨h.1.erase hid, ih h.2⟩

/-- a new element is opened where the stack traces the path to it -/
theorem Rooted.opened (h : t.Rooted ids) (hg : t.Grown) (hids : ∀ id ∈ ids, id.index < t.size)
    (hp : place.index < t.size) (ht : t.Traces ids (place :: t.ancestors place)) (d : NodeData) :
    (t.attach place d).Rooted (⟨t.size⟩ :: ids) := by
  have hw := within_attach t place d
  refine ⟨?_, h.within hw hg (hg.attach hp) hids⟩
  rw [ancestors_attach_new hg hp]
  exact ht.within hw

/-- the current node and what is open around it -/
theorem Rooted.traces_current (h : t.Rooted ids) (hp : ids.head? = some place) :
    t.Traces ids (place :: t.ancestors place) := by
  obtain ⟨outside, rfl⟩ := List.head?_eq_some_iff.mp hp
  exact .keep place h.1

/-! ## elements apart -/

/-- no element is inside one that it must not be in, unless there is a boundary between the two -/
def Parted (t : Tree) : Prop :=
  ∀ (n : Nesting) id, t.isHtmlOneOf n.inner id = true → n.Clear t (t.ancestors id)

end Tree

namespace Core
variable {k k' : Core} {place id : NodeId} {e : Element} {token : Token} {byBody : Bool}

structure Lineage (k : Core) : Prop where
  rooted : k.tree.Rooted k.entries
  /-- `head` elements are in the `html` element -/
  head : ∀ head, k.tree.isHtml "head" head = true →
    ∃ html, k.tree.parent? head = some html ∧ k.tree.isHtml "html" html = true
  parted : k.tree.Parted

theorem new_lineage (options : Options) : (Constructor.new options).core.Lineage where
  rooted := trivial
  head := by
    rintro ⟨_ | i⟩ h <;> cases h
  parted := by
    rintro n ⟨_ | i⟩ h <;> cases h

/-! ## what every move keeps -/

/-- the head is in the only element that is open once the head is closed -/
theorem Lineage.traces_head (hl : k.Lineage) (hs : k.Sound) (hf : k.Framed) (hm : k.mode = .afterHead)
    (hp : k.head = some place) : k.tree.Traces k.entries (place :: k.tree.ancestors place) := by
  have hg := hs.bears.grown
  have hfits := hs.fits (hf.active_of_mode (by rw [hm]; rfl))
  rw [hm] at hfits
  have hname := hs.bears.head place hp
  obtain ⟨html, hparent, hhtml⟩ := hl.head place hname
  have hhead : k.tree.PassedOver place := Or.inr (Tree.isHtmlOneOf_of_isHtml hname (by decide))
  have hroot : k.tree.ancestors html = [.root] := by
    rw [Tree.ancestors_of_parent hg.acyclic hg.parentsKnown (hf.tree.html html hhtml),
      hg.ancestors_root]
  have hentries : k.entries = [html] := by
    have hstack : k.tree.Spells ["html"] k.entries := hfits.stack Mode.noConfusion
    obtain ⟨hnodup, _⟩ := k.outerMode.nodup_frame
    generalize k.entries = ids at hstack
    cases hstack with
    | @cons _ x _ _ hx hrest =>
      cases hrest
      have hmem := hf.tree.mem_outer hx
      rw [hf.tree.outer.eq_of_isHtml hnodup hmem (hf.tree.mem_outer hhtml) hx hhtml]
  rw [hentries, Tree.ancestors_of_parent hg.acyclic hg.parentsKnown hparent, hroot]
  exact .skip hhead (.keep html (.skip (Or.inl rfl) .nil))

/-- where an element arrives the stack traces the path to it -/
theorem Arrives.traces (h : k.Arrives place (.element e)) (hl : k.Lineage) (hs : k.Sound)
    (hf : k.Framed) : k.tree.Traces k.entries (place :: k.tree.ancestors place) := by
  cases h with
  | html hm =>
    have hg := hs.bears.grown
    have hfits := hs.fits (hf.active_of_mode (by rw [hm]; rfl))
    rw [hm] at hfits
    have hnil : k.entries = [] := hfits.stack Mode.noConfusion
    rw [hnil, hg.ancestors_root]
    exact .skip (Or.inl rfl) .nil
  | head _ hp | noscript _ hp | body _ hp => exact hl.rooted.traces_current hp
  | content hp =>
    rcases hp with ⟨_, hp⟩ | ⟨hm, hp⟩
    · exact hl.rooted.traces_current hp
    · exact hl.traces_head hs hf hm hp

end Core

variable {byBody : Bool} {token : Token} {k k' : Core}

theorem Move.rooted (hm : Move byBody token k k') (hl : k.Lineage) (hs : k.Sound) (hf : k.Framed) :
    k'.tree.Rooted k'.entries := by
  have hg := hs.bears.grown
  have hids := hs.bears.index_lt
  have hkept := hl.rooted.within hm.within hg (hm.sound hs).bears.grown hids
  have hopened : ∀ {place : NodeId} {e : Element}, k.Arrives place (.element e) →
      (k.tree.attach place (.element e)).Rooted (⟨k.tree.size⟩ :: k.entries) := fun harr =>
    hl.rooted.opened hg hids (harr.place_lt hs) (harr.traces hl hs hf) _
  cases hm with
  | doctype | noDoctype | comment | text | lengthen | merge | leaf | setForm | goto => exact hkept
  | openHtml hk he hroom => exact hopened (.html hk he hroom)
  | openHead hk hp he hroom => exact hopened (.head hk hp he hroom)
  | openNoscript hk hp he hroom => exact hopened (.noscript hk hp he hroom)
  | openBody hk hp he hroom => exact hopened (.body hk hp he hroom)
  | element _ hk hp hout hopens _ hnames =>
    exact hopened (.unbarred (Or.inl ⟨Mode.hostsElements_of_isBody hk, hp⟩) hout hopens hnames)
  | textOnly _ hp he hopens =>
    exact hopened (.ofNames hp (Or.inr he) hopens (by decide) (by decide))
  | closeNoscript | closeHead | leaveText => exact hl.rooted.tail
  | drop inside _ he =>
    have hrooted := hl.rooted
    rw [he] at hrooted
    exact hrooted.drop
  | closeFormatting _ _ _ _ he =>
    have hrooted := hl.rooted
    rw [he] at hrooted
    exact hrooted.2
  | closeSeal _ _ _ _ he =>
    have hrooted := hl.rooted
    rw [he] at hrooted
    exact hrooted.drop.2
  | removeForm _ hid =>
    exact hl.rooted.erase (Or.inr (Tree.isHtmlOneOf_of_isHtml hid (by decide)))
  | stop => trivial

/-- what arrives has no ancestor that it must not be in -/
theorem Move.parted (hm : Move byBody token k k') (hl : k.Lineage) (hs : k.Sound) (hf : k.Framed) :
    k'.tree.Parted := by
  have hg := hs.bears.grown
  have hg' := (hm.sound hs).bears.grown
  intro n id hid
  obtain ⟨e, he, hone⟩ := Tree.elementSatisfies_iff.mp hid
  rcases hm.element_cases he with ⟨e₀, he₀, hlike, _⟩ | ⟨place, rfl, hparent, harr⟩
  · have hold : k.tree.isHtmlOneOf n.inner id = true := by
      rw [Element.isHtmlOneOf, hlike.ns, hlike.localName] at hone
      exact Tree.elementSatisfies_iff.mpr ⟨e₀, he₀, hone⟩
    unfold Nesting.Clear
    rw [hm.within.ancestors hg hg' (Tree.index_lt_of_element? he₀),
      Tree.reaches_within hm.within fun x hx => hg.lt_of_mem_ancestors hx]
    exact hl.parted n id hold
  · have hp := harr.place_lt hs
    have hpath : ∀ x ∈ place :: k.tree.ancestors place, x.index < k.tree.size := fun x hx => by
      rcases List.mem_cons.mp hx with rfl | hx
      · exact hp
      · exact hg.lt_of_mem_ancestors hx
    unfold Nesting.Clear
    rw [Tree.ancestors_of_parent hg'.acyclic hg'.parentsKnown hparent,
      hm.within.ancestors hg hg' hp, Tree.reaches_within hm.within hpath]
    exact (harr.traces hl hs hf).clear hg (harr.room.clear n hone)

/-- the one `head` element arrives in the `html` element -/
theorem Move.head_inside (hm : Move byBody token k k') (hl : k.Lineage) (hs : k.Sound)
    (hf : k.Framed) (head : NodeId) (hname : k'.tree.isHtml "head" head = true) :
    ∃ html, k'.tree.parent? head = some html ∧ k'.tree.isHtml "html" html = true := by
  have hw := hm.within
  obtain ⟨e, he, hhead⟩ := Tree.elementSatisfies_iff.mp hname
  rcases hm.element_cases he with ⟨e₀, he₀, hlike, hparent⟩ | ⟨place, rfl, hparent, harr⟩
  · rw [Element.isHtml, hlike.ns, hlike.localName] at hhead
    obtain ⟨html, hpar, hhtml⟩ := hl.head head (Tree.elementSatisfies_iff.mpr ⟨e₀, he₀, hhead⟩)
    exact ⟨html, hparent.trans hpar, hw.isHtml hhtml⟩
  · have hother : ∀ {name : String}, e.isHtml name = true → name = "head" := fun h =>
      (Element.isHtml_iff.mp h).2.symm.trans (Element.isHtml_iff.mp hhead).2
    cases harr with
    | html _ he => exact absurd (hother he) (by decide)
    | noscript _ _ he => exact absurd (hother he) (by decide)
    | body _ _ he => exact absurd (hother he) (by decide)
    | content _ hout =>
      rw [Element.isHtmlOneOf_of_isHtml hhead (by decide)] at hout
      cases hout
    | head hk hp =>
      have hfits := hs.fits (hf.active_of_mode (by rw [hk]; rfl))
      rw [hk] at hfits
      have hhtml := Tree.Spells.isHtml_head (hfits.stack Mode.noConfusion) hp
      exact ⟨place, hparent, hw.isHtml hhtml⟩

/-- **Every move keeps the lineage.** -/
theorem Move.lineage (hm : Move byBody token k k') (hs : k.Sound) (hf : k.Framed) (hl : k.Lineage) :
    k'.Lineage :=
  ⟨hm.rooted hl hs hf, hm.head_inside hl hs hf, hm.parted hl hs hf⟩

/-! ## documents -/

namespace Tree
variable {t : Tree}

/-- between every HTML element of these names and each ancestor of the other name there is an
element with the property -/
def KeepsApart (t : Tree) (outer : String) (inner : List String) (boundary : Element → Bool) : Prop :=
  ∀ id ancestor between rest, t.isHtmlOneOf inner id = true → t.isHtml outer ancestor = true →
    t.ancestors id = between ++ ancestor :: rest → ∃ x ∈ between, t.elementSatisfies boundary x = true

theorem Parted.keepsApart (h : t.Parted) (n : Nesting) : t.KeepsApart n.outer n.inner n.boundary := by
  intro id ancestor between rest hid hancestor hsplit
  by_contra hno
  have hclear := h n id hid
  unfold Nesting.Clear at hclear
  rw [hsplit, OpenElements.reaches_of_split hancestor fun y hy => ?_] at hclear
  · cases hclear
  · rw [← Bool.not_eq_true]
    exact fun hb => hno ⟨y, hy, hb⟩

end Tree

/-- **Forbidden nestings never occur**, whatever calls were made: between a paragraph and a block in
it there is an element that bounds button scope, between two buttons and between two `nobr` elements
one that bounds scope, and between two anchors one that seals off. -/
theorem after_parted (options : Options) (calls : List Call) :
    let t := ((Constructor.new options).after calls).tree
    t.KeepsApart "p" (blockNames ++ headingNames ++
        ["pre", "listing", "form", "li", "dd", "dt", "plaintext", "hr", "xmp"])
      Scope.button.isBoundary ∧
    t.KeepsApart "button" ["button"] Scope.default.isBoundary ∧
    t.KeepsApart "nobr" ["nobr"] Scope.default.isBoundary ∧
    t.KeepsApart "a" ["a"] (·.isHtmlOneOf ["applet", "marquee", "object"]) := by
  have hl : ((Constructor.new options).after calls).core.Lineage :=
    Constructor.after_keeps options calls (Core.new_lineage options) fun hs hf hm h =>
      hm.lineage hs hf h
  exact ⟨hl.parted.keepsApart .paragraph, hl.parted.keepsApart .button,
    hl.parted.keepsApart .nobr, hl.parted.keepsApart .anchor⟩

end HtmlTree
