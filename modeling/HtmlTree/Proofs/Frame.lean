import HtmlTree.Proofs.Planted

/-!
# The frame of a document

A document is framed by its `html` element, in it the `head` and after that the `body`.  Which of
them are there depends on the mode alone.  Once they are, nothing else is put beside them: elements
go into the head, into the body or into what is open inside these.

* `Mode.frame`        the elements of the frame that are there in a mode;
* `Tree.Framed`       a planted tree with this frame, and no other elements of these names;
* `Core.Framed`       the same of a core, by the mode that it is in or returns to from a text;
* `Move.framed`       every move keeps it;
* `Tree.Complete`     the whole frame, which is there when parsing stops.
-/

namespace HtmlTree

/-! ## the elements of a frame -/

/-- the elements among the children of a node -/
def Tree.elementChildren (t : Tree) (id : NodeId) : List NodeId :=
  (t.children id).filter (t.isKind .element)

/-- the names of the elements under the root and under the `html` element in a mode -/
def Mode.frame : Mode → List String × List String
  | beforeHead => (["html"], [])
  | inHead | inHeadNoscript | afterHead => (["html"], ["head"])
  | inBody | afterBody | afterAfterBody => (["html"], ["head", "body"])
  | _ => ([], [])

theorem Mode.frame_of_isBody {m : Mode} (h : m.isBody = true) :
    m.frame = (["html"], ["head", "body"]) := by
  cases m <;> first | rfl | cases h

theorem Mode.of_hostsElements {m : Mode} (h : m.hostsElements = true) :
    m = .inHead ∨ m = .inHeadNoscript ∨ m.isBody = true := by
  cases m <;> first | exact Or.inl rfl | exact Or.inr (Or.inl rfl) | exact Or.inr (Or.inr h)

theorem Mode.nodup_frame (m : Mode) : m.frame.1.Nodup ∧ m.frame.2.Nodup := by
  cases m <;> decide

namespace Tree

structure Framed (t : Tree) (outer inner : List String) : Prop where
  planted : t.Planted
  outer : t.Spells outer (t.elementChildren .root)
  inner : ∀ html ∈ t.elementChildren .root, t.Spells inner (t.elementChildren html)
  /-- there are no other `html` elements -/
  html : ∀ id, t.isHtml "html" id = true → t.parent? id = some .root
  /-- and no other `body` elements -/
  body : ∀ id, t.isHtml "body" id = true →
    ∃ html, t.parent? id = some html ∧ t.isHtml "html" html = true

/-- the root has one element, `html`, and this has two, `head` and after it `body` -/
def Complete (t : Tree) : Prop :=
  ∃ html head body, t.elementChildren .root = [html] ∧ t.isHtml "html" html = true ∧
    t.elementChildren html = [head, body] ∧ t.isHtml "head" head = true ∧
    t.isHtml "body" body = true

variable {t u : Tree} {outer inner names : List String} {name : String} {ids : List NodeId}
  {place id x y : NodeId} {d : NodeData} {e : Element}

theorem mem_elementChildren :
    x ∈ t.elementChildren id ↔ x ∈ t.children id ∧ t.isKind .element x = true := List.mem_filter

theorem isKind_of_isHtml (h : t.isHtml name id = true) : t.isKind .element id = true := by
  obtain ⟨e, he, _⟩ := Option.map_eq_some_iff.mp (isHtml_iff.mp h)
  obtain ⟨n, hn, hd⟩ := exists_of_element? he
  rw [isKind_of_get? hn]
  unfold Node.kind
  rw [hd]
  rfl

/-- of different names each is spelled once -/
theorem Spells.eq_of_isHtml (h : t.Spells names ids) (hnd : names.Nodup) (hx : x ∈ ids)
    (hy : y ∈ ids) (hxn : t.isHtml name x = true) (hyn : t.isHtml name y = true) : x = y := by
  have one : ∀ {a b : String} {z : NodeId}, t.isHtml a z = true → t.isHtml b z = true → a = b := by
    intro a b z ha hb
    have hl := (isHtml_iff.mp ha).symm.trans (isHtml_iff.mp hb)
    exact congrArg Prod.snd (Option.some.inj hl)
  induction h with
  | nil => cases hx
  | @cons first z rest ids hz hrest ih =>
    obtain ⟨hnot, hnd⟩ := List.nodup_cons.mp hnd
    -- the first name is not among the others, so the two are both first or both later
    have hlater : ∀ w ∈ ids, t.isHtml name w = true → name ≠ first := by
      rintro w hw hwn rfl
      obtain ⟨other, ho, hwo⟩ := Spells.mem hrest hw
      exact hnot (one hwn hwo ▸ ho)
    rcases List.mem_cons.mp hx with hx | hx <;> rcases List.mem_cons.mp hy with hy | hy
    · rw [hx, hy]
    · exact absurd (one hxn (hx ▸ hz)) (hlater y hy hyn)
    · exact absurd (one hyn (hy ▸ hz)) (hlater x hx hxn)
    · exact ih hnd hx hy

namespace Framed

theorem mem_outer (h : t.Framed outer inner) (hid : t.isHtml "html" id = true) :
    id ∈ t.elementChildren .root :=
  mem_elementChildren.mpr ⟨h.planted.listed id _ (h.html id hid), isKind_of_isHtml hid⟩

/-- an `html` element is the one of the document -/
theorem htmlElement? (h : t.Framed outer inner) (hnd : outer.Nodup)
    (hid : t.isHtml "html" id = true) : t.htmlElement? = some id := by
  have hmem := h.mem_outer hid
  cases hf : t.htmlElement? with
  | none => exact absurd hid (List.find?_eq_none.mp hf id (mem_elementChildren.mp hmem).1)
  | some x =>
    have hx : t.isHtml "html" x = true := List.find?_some hf
    rw [h.outer.eq_of_isHtml hnd hmem (h.mem_outer hx) hid hx]

theorem bodyElement? (h : t.Framed outer inner) (hnd : outer.Nodup) (hnd' : inner.Nodup)
    (hid : t.isHtml "body" id = true) : t.bodyElement? = some id := by
  obtain ⟨html, hp, hhtml⟩ := h.body id hid
  refine Option.bind_eq_some_iff.mpr ⟨html, h.htmlElement? hnd hhtml, ?_⟩
  have hmem := h.planted.listed id html hp
  cases hf : (t.children html).find? (t.isHtml "body") with
  | none => exact absurd hid (List.find?_eq_none.mp hf id hmem)
  | some x =>
    have hx : t.isHtml "body" x = true := List.find?_some hf
    have hxmem : x ∈ t.elementChildren html :=
      mem_elementChildren.mpr ⟨List.mem_of_find?_eq_some hf, isKind_of_isHtml hx⟩
    have hidmem : id ∈ t.elementChildren html :=
      mem_elementChildren.mpr ⟨hmem, isKind_of_isHtml hid⟩
    rw [(h.inner html (h.mem_outer hhtml)).eq_of_isHtml hnd' hidmem hxmem hid hx]

theorem complete (h : t.Framed ["html"] ["head", "body"]) : t.Complete := by
  have houter := h.outer
  have hinner := h.inner
  cases hroot : t.elementChildren .root with
  | nil =>
    rw [hroot] at houter
    cases houter
  | cons html rest =>
    rw [hroot] at houter hinner
    cases houter with
    | cons hhtml hrest =>
      cases hrest
      have hkids := hinner html List.mem_cons_self
      generalize hids : t.elementChildren html = ids at hkids
      cases hkids with
      | cons hhead hkids =>
        cases hkids with
        | cons hbody hkids =>
          cases hkids
          exact ⟨html, _, _, hroot, hhtml, hids, hhead, hbody⟩

end Framed

/-! ## growth -/

theorem elementChildren_congr (hc : u.children id = t.children id)
    (hk : ∀ c ∈ t.children id, u.isKind .element c = t.isKind .element c) :
    u.elementChildren id = t.elementChildren id := by
  unfold elementChildren
  rw [hc]
  exact List.filter_congr hk

theorem elementChildren_attach (hg : t.Grown) (hp : place.index < t.size) (d : NodeData)
    (id : NodeId) : (t.attach place d).elementChildren id =
      t.elementChildren id ++ if id = place ∧ d.kind = .element then [⟨t.size⟩] else [] := by
  have hold : (t.children id).filter ((t.attach place d).isKind .element) = t.elementChildren id :=
    List.filter_congr fun c hc => isKind_within (within_attach t place d) _ (hg.child_lt hc)
  have hnew : (t.attach place d).isKind .element ⟨t.size⟩ = (d.kind == .element) :=
    isKind_of_get? (get?_attach_new t place d)
  unfold elementChildren at hold ⊢
  rw [children_attach hp, List.filter_append, hold]
  congr 1
  by_cases hid : id = place
  · by_cases hd : d.kind = .element
    · simp [hid, hd, hnew]
    · simp [hid, hd, hnew]
  · simp [hid]

/-- an element of this name was there, or it is the new node -/
theorem isHtml_of_attach (h : (t.attach place d).isHtml name id = true) :
    id = ⟨t.size⟩ ∧ d.label? = some (.html, name) ∨ t.isHtml name id = true := by
  have hl := isHtml_iff.mp h
  have hlt : id.index < t.size + 1 := by
    rw [← size_attach t place d]
    exact index_lt_of_label? (by rw [hl]; rfl)
  by_cases hnew : id.index = t.size
  · have hid : id = ⟨t.size⟩ := NodeId.ext_index hnew
    rw [hid, label?_attach_new] at hl
    exact Or.inl ⟨hid, hl⟩
  · rw [(within_attach t place d).label? (by omega)] at hl
    exact Or.inr (isHtml_iff.mpr hl)

theorem Framed.setMode (h : t.Framed outer inner) (m : DocumentMode) :
    (t.setMode m).Framed outer inner :=
  ⟨h.planted.setMode m, h.outer, h.inner, h.html, h.body⟩

theorem isKind_modifyData {f : NodeData → NodeData} (hk : ∀ d, (f d).kind = d.kind) (t : Tree)
    (id : NodeId) (kind : NodeKind) : (t.modifyData id f).isKind kind = t.isKind kind := by
  funext other
  unfold isKind kind? modifyData
  rw [get?_modify]
  split
  · cases t.get? other with
    | none => rfl
    | some n => exact congrArg (fun k => some k == some kind) (hk n.data)
  · rfl

theorem Framed.modifyData (h : t.Framed outer inner) {f : NodeData → NodeData}
    (hf : f .document = .document) (hk : ∀ d, (f d).kind = d.kind)
    (hl : ∀ d, (f d).label? = d.label?) (id : NodeId) :
    (t.modifyData id f).Framed outer inner := by
  have hkids : ∀ x, (t.modifyData id f).elementChildren x = t.elementChildren x := fun x =>
    elementChildren_congr (children_modifyData t id x f) fun c _ => by rw [isKind_modifyData hk]
  have hhtml := fun name => isHtml_modifyData hl t id name
  have hspells : ∀ names ids, t.Spells names ids → (t.modifyData id f).Spells names ids :=
    fun names ids hs => hs.within (within_modifyData t id hk hl)
  refine ⟨h.planted.modifyData hf id, ?_, fun html hmem => ?_, fun x hx => ?_, fun x hx => ?_⟩
  · rw [hkids]
    exact hspells _ _ h.outer
  · rw [hkids] at hmem ⊢
    exact hspells _ _ (h.inner html hmem)
  · rw [hhtml] at hx
    rw [parent?_modifyData]
    exact h.html x hx
  · rw [hhtml] at hx
    obtain ⟨html, hp, hn⟩ := h.body x hx
    exact ⟨html, by rw [parent?_modifyData]; exact hp, by rw [hhtml]; exact hn⟩

/-- a new node that has neither name and is no element of the frame -/
theorem Framed.attach_inside (h : t.Framed outer inner) (hp : place.index < t.size)
    (hd : d.label? ≠ some (.html, "html") ∧ d.label? ≠ some (.html, "body"))
    (hside : d.kind = .element → place ≠ .root ∧ place ∉ t.elementChildren .root) :
    (t.attach place d).Framed outer inner := by
  have hg := h.planted.grown
  have hw := within_attach t place d
  have hkids : ∀ x, x = .root ∨ x ∈ t.elementChildren .root →
      (t.attach place d).elementChildren x = t.elementChildren x := by
    intro x hx
    have hno : ¬ (x = place ∧ d.kind = .element) := by
      rintro ⟨rfl, hel⟩
      exact hx.elim (hside hel).1 (hside hel).2
    rw [elementChildren_attach hg hp, if_neg hno, List.append_nil]
  have hold : ∀ x name, t.isHtml name x = true → (t.attach place d).parent? x = t.parent? x :=
    fun x name hx => parent?_attach (index_lt_of_label? (label?_isSome_of_isHtml hx))
  refine ⟨h.planted.attach hp d, ?_, fun html hmem => ?_, fun x hx => ?_, fun x hx => ?_⟩
  · rw [hkids .root (Or.inl rfl)]
    exact h.outer.within hw
  · rw [hkids .root (Or.inl rfl)] at hmem
    rw [hkids html (Or.inr hmem)]
    exact (h.inner html hmem).within hw
  · rcases isHtml_of_attach hx with ⟨_, hl⟩ | hx
    · exact absurd hl hd.1
    · rw [hold x _ hx]
      exact h.html x hx
  · rcases isHtml_of_attach hx with ⟨_, hl⟩ | hx
    · exact absurd hl hd.2
    · obtain ⟨html, hpar, hn⟩ := h.body x hx
      rw [hold x _ hx]
      exact ⟨html, hpar, hw.isHtml hn⟩

theorem label?_element_iff :
    (NodeData.element e).label? = some (.html, name) ↔ e.ns = .html ∧ e.localName = name := by
  show some (e.ns, e.localName) = some (.html, name) ↔ _
  rw [Option.some.injEq, Prod.mk.injEq]

theorem label?_of_isHtml (h : e.isHtml name = true) :
    (NodeData.element e).label? = some (.html, name) := by
  unfold Element.isHtml at h
  rw [Bool.and_eq_true, beq_iff_eq, beq_iff_eq] at h
  exact label?_element_iff.mpr h

/-- the `html` element begins the frame -/
theorem Framed.attach_html (h : t.Framed [] []) (he : e.isHtml "html" = true) :
    (t.attach .root (.element e)).Framed ["html"] [] := by
  have hg := h.planted.grown
  have hp := hg.root_lt
  have hnone : t.elementChildren .root = [] := List.forall₂_nil_left_iff.mp h.outer
  have hfresh : ∀ name x, name = "html" ∨ name = "body" → t.isHtml name x = true → False := by
    intro name x hname hx
    rcases hname with rfl | rfl
    · have hmem := h.mem_outer hx
      rw [hnone] at hmem
      cases hmem
    · obtain ⟨html, _, hn⟩ := h.body x hx
      have hmem := h.mem_outer hn
      rw [hnone] at hmem
      cases hmem
  have houter : (t.attach .root (.element e)).elementChildren .root = [⟨t.size⟩] := by
    rw [elementChildren_attach hg hp, hnone, if_pos ⟨rfl, rfl⟩]
    rfl
  refine ⟨h.planted.attach hp _, ?_, fun html hmem => ?_, fun x hx => ?_, fun x hx => ?_⟩
  · rw [houter]
    exact .cons (isHtml_attach_new he) .nil
  · rw [houter] at hmem
    have hunknown : t.children ⟨t.size⟩ = [] := children_of_le (Nat.le_refl t.size)
    have hne : (⟨t.size⟩ : NodeId) ≠ .root := fun e => by
      rw [← e] at hp
      exact Nat.lt_irrefl _ hp
    have hinner : (t.attach .root (.element e)).elementChildren ⟨t.size⟩ = [] := by
      rw [elementChildren_attach hg hp, if_neg fun hc => hne hc.1, List.append_nil]
      unfold elementChildren
      rw [hunknown]
      rfl
    rw [List.mem_singleton.mp hmem, hinner]
    exact .nil
  · rcases isHtml_of_attach hx with ⟨rfl, _⟩ | hx
    · exact parent?_attach_new t .root _
    · exact (hfresh _ x (Or.inl rfl) hx).elim
  · rcases isHtml_of_attach hx with ⟨_, hl⟩ | hx
    · rw [label?_of_isHtml he] at hl
      exact absurd (congrArg Prod.snd (Option.some.inj hl)) (by decide)
    · exact (hfresh _ x (Or.inr rfl) hx).elim

/-- the frame goes on inside the `html` element -/
theorem Framed.attach_child (h : t.Framed ["html"] inner) (hplace : t.isHtml "html" place = true)
    (he : e.isHtml name = true) (hname : name ≠ "html") :
    (t.attach place (.element e)).Framed ["html"] (inner ++ [name]) := by
  have hg := h.planted.grown
  have hw := within_attach t place (.element e)
  have hlabel := label?_isSome_of_isHtml hplace
  have hp := index_lt_of_label? hlabel
  have houter : (t.attach place (.element e)).elementChildren .root = t.elementChildren .root := by
    rw [elementChildren_attach hg hp, if_neg fun hc => hg.ne_root hlabel hc.1.symm, List.append_nil]
  have hold : ∀ x name, t.isHtml name x = true →
      (t.attach place (.element e)).parent? x = t.parent? x :=
    fun x name hx => parent?_attach (index_lt_of_label? (label?_isSome_of_isHtml hx))
  refine ⟨h.planted.attach hp _, ?_, fun html hmem => ?_, fun x hx => ?_, fun x hx => ?_⟩
  · rw [houter]
    exact h.outer.within hw
  · rw [houter] at hmem
    obtain ⟨_, hn, hhtml⟩ := h.outer.mem hmem
    rw [List.mem_singleton.mp hn] at hhtml
    -- there is one `html` element only, so the child is new under the one that is asked about
    have hone : html = place :=
      h.outer.eq_of_isHtml (List.nodup_singleton _) hmem (h.mem_outer hplace) hhtml hplace
    rw [hone, elementChildren_attach hg hp, if_pos ⟨rfl, rfl⟩]
    exact List.rel_append ((h.inner place (h.mem_outer hplace)).within hw)
      (.cons (isHtml_attach_new he) .nil)
  · rcases isHtml_of_attach hx with ⟨_, hl⟩ | hx
    · rw [label?_of_isHtml he] at hl
      exact absurd (congrArg Prod.snd (Option.some.inj hl)) hname
    · rw [hold x _ hx]
      exact h.html x hx
  · rcases isHtml_of_attach hx with ⟨rfl, _⟩ | hx
    · exact ⟨place, parent?_attach_new t place _, hw.isHtml hplace⟩
    · obtain ⟨html, hpar, hn⟩ := h.body x hx
      rw [hold x _ hx]
      exact ⟨html, hpar, hw.isHtml hn⟩

end Tree

/-! ## the frame of a core -/

namespace Core
variable {k : Core} {place id : NodeId} {ids : List NodeId} {u : Tree}

/-- the mode that the frame belongs to: in a text the one to return to -/
def outerMode (k : Core) : Mode := k.originalMode.getD k.mode

structure Framed (k : Core) : Prop where
  tree : k.tree.Framed k.outerMode.frame.1 k.outerMode.frame.2
  stopped : k.stopped = true → k.entries = [] ∧ k.originalMode = none ∧ k.mode.isBody = true

theorem new_framed (options : Options) : (Constructor.new options).core.Framed where
  tree := by
    refine ⟨Tree.Planted.new, .nil, fun _ h => (nomatch h), fun id h => ?_, fun id h => ?_⟩
    all_goals
      obtain ⟨_ | i⟩ := id <;> exact Bool.noConfusion h
  stopped := fun h => Bool.noConfusion h

theorem Framed.active_of_current (hf : k.Framed) (h : k.entries.head? = some id) :
    k.stopped = false := by
  cases hs : k.stopped with
  | false => rfl
  | true =>
    rw [(hf.stopped hs).1] at h
    cases h

theorem Framed.active_of_mode (hf : k.Framed) (h : k.mode.isBody = false) : k.stopped = false := by
  cases hs : k.stopped with
  | false => rfl
  | true =>
    rw [(hf.stopped hs).2.2] at h
    cases h

theorem Framed.original_none (hf : k.Framed) (hs : k.Sound) (hm : k.mode ≠ .text) :
    k.originalMode = none := by
  cases hstop : k.stopped with
  | false => exact (hs.fits hstop).original_none hm
  | true => exact (hf.stopped hstop).2.1

/-- outside texts the frame is that of the mode -/
theorem Framed.of_mode (hf : k.Framed) (hs : k.Sound) {m : Mode} (hk : k.mode = m)
    (hm : m ≠ .text) : k.tree.Framed m.frame.1 m.frame.2 := by
  have htree := hf.tree
  unfold outerMode at htree
  rwa [hf.original_none hs (hk ▸ hm), hk] at htree

/-- the document grows inside its frame -/
theorem Framed.grow (hf : k.Framed) (h : u.Framed k.outerMode.frame.1 k.outerMode.frame.2) :
    ({ k with tree := u } : Core).Framed := ⟨h, hf.stopped⟩

theorem Framed.cut (hf : k.Framed) (hsub : ids.Sublist k.entries) :
    ({ k with entries := ids } : Core).Framed where
  tree := hf.tree
  stopped := fun h => by
    obtain ⟨he, hrest⟩ := hf.stopped h
    rw [he] at hsub
    exact ⟨List.sublist_nil.mp hsub, hrest⟩

/-- while tokens are taken only the tree matters -/
theorem Framed.running {k' : Core} (hs : k'.stopped = false)
    (h : k'.tree.Framed k'.outerMode.frame.1 k'.outerMode.frame.2) : k'.Framed where
  tree := h
  stopped := fun h => by
    rw [hs] at h
    cases h

/-- a mode outside texts, with its frame -/
theorem Framed.onto {k' : Core} {m : Mode} (hm : k'.mode = m) (ho : k'.originalMode = none)
    (hs : k'.stopped = false) (h : k'.tree.Framed m.frame.1 m.frame.2) : k'.Framed := by
  refine .running hs ?_
  unfold outerMode
  rw [ho, Option.getD_none, hm]
  exact h

/-! ### where elements go -/

end Core

namespace Tree
variable {t : Tree} {ids : List NodeId} {id place : NodeId} {name : String} {names : List String}

theorem isHtml_eq_false {other : String} (h : t.isHtml name id = true) (hne : other ≠ name) :
    t.isHtml other id = false := by
  rw [← isHtmlOneOf_singleton]
  exact isHtmlOneOf_eq_false h fun hm => hne (List.mem_singleton.mp hm).symm

theorem Spells.isHtml_head (h : t.Spells (name :: names) ids) (hid : ids.head? = some id) :
    t.isHtml name id = true := by
  cases h with
  | cons hx _ =>
    cases hid
    exact hx

/-- the innermost element of a body is not the document element -/
theorem BodyStack.head_not_html (h : t.BodyStack ids) (hid : ids.head? = some id) :
    t.isHtml "html" id = false := by
  obtain ⟨inner, outer, rfl, hs, hn⟩ := h
  cases inner with
  | nil => exact isHtml_eq_false (hs.isHtml_head hid) (by decide)
  | cons x inner =>
    cases hid
    rw [← isHtmlOneOf_singleton]
    have hout := hn id List.mem_cons_self
    exact isHtmlOneOf_subset (by decide) hout

end Tree

namespace Core
variable {k : Core} {place : NodeId}

/-- the current node is inside the frame where elements go to it -/
theorem Sound.current_not_html (hs : k.Sound) (hactive : k.stopped = false)
    (hm : k.mode.hostsElements = true) (hp : k.entries.head? = some place) :
    k.tree.isHtml "html" place = false := by
  have hf := hs.fits hactive
  rcases Mode.of_hostsElements hm with hk | hk | hbody
  · rw [hk] at hf
    exact Tree.isHtml_eq_false (Tree.Spells.isHtml_head (hf.stack Mode.noConfusion) hp) (by decide)
  · rw [hk] at hf
    exact Tree.isHtml_eq_false (Tree.Spells.isHtml_head (hf.stack Mode.noConfusion) hp) (by decide)
  · exact (hf.bodyStack hbody).head_not_html hp

theorem Sound.takesComment_lt (hs : k.Sound) (h : k.TakesComment place) :
    place.index < k.tree.size := by
  rcases h with h | ⟨_, h⟩ | ⟨_, rfl⟩
  · exact Tree.index_lt_of_label? (hs.current h)
  · exact Tree.index_lt_of_label? (hs.bears.element _ (List.mem_of_getLast? h))
  · exact hs.bears.grown.root_lt

/-- an element never goes to the root or to the document element once these have theirs -/
theorem Framed.beside (hf : k.Framed) (hs : k.Sound) (hl : (k.tree.label? place).isSome = true)
    (hn : k.tree.isHtml "html" place = false) :
    place ≠ .root ∧ place ∉ k.tree.elementChildren .root := by
  refine ⟨hs.bears.grown.ne_root hl, fun hmem => ?_⟩
  have houter : ∀ name ∈ k.outerMode.frame.1, name = "html" := by
    cases k.outerMode <;> decide
  obtain ⟨name, hname, hid⟩ := hf.tree.outer.mem hmem
  rw [houter name hname, hn] at hid
  cases hid

theorem Framed.takesElement (hf : k.Framed) (hs : k.Sound) (h : k.TakesElement place) :
    k.stopped = false ∧ place ≠ .root ∧ place ∉ k.tree.elementChildren .root := by
  have hl := hs.takesElement h
  rcases h with ⟨hm, hp⟩ | ⟨hm, hp⟩
  · have hactive := hf.active_of_current hp
    exact ⟨hactive, hf.beside hs hl (hs.current_not_html hactive hm hp)⟩
  · have hhead := hs.bears.head place hp
    refine ⟨hf.active_of_mode (by rw [hm]; rfl), hf.beside hs hl ?_⟩
    exact Tree.isHtml_eq_false hhead (by decide)

end Core

/-! ## every move keeps the frame -/

/-- an element with another name or of another namespace -/
theorem Element.label?_ne {e : Element} {names : List String}
    (h : e.ns ≠ .html ∨ e.isHtmlOneOf names = true) (hn : "html" ∉ names ∧ "body" ∉ names) :
    (NodeData.element e).label? ≠ some (.html, "html") ∧
      (NodeData.element e).label? ≠ some (.html, "body") := by
  have hne : ∀ name, name ∉ names → (NodeData.element e).label? ≠ some (.html, name) := by
    intro name hname hl
    have he := Tree.label?_element_iff.mp hl
    rcases h with h | h
    · exact h he.1
    · unfold isHtmlOneOf at h
      rw [he.2, List.contains_eq_mem, decide_eq_false hname, Bool.and_false] at h
      cases h
  exact ⟨hne _ hn.1, hne _ hn.2⟩

theorem Element.label?_ne_of_inner {e : Element} (h : e.isHtmlOneOf outerNames = false) :
    (NodeData.element e).label? ≠ some (.html, "html") ∧
      (NodeData.element e).label? ≠ some (.html, "body") := by
  have hne : ∀ name ∈ outerNames, (NodeData.element e).label? ≠ some (.html, name) := by
    intro name hname hl
    have he := Tree.label?_element_iff.mp hl
    unfold isHtmlOneOf at h
    rw [he.1, he.2, List.contains_eq_mem, decide_eq_true hname] at h
    cases h
  exact ⟨hne _ (by decide), hne _ (by decide)⟩

variable {byBody : Bool} {token : Token} {k k' : Core}

/-- **Every move keeps the frame.** -/
theorem Move.framed (hm : Move byBody token k k') (hs : k.Sound) (hf : k.Framed) : k'.Framed := by
  have hg := hs.bears.grown
  -- a mode of its own has the frame of the tree as it is
  have hmode : ∀ {m : Mode}, k.mode = m → m ≠ .text → m.isBody = false →
      k.tree.Framed m.frame.1 m.frame.2 ∧ k.originalMode = none ∧ k.stopped = false :=
    fun hk ht hb => ⟨hf.of_mode hs hk ht, hf.original_none hs (hk ▸ ht),
      hf.active_of_mode (hk ▸ hb)⟩
  cases hm with
  | doctype d m hk =>
    obtain ⟨htree, ho, hstop⟩ := hmode hk (by decide) rfl
    refine .onto rfl ho hstop (Tree.Framed.setMode ?_ m)
    exact htree.attach_inside hg.root_lt ⟨nofun, nofun⟩ nofun
  | noDoctype m hk =>
    obtain ⟨htree, ho, hstop⟩ := hmode hk (by decide) rfl
    exact .onto rfl ho hstop (htree.setMode m)
  | openHtml hk he =>
    obtain ⟨htree, ho, hstop⟩ := hmode hk (by decide) rfl
    exact .onto rfl ho hstop (htree.attach_html he)
  | openHead hk hp he =>
    obtain ⟨htree, ho, hstop⟩ := hmode hk (by decide) rfl
    have hfits := hs.fits hstop
    rw [hk] at hfits
    have hhtml := Tree.Spells.isHtml_head (hfits.stack Mode.noConfusion) hp
    exact .onto rfl ho hstop (htree.attach_child hhtml he (by decide))
  | openNoscript hk hp he =>
    obtain ⟨htree, ho, hstop⟩ := hmode hk (by decide) rfl
    have hplace := hf.takesElement hs (Or.inl ⟨by rw [hk]; rfl, hp⟩)
    have hlt := Tree.index_lt_of_label? (hs.current hp)
    refine .onto rfl ho hstop (htree.attach_inside hlt ?_ fun _ => hplace.2)
    rw [Tree.label?_of_isHtml he]
    decide
  | closeNoscript hk =>
    obtain ⟨htree, ho, hstop⟩ := hmode hk (by decide) rfl
    exact .onto rfl ho hstop htree
  | closeHead hk =>
    obtain ⟨htree, ho, hstop⟩ := hmode hk (by decide) rfl
    exact .onto rfl ho hstop htree
  | openBody hk hp he =>
    obtain ⟨htree, ho, hstop⟩ := hmode hk (by decide) rfl
    have hfits := hs.fits hstop
    rw [hk] at hfits
    have hhtml := Tree.Spells.isHtml_head (hfits.stack Mode.noConfusion) hp
    exact .onto rfl ho hstop (htree.attach_child hhtml he (by decide))
  | comment _ hp =>
    exact hf.grow (hf.tree.attach_inside (hs.takesComment_lt hp) ⟨nofun, nofun⟩ nofun)
  | text ch _ hp =>
    exact hf.grow (hf.tree.attach_inside (Tree.index_lt_of_label? (hs.current hp))
      ⟨nofun, nofun⟩ nofun)
  | lengthen ch =>
    exact hf.grow <|
      hf.tree.modifyData rfl (NodeData.kind_lengthen ch) (NodeData.label?_lengthen ch) _
  | merge given =>
    exact hf.grow <|
      hf.tree.modifyData rfl (NodeData.kind_merge given) (NodeData.label?_merge given) _
  | leaf hp he =>
    obtain ⟨_, hplace⟩ := hf.takesElement hs hp
    exact hf.grow (hf.tree.attach_inside (Tree.index_lt_of_label? (hs.takesElement hp))
      (Element.label?_ne he (by decide)) fun _ => hplace)
  | element _ hk hp he =>
    obtain ⟨hstop, hplace⟩ := hf.takesElement hs (Or.inl ⟨Mode.hostsElements_of_isBody hk, hp⟩)
    refine .running hstop (hf.tree.attach_inside ?_ (Element.label?_ne_of_inner he) fun _ => hplace)
    exact Tree.index_lt_of_label? (hs.current hp)
  | textOnly hk hp he =>
    obtain ⟨hstop, hplace⟩ := hf.takesElement hs hp
    have htree := hf.of_mode hs rfl (Mode.hostsText_facts hk).1
    refine .running hstop (htree.attach_inside ?_ ?_ fun _ => hplace)
    · exact Tree.index_lt_of_label? (hs.takesElement hp)
    · exact Element.label?_ne (Or.inr he) (by decide)
  | @leaveText m hk ho hm =>
    have htree := hf.tree
    unfold Core.outerMode at htree
    rw [ho] at htree
    exact .onto rfl rfl (hf.active_of_mode (by rw [hk]; rfl)) htree
  | drop inside _ he => exact hf.cut (he ▸ List.sublist_append_right _ _)
  | closeFormatting _ _ _ _ he => exact hf.cut (he ▸ List.sublist_cons_self _ _)
  | closeSeal _ _ _ _ he =>
    exact hf.cut (he ▸ (List.sublist_cons_self _ _).trans (List.sublist_append_right _ _))
  | removeForm => exact hf.cut List.erase_sublist
  | setForm => exact ⟨hf.tree, hf.stopped⟩
  | goto hk hm =>
    have ho := hf.original_none hs (Mode.isBody_facts hk).1
    have htree := hf.of_mode hs rfl (Mode.isBody_facts hk).1
    rw [Mode.frame_of_isBody hk, ← Mode.frame_of_isBody hm] at htree
    refine ⟨?_, fun h => ⟨(hf.stopped h).1, ho, hm⟩⟩
    unfold Core.outerMode
    rw [ho]
    exact htree
  | stop _ hk =>
    exact ⟨hf.tree, fun _ => ⟨rfl, hf.original_none hs (Mode.isBody_facts hk).1, hk⟩⟩

end HtmlTree
