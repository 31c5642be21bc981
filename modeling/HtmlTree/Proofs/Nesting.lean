import HtmlTree.Proofs.Core

/-!
# Nesting

Which element may stand in which is a matter of two things: the namespaces of parent and child, and
what else is open.  HTML goes where foreign content ends, foreign elements into their own namespace;
a block never goes into a paragraph, nor a button, `nobr` or anchor into another, unless an element
in between bounds the search for it.  Elements are opened on these conditions only, so every open
element meets them where it stands.

* `Element.mayHold`     what may be directly inside an element;
* `Nesting`             the elements that must not be in one another, and what lets them be;
* `Tree.HasRoom`        the conditions on which an element is opened inside those that are open;
* `Tree.Nested`         every open element has met them;
* `Tree.Retains`        a later tree in which the answers are the same;
* `Nested.retained`, `Nested.drop`, `Nested.erase`   what becomes of the stack keeps it nested;
* `Core.Sound`          a coherent core whose stack is nested.
-/

namespace HtmlTree

/-! ## parent and child -/

namespace Element

def isAnnotation (e : Element) : Bool := e.ns == .mathMl && e.localName == "annotation-xml"

/-- whether `e` may be a child of `p`: HTML where foreign content ends, a foreign element inside its
own namespace, the outermost one where HTML may be and `svg` in an annotation as well -/
def mayHold (p e : Element) : Bool :=
  match e.ns with
  | .html => p.endsForeignContent
  | .svg =>
    p.ns == .svg || e.localName == "svg" && (p.endsForeignContent || p.isAnnotation)
  | .mathMl => p.ns == .mathMl || e.localName == "math" && p.endsForeignContent
  | _ => false

/-- the same element but for the attributes of HTML, which may become more -/
structure Like (e e' : Element) : Prop where
  ns : e'.ns = e.ns
  localName : e'.localName = e.localName
  attributes : e.ns ≠ .html → e'.attributes = e.attributes

variable {p p' e e' f : Element}

theorem isHtml_iff {name : String} : e.isHtml name = true ↔ e.ns = .html ∧ e.localName = name := by
  unfold isHtml
  rw [Bool.and_eq_true, beq_iff_eq, beq_iff_eq]

theorem Like.refl (e : Element) : e.Like e := ⟨rfl, rfl, fun _ => rfl⟩

theorem Like.eq_of_foreign (h : e.Like e') (hne : e.ns ≠ .html) : e' = e := by
  obtain ⟨name, ns, attributes⟩ := e
  obtain ⟨name', ns', attributes'⟩ := e'
  have hns : ns' = ns := h.ns
  have hname : name' = name := h.localName
  have hattributes : attributes' = attributes := h.attributes hne
  rw [hns, hname, hattributes]

theorem endsForeignContent_of_html (h : e.ns = .html) : e.endsForeignContent = true := by
  unfold endsForeignContent
  rw [h]
  rfl

theorem Like.endsForeignContent (h : e.Like e') :
    e'.endsForeignContent = e.endsForeignContent := by
  by_cases hne : e.ns = .html
  · rw [endsForeignContent_of_html hne, endsForeignContent_of_html (h.ns.trans hne)]
  · rw [h.eq_of_foreign hne]

theorem Like.mayHold (hp : p.Like p') (he : e.Like e') : p'.mayHold e' = p.mayHold e := by
  unfold Element.mayHold isAnnotation
  rw [he.ns, he.localName, hp.ns, hp.localName, hp.endsForeignContent]

theorem mayHold_of_html (h : e.ns = .html) : p.mayHold e = p.endsForeignContent := by
  unfold mayHold
  rw [h]

theorem mayHold_of_svg (h : e.ns = .svg) : p.mayHold e =
    (p.ns == .svg || e.localName == "svg" && (p.endsForeignContent || p.isAnnotation)) := by
  unfold mayHold
  rw [h]

theorem mayHold_of_mathMl (h : e.ns = .mathMl) :
    p.mayHold e = (p.ns == .mathMl || e.localName == "math" && p.endsForeignContent) := by
  unfold mayHold
  rw [h]

theorem ns_of_mayHold (h : p.mayHold e = true) :
    e.ns = .html ∨ e.ns = .svg ∨ e.ns = .mathMl := by
  unfold mayHold at h
  cases hns : e.ns <;> rw [hns] at h <;> first
    | exact Or.inl rfl
    | exact Or.inr (Or.inl rfl)
    | exact Or.inr (Or.inr rfl)
    | cases h

/-- an HTML element between two others can be left out -/
theorem mayHold_of_between (hf : f.ns = .html) (hp : p.mayHold f = true)
    (he : f.mayHold e = true) : p.mayHold e = true := by
  rw [mayHold_of_html hf] at hp
  unfold mayHold isAnnotation at *
  cases hns : e.ns <;> rw [hns] at he <;> simp_all

end Element

/-! ## what must not be nested -/

/-- the rules on elements inside others -/
inductive Nesting where
  /-- blocks in a paragraph -/
  | paragraph
  | button
  | nobr
  | anchor
  deriving DecidableEq

namespace Nesting

/-- elements whose start tag closes a paragraph -/
def paragraphEnders : List String :=
  blockNames ++ headingNames ++
    ["pre", "listing", "form", "li", "dd", "dt", "plaintext", "hr", "xmp"]

/-- the elements that must not be inside … -/
def inner : Nesting → List String
  | paragraph => paragraphEnders
  | button => ["button"]
  | nobr => ["nobr"]
  | anchor => ["a"]

/-- … an element of this name, … -/
def outer : Nesting → String
  | paragraph => "p"
  | button => "button"
  | nobr => "nobr"
  | anchor => "a"

/-- … unless one like this is in between -/
def boundary : Nesting → Element → Bool
  | paragraph => Scope.button.isBoundary
  | button => Scope.default.isBoundary
  | nobr => Scope.default.isBoundary
  | anchor => (·.isHtmlOneOf sealNames)

/-- going outwards from the first entry a boundary comes before any element of the outer name -/
def Clear (n : Nesting) (t : Tree) (ids : List NodeId) : Prop :=
  OpenElements.reaches (t.isHtml n.outer) (t.elementSatisfies n.boundary) ids = false

/-- names under one of the rules, and the one that is never opened -/
def names : List String :=
  "template" :: (paragraph.inner ++ button.inner ++ nobr.inner ++ anchor.inner)

theorem inner_subset (n : Nesting) : ∀ name ∈ n.inner, name ∈ names := by cases n <;> decide

theorem outer_mem (n : Nesting) : n.outer ∈ n.inner := by cases n <;> decide

theorem outer_ne_form (n : Nesting) : n.outer ≠ "form" := by cases n <;> decide

/-- a name is under one rule only -/
theorem eq_of_mem {n m : Nesting} : ∀ name ∈ n.inner, name ∈ m.inner → m = n := by
  cases n <;> cases m <;> decide

theorem template_not_mem (n : Nesting) : "template" ∉ n.inner := by cases n <;> decide

theorem boundary_congr (n : Nesting) {e e' : Element} (hns : e'.ns = e.ns)
    (hname : e'.localName = e.localName) : n.boundary e' = n.boundary e := by
  cases n <;>
    simp only [boundary, Scope.isBoundary, Element.boundsScope, Element.isHtml,
      Element.isHtmlOneOf, hns, hname]

/-- the HTML elements that bound a search -/
def boundaryNames : List String :=
  ["applet", "caption", "html", "table", "td", "th", "marquee", "object", "template", "button"]

theorem boundary_eq_false (n : Nesting) {e : Element} (hns : e.ns = .html)
    (hn : e.localName ∉ boundaryNames) : n.boundary e = false := by
  simp only [boundaryNames, List.mem_cons, List.not_mem_nil, or_false, not_or] at hn
  cases n <;>
    simp [boundary, Scope.isBoundary, Element.boundsScope, Element.isHtml, Element.isHtmlOneOf,
      sealNames, hns, hn]

end Nesting

/-! ## searches -/

namespace OpenElements
variable {target boundary target' boundary' : NodeId → Bool} {ids : List NodeId} {id : NodeId}

theorem reaches_congr (ht : ∀ x ∈ ids, target' x = target x)
    (hb : ∀ x ∈ ids, boundary' x = boundary x) :
    reaches target' boundary' ids = reaches target boundary ids := by
  induction ids with
  | nil => rfl
  | cons y r ih =>
    rw [reaches, reaches, ht y List.mem_cons_self, hb y List.mem_cons_self,
      ih (fun x hx => ht x (List.mem_cons_of_mem _ hx)) fun x hx =>
        hb x (List.mem_cons_of_mem _ hx)]

/-- an entry that a search passes over may be missing -/
theorem reaches_cons_of_passed (ht : target id = false) (hb : boundary id = false) :
    reaches target boundary (id :: ids) = reaches target boundary ids := by
  rw [reaches, ht, hb]
  rfl

theorem reaches_erase (ht : target id = false) (hb : boundary id = false) :
    reaches target boundary (ids.erase id) = reaches target boundary ids := by
  induction ids with
  | nil => rfl
  | cons y r ih =>
    by_cases hy : y = id
    · rw [hy, List.erase_cons_head, reaches_cons_of_passed ht hb]
    · rw [List.erase_cons_tail (by simp [hy]), reaches, reaches, ih]

end OpenElements

namespace Tree
variable {t u : Tree} {ids inside outside : List NodeId} {id place : NodeId} {e e' : Element}

/-! ## the conditions of opening an element -/

/-- an element has room inside these open elements -/
structure HasRoom (t : Tree) (outside : List NodeId) (e : Element) : Prop where
  parent : ∀ id ∈ outside.head?, t.elementSatisfies (·.mayHold e) id = true
  clear : ∀ n : Nesting, e.isHtmlOneOf n.inner = true → n.Clear t outside
  known : e.isHtml "template" = false

/-- every open element has room inside those around it -/
def Nested (t : Tree) : List NodeId → Prop
  | [] => True
  | id :: outside => (∀ e ∈ t.element? id, t.HasRoom outside e) ∧ t.Nested outside

/-- HTML may be put into the current node -/
def TakesHtml (t : Tree) (ids : List NodeId) : Prop :=
  ∀ id ∈ ids.head?, t.elementSatisfies (·.endsForeignContent) id = true

theorem Nested.drop (h : t.Nested (inside ++ outside)) : t.Nested outside := by
  induction inside with
  | nil => exact h
  | cons x inside ih => exact ih h.2

theorem Nested.tail (h : t.Nested ids) : t.Nested ids.tail := by
  cases ids with
  | nil => exact h
  | cons x ids => exact h.2

theorem elementSatisfies_iff {p : Element → Bool} :
    t.elementSatisfies p id = true ↔ ∃ e, t.element? id = some e ∧ p e = true := by
  unfold elementSatisfies
  rw [Option.any_eq_true]

theorem TakesHtml.ofHtml (hid : t.elementSatisfies (·.ns == .html) id = true) :
    t.TakesHtml (id :: ids) := by
  intro x hx
  cases hx
  obtain ⟨e, he, hns⟩ := elementSatisfies_iff.mp hid
  exact elementSatisfies_iff.mpr ⟨e, he, Element.endsForeignContent_of_html (eq_of_beq hns)⟩

/-- an HTML element has room where HTML may be, if no rule about it is broken -/
theorem HasRoom.ofHtml (hp : t.TakesHtml ids) (hns : e.ns = .html)
    (hc : ∀ n : Nesting, e.localName ∈ n.inner → n.Clear t ids)
    (hn : e.localName ≠ "template") : t.HasRoom ids e where
  parent := fun id hid => by
    simp only [Element.mayHold_of_html hns]
    exact hp id hid
  clear := fun n hone => by
    obtain ⟨_, hmem⟩ := Bool.and_eq_true_iff.mp hone
    exact hc n (List.contains_iff_mem.mp hmem)
  known := by
    unfold Element.isHtml
    rw [beq_false_of_ne hn, Bool.and_false]

/-- elements that no rule is about -/
theorem HasRoom.ofPlain {name : String} (hp : t.TakesHtml ids) (he : e.isHtml name = true)
    (hn : name ∉ Nesting.names) : t.HasRoom ids e := by
  obtain ⟨hns, rfl⟩ := Element.isHtml_iff.mp he
  refine .ofHtml hp hns (fun n hmem => absurd (n.inner_subset _ hmem) hn) fun ht => hn ?_
  rw [ht]
  exact List.mem_cons_self

/-- elements under a rule, where nothing is in their way -/
theorem HasRoom.ofClear {name : String} (n : Nesting) (hp : t.TakesHtml ids)
    (he : e.isHtml name = true) (hn : name ∈ n.inner) (hc : n.Clear t ids) : t.HasRoom ids e := by
  obtain ⟨hns, rfl⟩ := Element.isHtml_iff.mp he
  refine .ofHtml hp hns (fun m hmem => ?_) fun ht => n.template_not_mem (ht ▸ hn)
  rw [Nesting.eq_of_mem _ hn hmem]
  exact hc

/-- no rule is about foreign elements -/
theorem HasRoom.ofForeign (hns : e.ns ≠ .html)
    (hp : ∀ id ∈ ids.head?, t.elementSatisfies (·.mayHold e) id = true) : t.HasRoom ids e where
  parent := hp
  clear := fun _ hone => absurd (eq_of_beq (Bool.and_eq_true_iff.mp hone).1) hns
  known := by
    rw [← Bool.not_eq_true]
    exact fun hone => hns (eq_of_beq (Bool.and_eq_true_iff.mp hone).1)

/-! ### from an open element outwards -/

theorem exists_of_isHtml {name : String} (h : t.isHtml name id = true) :
    ∃ e, t.element? id = some e ∧ e.ns = .html ∧ e.localName = name := by
  obtain ⟨e, he, hname⟩ := elementSatisfies_iff.mp h
  exact ⟨e, he, Element.isHtml_iff.mp hname⟩

/-- around an HTML element HTML may be -/
theorem Nested.takesHtml (h : t.Nested (id :: outside))
    (hid : t.elementSatisfies (·.ns == .html) id = true) : t.TakesHtml outside := by
  obtain ⟨e, he, hns⟩ := elementSatisfies_iff.mp hid
  have hroom := (h.1 e he).parent
  simp only [Element.mayHold_of_html (eq_of_beq hns)] at hroom
  exact hroom

/-- HTML may still be put into the current node when HTML elements have been closed -/
theorem Nested.takesHtml_drop (h : t.Nested (inside ++ outside)) (ht : t.TakesHtml (inside ++ outside))
    (hin : ∀ x ∈ inside, t.elementSatisfies (·.ns == .html) x = true) : t.TakesHtml outside := by
  induction inside with
  | nil => exact ht
  | cons x inside ih =>
    exact ih h.2 (h.takesHtml (hin x List.mem_cons_self)) fun y hy =>
      hin y (List.mem_cons_of_mem _ hy)

/-- around an element that must not be in another of its name there is none in its way -/
theorem Nested.clear (h : t.Nested (id :: outside)) (n : Nesting)
    (hid : t.isHtml n.outer id = true) : n.Clear t outside := by
  obtain ⟨e, he, hns, hname⟩ := exists_of_isHtml hid
  refine (h.1 e he).clear n ?_
  unfold Element.isHtmlOneOf
  rw [hns, hname, List.contains_iff_mem.mpr n.outer_mem]
  rfl

theorem Nested.no_template (h : t.Nested ids) (hid : id ∈ ids) :
    t.isHtml "template" id = false := by
  induction ids with
  | nil => cases hid
  | cons x ids ih =>
    rcases List.mem_cons.mp hid with rfl | hid
    · rw [← Bool.not_eq_true]
      intro hname
      obtain ⟨e, he, hone⟩ := elementSatisfies_iff.mp hname
      rw [(h.1 e he).known] at hone
      cases hone
    · exact ih h.2 hid

theorem boundary_eq_false_of_isHtml (n : Nesting) {name : String} (h : t.isHtml name id = true)
    (hn : name ∉ Nesting.boundaryNames) : t.elementSatisfies n.boundary id = false := by
  obtain ⟨e, he, hns, hname⟩ := exists_of_isHtml h
  unfold elementSatisfies
  rw [he, Option.any_some, n.boundary_eq_false hns (by rw [hname]; exact hn)]

/-- with the current node closed nothing is in the way that was not before, if no search ends there -/
theorem clear_tail {n : Nesting} {name : String} (h : n.Clear t ids)
    (hcur : ids.head?.any (t.isHtml name) = true) (hname : name ≠ n.outer)
    (hb : name ∉ Nesting.boundaryNames) : n.Clear t ids.tail := by
  cases ids with
  | nil => exact h
  | cons id ids =>
    have hid : t.isHtml name id = true := hcur
    have htarget : t.isHtml n.outer id = false := by
      rw [← isHtmlOneOf_singleton]
      exact isHtmlOneOf_eq_false hid fun hm => hname (List.mem_singleton.mp hm)
    unfold Nesting.Clear at h
    rw [OpenElements.reaches_cons_of_passed htarget (boundary_eq_false_of_isHtml n hid hb)] at h
    exact h

theorem html_of_isHtmlOneOf {names : List String} (h : t.isHtmlOneOf names id = true) :
    t.elementSatisfies (·.ns == .html) id = true := by
  obtain ⟨e, he, hone⟩ := elementSatisfies_iff.mp h
  exact elementSatisfies_iff.mpr ⟨e, he, (Bool.and_eq_true_iff.mp hone).1⟩

/-! ## later trees -/

theorem elementSatisfies_congr {p : Element → Bool}
    (hp : ∀ {e e' : Element}, e'.ns = e.ns → e'.localName = e.localName → p e' = p e)
    (h : u.label? id = t.label? id) : u.elementSatisfies p id = t.elementSatisfies p id := by
  unfold label? at h
  unfold elementSatisfies
  cases ht : t.element? id with
  | none =>
    rw [ht, Option.map_none, Option.map_eq_none_iff] at h
    rw [h]
  | some e =>
    rw [ht, Option.map_some] at h
    obtain ⟨e', he', hlabel⟩ := Option.map_eq_some_iff.mp h
    obtain ⟨hns, hname⟩ := Prod.mk.inj hlabel
    rw [he', Option.any_some, Option.any_some, hp hns hname]

theorem reaches_within (hw : t.Within u) (hids : ∀ id ∈ ids, id.index < t.size) (n : Nesting) :
    OpenElements.reaches (u.isHtml n.outer) (u.elementSatisfies n.boundary) ids =
      OpenElements.reaches (t.isHtml n.outer) (t.elementSatisfies n.boundary) ids :=
  OpenElements.reaches_congr (fun x hx => isHtml_congr (hw.label? (hids x hx)) n.outer) fun x hx =>
    elementSatisfies_congr n.boundary_congr (hw.label? (hids x hx))

/-- every element of `t` is in `u`, the same but for the attributes of HTML -/
structure Retains (t u : Tree) : Prop where
  within : t.Within u
  elements : ∀ id e, t.element? id = some e → ∃ e', u.element? id = some e' ∧ e.Like e'

theorem Retains.refl (t : Tree) : t.Retains t := ⟨.refl t, fun _ e he => ⟨e, he, .refl e⟩⟩

theorem element?_attach_old (d : NodeData) (hid : id.index < t.size) :
    (t.attach place d).element? id = t.element? id := by
  unfold element?
  rw [get?_attach_old hid]
  cases t.get? id <;> rfl

theorem retains_attach (t : Tree) (place : NodeId) (d : NodeData) :
    t.Retains (t.attach place d) where
  within := within_attach t place d
  elements := fun id e he =>
    ⟨e, by rw [element?_attach_old d (index_lt_of_element? he), he], .refl e⟩

/-- what one node holds changes, and an element there changes into one like it -/
theorem retains_modifyData {f : NodeData → NodeData} (hk : ∀ d, (f d).kind = d.kind)
    (hl : ∀ d, (f d).label? = d.label?)
    (h : ∀ e, t.element? id = some e → ∃ e', f (.element e) = .element e' ∧ e.Like e') :
    t.Retains (t.modifyData id f) := by
  refine ⟨within_modifyData t id hk hl, fun x e he => ?_⟩
  obtain ⟨n, hn, hd⟩ := exists_of_element? he
  unfold modifyData element?
  rw [get?_modify, hn]
  split
  · rename_i hx
    rw [hx] at he
    obtain ⟨e', hf, hlike⟩ := h e he
    refine ⟨e', ?_, hlike⟩
    simp only [Option.map_some, Option.bind_some, hd, hf]
    rfl
  · refine ⟨e, ?_, .refl e⟩
    rw [Option.bind_some, hd]
    rfl

/-- an element of a later tree that was there before is the same but for attributes of HTML -/
theorem Retains.element?_old (hr : t.Retains u) (hid : id.index < t.size)
    (he : u.element? id = some e') : ∃ e, t.element? id = some e ∧ e.Like e' := by
  have hsome : (t.element? id).isSome = true := by
    rw [element?_isSome, ← hr.within.label? hid, ← element?_isSome, he]
    rfl
  obtain ⟨e, he₀⟩ := Option.isSome_iff_exists.mp hsome
  obtain ⟨e₁, he₁, hlike⟩ := hr.elements id e he₀
  cases he.symm.trans he₁
  exact ⟨e, he₀, hlike⟩

theorem HasRoom.retained (h : t.HasRoom outside e) (hr : t.Retains u)
    (hids : ∀ id ∈ outside, id.index < t.size) (hlike : e.Like e') : u.HasRoom outside e' where
  parent := fun id hid => by
    obtain ⟨p, hp, hhold⟩ := elementSatisfies_iff.mp (h.parent id hid)
    obtain ⟨p', hp', hlike'⟩ := hr.elements id p hp
    exact elementSatisfies_iff.mpr ⟨p', hp', by rw [hlike'.mayHold hlike, hhold]⟩
  clear := fun n hn => by
    rw [Element.isHtmlOneOf, hlike.ns, hlike.localName] at hn
    unfold Nesting.Clear
    rw [reaches_within hr.within hids]
    exact h.clear n hn
  known := by
    rw [Element.isHtml, hlike.ns, hlike.localName]
    exact h.known

theorem Nested.retained (h : t.Nested ids) (hr : t.Retains u)
    (hids : ∀ id ∈ ids, id.index < t.size) : u.Nested ids := by
  induction ids with
  | nil => trivial
  | cons x ids ih =>
    have hout := fun y hy => hids y (List.mem_cons_of_mem _ hy)
    refine ⟨fun e' he' => ?_, ih h.2 hout⟩
    obtain ⟨e, he, hlike⟩ := hr.element?_old (hids x List.mem_cons_self) he'
    exact (h.1 e he).retained hr hout hlike

theorem Nested.opened (h : t.Nested ids) (hids : ∀ id ∈ ids, id.index < t.size)
    (hroom : t.HasRoom ids e) (place : NodeId) :
    (t.attach place (.element e)).Nested (⟨t.size⟩ :: ids) := by
  have hr := retains_attach t place (.element e)
  refine ⟨fun e' he' => ?_, h.retained hr hids⟩
  rw [element?_attach_new] at he'
  cases he'
  exact hroom.retained hr hids (.refl e)

/-! ## forms leave the stack -/

/-- with a form taken out the elements around it hold what it held -/
theorem HasRoom.erase (h : t.HasRoom outside e) (hn : t.Nested outside)
    (hid : t.isHtml "form" id = true) : t.HasRoom (outside.erase id) e := by
  obtain ⟨f, hf, hns, hname⟩ := exists_of_isHtml hid
  refine ⟨fun x hx => ?_, fun n hone => ?_, h.known⟩
  · cases outside with
    | nil => cases hx
    | cons y rest =>
      by_cases hy : y = id
      · subst hy
        rw [List.erase_cons_head] at hx
        obtain ⟨p, hp, hhold⟩ := elementSatisfies_iff.mp ((hn.1 f hf).parent x hx)
        obtain ⟨g, hg, hholds⟩ := elementSatisfies_iff.mp (h.parent y rfl)
        cases hf.symm.trans hg
        exact elementSatisfies_iff.mpr ⟨p, hp, Element.mayHold_of_between hns hhold hholds⟩
      · rw [List.erase_cons_tail (by simp [hy])] at hx
        exact h.parent x hx
  · unfold Nesting.Clear
    rw [OpenElements.reaches_erase]
    · exact h.clear n hone
    · rw [← isHtmlOneOf_singleton]
      exact isHtmlOneOf_eq_false hid fun hm => n.outer_ne_form (List.mem_singleton.mp hm).symm
    · exact boundary_eq_false_of_isHtml n hid (by decide)

theorem Nested.erase (h : t.Nested ids) (hid : t.isHtml "form" id = true) :
    t.Nested (ids.erase id) := by
  induction ids with
  | nil => exact h
  | cons x ids ih =>
    by_cases hx : x = id
    · rw [hx, List.erase_cons_head]
      exact h.2
    · rw [List.erase_cons_tail (by simp [hx])]
      exact ⟨fun e he => (h.1 e he).erase h.2 hid, ih h.2⟩

end Tree

/-! ## soundness -/

/-- a coherent core whose open elements are nested as they may be -/
structure Core.Sound (k : Core) : Prop extends k.Coherent where
  nested : k.tree.Nested k.entries

end HtmlTree
