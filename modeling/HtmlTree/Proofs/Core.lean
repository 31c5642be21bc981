import HtmlTree.Construct.Run
import HtmlTree.Proofs.Within
import Mathlib.Data.List.Forall2

/-!
# The core of a constructor

Of all that a constructor remembers only a part decides whether its steps succeed: the document, the
stack of open elements, the mode and the two element pointers.  This is its core; journal, parse
errors and flags are left out.  A core is coherent if the parts fit together.

* `Core`              the part, `Constructor.core` its place in a constructor;
* `Tree.Bears`        the handles name elements of the document, each older than those inside it;
* `Tree.StackOf`      the open elements that a mode stands for;
* `Tree.Fits`         stack, mode, mode to return to and head pointer agree;
* `Core.Coherent`     all of this, and what the document has not got yet in the first two modes.
-/

namespace HtmlTree

structure Core where
  options : Options
  tree : Tree
  /-- the open elements, the current node first -/
  entries : List NodeId
  mode : Mode
  originalMode : Option Mode
  head : Option NodeId
  form : Option NodeId
  stopped : Bool

def Constructor.core (c : Constructor) : Core :=
  ⟨c.options, c.tree, c.openElements.entries, c.mode, c.originalMode, c.head, c.form, c.stopped⟩

/-! ## names and modes -/

/-- the elements around the content of a document -/
def outerNames : List String := ["html", "head", "body"]

/-- elements that seal off formatting elements and do stand on the stack -/
def sealNames : List String := ["applet", "marquee", "object"]

/-- elements that hold only text up to an end tag -/
def textOnlyNames : List String :=
  [ "title", "noframes", "style", "noscript", "script", "textarea", "xmp", "iframe", "noembed" ]

/-- the modes from the body on -/
def Mode.isBody : Mode → Bool
  | inBody | afterBody | afterAfterBody => true
  | _ => false

/-- the modes in which a text-only element may begin -/
def Mode.hostsText : Mode → Bool
  | inHead | inHeadNoscript | afterHead | inBody => true
  | _ => false

/-- the modes in which an element goes to the current node -/
def Mode.hostsElements : Mode → Bool
  | inHead | inHeadNoscript => true
  | mode => mode.isBody

/-- the modes before the head is there -/
def Mode.beforeHeadThere : Mode → Bool
  | initial | beforeHtml | beforeHead => true
  | _ => false

/-! ## the stack of a mode -/

namespace Tree
variable {t u : Tree} {ids : List NodeId}

/-- these handles name HTML elements with these names, one by one -/
def Spells (t : Tree) (names : List String) (ids : List NodeId) : Prop :=
  List.Forall₂ (fun name id => t.isHtml name id = true) names ids

/-- the body and the document element outermost, nothing else of that kind inside them -/
def BodyStack (t : Tree) (ids : List NodeId) : Prop :=
  ∃ inner outer, ids = inner ++ outer ∧ t.Spells ["body", "html"] outer ∧
    ∀ id ∈ inner, t.isHtmlOneOf outerNames id = false

/-- what is open in a mode, the current node first; in a text-only element this says nothing, and
other modes have no stack -/
def StackOf (t : Tree) (ids : List NodeId) : Mode → Prop
  | .initial | .beforeHtml => ids = []
  | .beforeHead | .afterHead => t.Spells ["html"] ids
  | .inHead => t.Spells ["head", "html"] ids
  | .inHeadNoscript => t.Spells ["noscript", "head", "html"] ids
  | .inBody | .afterBody | .afterAfterBody => t.BodyStack ids
  | _ => False

structure Fits (t : Tree) (ids : List NodeId) (mode : Mode) (original : Option Mode)
    (head : Option NodeId) : Prop where
  /-- the stack is that of the mode -/
  stack : mode ≠ .text → t.StackOf ids mode
  /-- the current node is a text-only element, the rest is the stack of the mode to return to -/
  text : mode = .text → ∃ id outside m, ids = id :: outside ∧ original = some m ∧
    m.hostsText = true ∧ t.isHtmlOneOf textOnlyNames id = true ∧ t.StackOf outside m
  original_iff : original.isSome = true ↔ mode = .text
  head_iff : head.isSome = true ↔ mode.beforeHeadThere = false

theorem Spells.within (hw : t.Within u) {names : List String} (h : t.Spells names ids) :
    u.Spells names ids :=
  h.imp fun _ _ hid => hw.isHtml hid

theorem BodyStack.within (hw : t.Within u) (hi : ∀ id ∈ ids, id.index < t.size)
    (h : t.BodyStack ids) : u.BodyStack ids := by
  obtain ⟨inner, outer, rfl, hs, hn⟩ := h
  refine ⟨inner, outer, rfl, hs.within hw, fun id hid => ?_⟩
  rw [isHtmlOneOf_congr (hw.label? (hi id (List.mem_append_left _ hid))), hn id hid]

theorem StackOf.within (hw : t.Within u) (hi : ∀ id ∈ ids, id.index < t.size) {m : Mode}
    (h : t.StackOf ids m) : u.StackOf ids m := by
  cases m <;> first
    | exact h
    | exact Spells.within hw h
    | exact BodyStack.within hw hi h

theorem isHtmlOneOf_within (hw : t.Within u) {names : List String} {id : NodeId}
    (h : t.isHtmlOneOf names id = true) : u.isHtmlOneOf names id = true := by
  obtain ⟨name, hn, hl⟩ := isHtmlOneOf_iff.mp h
  exact isHtmlOneOf_iff.mpr ⟨name, hn, isHtml_iff.mp (hw.isHtml (isHtml_iff.mpr hl))⟩

theorem Fits.within (hw : t.Within u) (hi : ∀ id ∈ ids, id.index < t.size) {m : Mode}
    {original : Option Mode} {head : Option NodeId} (h : t.Fits ids m original head) :
    u.Fits ids m original head where
  stack := fun hm => (h.stack hm).within hw hi
  text := fun hm => by
    obtain ⟨id, outside, n, rfl, ho, hn, ht, hs⟩ := h.text hm
    exact ⟨id, outside, n, rfl, ho, hn, isHtmlOneOf_within hw ht,
      hs.within hw fun x hx => hi x (List.mem_cons_of_mem _ hx)⟩
  original_iff := h.original_iff
  head_iff := h.head_iff

/-- a mode with a stack of its own, to which no other is to return -/
theorem Fits.ofStack {m : Mode} {head : Option NodeId} (hs : t.StackOf ids m)
    (hh : head.isSome = true ↔ m.beforeHeadThere = false) : t.Fits ids m none head := by
  have hm : m ≠ .text := fun e => by
    rw [e] at hs
    exact hs
  refine ⟨fun _ => hs, fun e => absurd e hm, ?_, hh⟩
  exact ⟨fun h => Bool.noConfusion h, fun e => absurd e hm⟩

/-! ## the inner part of a body's stack -/

theorem Spells.mem {names : List String} {id : NodeId} (h : t.Spells names ids) (hid : id ∈ ids) :
    ∃ name ∈ names, t.isHtml name id = true := by
  induction h with
  | nil => cases hid
  | cons hx _ ih =>
    rcases List.mem_cons.mp hid with rfl | hid
    · exact ⟨_, List.mem_cons_self, hx⟩
    · obtain ⟨name, hn, hl⟩ := ih hid
      exact ⟨name, List.mem_cons_of_mem _ hn, hl⟩

theorem Spells.outer (h : t.Spells ["body", "html"] ids) :
    ∀ id ∈ ids, t.isHtmlOneOf outerNames id = true := fun id hid => by
  obtain ⟨name, hn, hl⟩ := h.mem hid
  have hsub : ∀ n ∈ ["body", "html"], n ∈ outerNames := by decide
  exact isHtmlOneOf_of_isHtml hl (hsub name hn)

theorem BodyStack.ne_nil (h : t.BodyStack ids) : ids ≠ [] := by
  obtain ⟨inner, outer, rfl, hs, _⟩ := h
  cases hs
  exact List.append_ne_nil_of_right_ne_nil _ (List.cons_ne_nil _ _)

theorem BodyStack.push {id : NodeId} (h : t.BodyStack ids)
    (hid : t.isHtmlOneOf outerNames id = false) : t.BodyStack (id :: ids) := by
  obtain ⟨inner, outer, rfl, hs, hn⟩ := h
  refine ⟨id :: inner, outer, rfl, hs, fun x hx => ?_⟩
  rcases List.mem_cons.mp hx with rfl | hx
  · exact hid
  · exact hn x hx

/-- entries that are no outer elements come off the inner part -/
theorem BodyStack.drop {inside rest : List NodeId} (h : t.BodyStack (inside ++ rest))
    (hi : ∀ id ∈ inside, t.isHtmlOneOf outerNames id = false) : t.BodyStack rest := by
  obtain ⟨inner, outer, he, hs, hn⟩ := h
  rcases List.append_eq_append_iff.mp he with ⟨more, rfl, rfl⟩ | ⟨more, rfl, rfl⟩
  · exact ⟨more, outer, rfl, hs, fun x hx => hn x (List.mem_append_right _ hx)⟩
  · cases more with
    | nil => exact ⟨[], rest, rfl, hs, fun x hx => absurd hx List.not_mem_nil⟩
    | cons x more =>
      have hout := hs.outer x List.mem_cons_self
      rw [hi x (List.mem_append_right _ List.mem_cons_self)] at hout
      cases hout

theorem BodyStack.pop {id : NodeId} (h : t.BodyStack (id :: ids))
    (hid : t.isHtmlOneOf outerNames id = false) : t.BodyStack ids :=
  drop (show t.BodyStack ([id] ++ ids) from h) fun x hx => by rw [List.mem_singleton.mp hx, hid]

/-- what stands inside an entry that is no outer element is none either -/
theorem BodyStack.inside {inside outside : List NodeId} {id : NodeId}
    (h : t.BodyStack (inside ++ id :: outside)) (hid : t.isHtmlOneOf outerNames id = false) :
    ∀ x ∈ inside, t.isHtmlOneOf outerNames x = false := by
  obtain ⟨inner, outer, he, hs, hn⟩ := h
  rcases List.append_eq_append_iff.mp he with ⟨more, rfl, _⟩ | ⟨more, _, ho⟩
  · exact fun x hx => hn x (List.mem_append_left _ hx)
  · have hout := hs.outer id (by rw [ho]; exact List.mem_append_right _ List.mem_cons_self)
    rw [hid] at hout
    cases hout

/-- a single entry may be taken out anywhere of the inner part -/
theorem BodyStack.erase {id : NodeId} (h : t.BodyStack ids)
    (hid : t.isHtmlOneOf outerNames id = false) : t.BodyStack (ids.erase id) := by
  obtain ⟨inner, outer, rfl, hs, hn⟩ := h
  by_cases hmem : id ∈ inner
  · rw [List.erase_append_left _ hmem]
    exact ⟨inner.erase id, outer, rfl, hs, fun x hx => hn x (List.mem_of_mem_erase hx)⟩
  · have hout : id ∉ outer := fun hx => by
      have hout := hs.outer id hx
      rw [hid] at hout
      cases hout
    rw [List.erase_append_right _ hmem, List.erase_of_not_mem hout]
    exact ⟨inner, outer, rfl, hs, hn⟩

end Tree

/-! ## coherence -/

/-- the handles name elements of the document; what is open inside another element is younger -/
structure Tree.Bears (t : Tree) (ids : List NodeId) (head form : Option NodeId) : Prop where
  grown : t.Grown
  element : ∀ id ∈ ids, (t.label? id).isSome = true
  sorted : ids.Pairwise fun inner outer => outer.index < inner.index
  head : ∀ id ∈ head, t.isHtml "head" id = true
  form : ∀ id ∈ form, t.isHtml "form" id = true

/-- whether the document has a child of this kind -/
def Tree.rootHas (t : Tree) (kind : NodeKind) : Bool := t.anyOfKind kind (t.children .root)

structure Core.Coherent (k : Core) : Prop where
  bears : k.tree.Bears k.entries k.head k.form
  /-- there is no document element before the mode for it is over -/
  noElement : k.mode = .initial ∨ k.mode = .beforeHtml → k.tree.rootHas .element = false
  noDoctype : k.mode = .initial → k.tree.rootHas .documentType = false
  fits : k.stopped = false → k.tree.Fits k.entries k.mode k.originalMode k.head

namespace Tree
variable {t u : Tree} {ids : List NodeId} {head form : Option NodeId} {place id : NodeId}

theorem index_lt_of_label? (h : (t.label? id).isSome = true) : id.index < t.size := by
  obtain ⟨l, hl⟩ := Option.isSome_iff_exists.mp h
  obtain ⟨e, he, _⟩ := Option.map_eq_some_iff.mp hl
  exact index_lt_of_element? he

theorem element?_isSome (t : Tree) (id : NodeId) :
    (t.element? id).isSome = (t.label? id).isSome := by
  unfold label?
  rw [Option.isSome_map]

theorem Bears.index_lt (h : t.Bears ids head form) : ∀ id ∈ ids, id.index < t.size :=
  fun id hid => index_lt_of_label? (h.element id hid)

theorem Bears.within (hg : u.Grown) (hw : t.Within u) (h : t.Bears ids head form) :
    u.Bears ids head form where
  grown := hg
  element := fun id hid => by
    rw [hw.label? (h.index_lt id hid)]
    exact h.element id hid
  sorted := h.sorted
  head := fun id hid => hw.isHtml (h.head id hid)
  form := fun id hid => hw.isHtml (h.form id hid)

theorem Bears.sublist {rest : List NodeId} (hs : rest.Sublist ids) (h : t.Bears ids head form) :
    t.Bears rest head form where
  grown := h.grown
  element := fun id hid => h.element id (hs.subset hid)
  sorted := h.sorted.sublist hs
  head := h.head
  form := h.form

theorem label?_attach_new (t : Tree) (place : NodeId) (d : NodeData) :
    (t.attach place d).label? ⟨t.size⟩ = d.label? := by
  unfold label? NodeData.label?
  rw [element?_attach_new]

/-- a new element is younger than all that is open -/
theorem Bears.opened {e : Element} (hp : place.index < t.size) (h : t.Bears ids head form) :
    (t.attach place (.element e)).Bears (⟨t.size⟩ :: ids) head form := by
  have hb := h.within (h.grown.attach hp) (within_attach t place (.element e))
  refine ⟨hb.grown, ?_, ?_, hb.head, hb.form⟩
  · intro id hid
    rcases List.mem_cons.mp hid with rfl | hid
    · rw [label?_attach_new]
      rfl
    · exact hb.element id hid
  · exact List.pairwise_cons.mpr ⟨h.index_lt, h.sorted⟩

/-! ## children of the document -/

theorem isKind_within (hw : t.Within u) (kind : NodeKind) (hid : id.index < t.size) :
    u.isKind kind id = t.isKind kind id := by
  obtain ⟨n, hn⟩ := exists_get?_of_lt hid
  obtain ⟨m, hm, _, hk, _⟩ := hw id n hn
  unfold isKind kind?
  rw [hm, hn, Option.map_some, Option.map_some, hk]

theorem anyOfKind_within (hw : t.Within u) {kind : NodeKind} (hids : ∀ id ∈ ids, id.index < t.size) :
    u.anyOfKind kind ids = t.anyOfKind kind ids := by
  unfold anyOfKind
  rw [Bool.eq_iff_iff, List.any_eq_true, List.any_eq_true]
  exact exists_congr fun id => and_congr_right fun hid => by rw [isKind_within hw kind (hids id hid)]

/-- the document has a child of a kind as long as none of that kind is added to it -/
theorem rootHas_within (hg : t.Grown) (hw : t.Within u) {kind : NodeKind} (added : List NodeId)
    (hc : u.children .root = t.children .root ++ added)
    (ha : ∀ id ∈ added, u.isKind kind id = false) : u.rootHas kind = t.rootHas kind := by
  obtain ⟨cs, hr⟩ := hg.root
  have hcs : t.children .root = cs := by
    unfold children
    rw [hr]
  have hold : u.anyOfKind kind (t.children .root) = t.anyOfKind kind (t.children .root) :=
    anyOfKind_within hw fun c hmem => by
      rw [hcs] at hmem
      exact index_lt_of_parent? (hg.parent_child .root _ c hr hmem)
  have hnone : added.any (u.isKind kind) = false :=
    List.any_eq_false.mpr fun c hmem => by
      rw [ha c hmem]
      exact Bool.false_ne_true
  unfold anyOfKind at hold
  unfold rootHas anyOfKind
  rw [hc, List.any_append, hnone, Bool.or_false, hold]

theorem rootHas_attach (hg : t.Grown) {kind : NodeKind} {d : NodeData}
    (h : place ≠ .root ∨ d.kind ≠ kind) : (t.attach place d).rootHas kind = t.rootHas kind := by
  have hw := within_attach t place d
  by_cases hp : place = .root
  · have hd := h.resolve_left (not_not_intro hp)
    refine rootHas_within hg hw [⟨t.size⟩] ?_ fun id hid => ?_
    · obtain ⟨cs, hr⟩ := hg.root
      unfold children
      rw [get?_attach_old hg.root_lt, hr, hp]
      rfl
    · rw [List.mem_singleton.mp hid]
      unfold isKind kind?
      rw [get?_attach_new]
      exact beq_false_of_ne fun e => hd (Option.some.inj e)
  · refine rootHas_within hg hw [] ?_ fun id hid => absurd hid List.not_mem_nil
    obtain ⟨cs, hr⟩ := hg.root
    unfold children
    rw [get?_attach_old hg.root_lt, hr, List.append_nil]
    show (if NodeId.root = place then _ else cs) = cs
    rw [if_neg (Ne.symm hp)]

theorem rootHas_modifyData (hg : t.Grown) {f : NodeData → NodeData} (kind : NodeKind)
    (hk : ∀ d, (f d).kind = d.kind) (hl : ∀ d, (f d).label? = d.label?) (target : NodeId) :
    (t.modifyData target f).rootHas kind = t.rootHas kind := by
  refine rootHas_within hg (within_modifyData t target hk hl) [] ?_
    fun id hid => absurd hid List.not_mem_nil
  obtain ⟨cs, hr⟩ := hg.root
  unfold children modifyData
  rw [get?_modify, List.append_nil, hr]
  by_cases he : NodeId.root = target
  · rw [if_pos he]
    rfl
  · rw [if_neg he]

end Tree

end HtmlTree
