import HtmlTree.Proofs.HeadRules
import Mathlib.Data.List.TakeWhile

/-!
# Closing elements of the body

An element is closed in three steps: it is looked for from the current node outwards, elements that
need no end tag come off the stack, then all up to it does.  What the search passes over decides
whether more is closed than may be: a scope ends at elements that seal off and a search for an end
tag at special elements, and formatting elements on the way are refused.

* `Found`                the innermost element with one of these names, and what is inside it;
* `Found.ofScope`        an element in scope, with nothing inside it that seals off;
* `Core.Spares`          elements are closed, and nothing else changes;
* `Core.Ready`, `Core.ReadyFor`   where HTML may be inserted, and an element under a rule on nesting;
* `closeUpTo_tries`      the three steps, which close the found element and what is inside it;
* `closeParagraph_leads`, `closeInScope_leads`, `closeListItem_leads`, `closeOther_leads`,
  `closeFormatting_leads`, `closeHeading_leads`, `closeForm_leads`, `closeBody_leads`.
-/

namespace HtmlTree

variable {k k' : Core} {byBody : Bool} {token : Token} {names : List String}
  {inside outside : List NodeId} {id : NodeId} {t : Tree}

/-! ## searches -/

namespace OpenElements
variable {p target boundary : NodeId → Bool} {ids : List NodeId}

/-- the innermost match: nothing inside it is one -/
theorem splitAt?_inside (h : splitAt? p ids = some (inside, id, outside)) :
    ∀ x ∈ inside, p x = false := by
  induction ids generalizing inside with
  | nil => cases h
  | cons y r ih =>
    unfold splitAt? at h
    split at h
    · cases h
      exact fun x hx => absurd hx List.not_mem_nil
    · obtain ⟨⟨a, b, c⟩, hs, he⟩ := Option.map_eq_some_iff.mp h
      cases he
      intro x hx
      rcases List.mem_cons.mp hx with rfl | hx
      · exact Bool.eq_false_iff.mpr ‹_›
      · exact ih hs x hx

theorem splitAt?_of_split (hid : p id = true) (hin : ∀ x ∈ inside, p x = false) :
    splitAt? p (inside ++ id :: outside) = some (inside, id, outside) := by
  induction inside with
  | nil =>
    rw [List.nil_append, splitAt?, if_pos hid]
  | cons y inside ih =>
    have hy := hin y List.mem_cons_self
    rw [List.cons_append, splitAt?, if_neg (by simp [hy]),
      ih fun x hx => hin x (List.mem_cons_of_mem _ hx)]
    rfl

/-- where a search arrives, no boundary lies on its way -/
theorem exists_split_of_reaches (h : reaches target boundary ids = true) :
    ∃ inside id outside, ids = inside ++ id :: outside ∧ target id = true ∧
      ∀ x ∈ inside, target x = false ∧ boundary x = false := by
  induction ids with
  | nil => cases h
  | cons y r ih =>
    unfold reaches at h
    cases ht : target y with
    | true => exact ⟨[], y, r, rfl, ht, fun x hx => absurd hx List.not_mem_nil⟩
    | false =>
      rw [ht, Bool.false_or, Bool.and_eq_true, Bool.not_eq_true'] at h
      obtain ⟨inside, id, outside, rfl, hid, hin⟩ := ih h.2
      refine ⟨y :: inside, id, outside, rfl, hid, fun x hx => ?_⟩
      rcases List.mem_cons.mp hx with rfl | hx
      · exact ⟨ht, h.1⟩
      · exact hin x hx

theorem reaches_of_split (hid : target id = true) (hin : ∀ x ∈ inside, boundary x = false) :
    reaches target boundary (inside ++ id :: outside) = true := by
  induction inside with
  | nil =>
    rw [List.nil_append, reaches, hid, Bool.true_or]
  | cons y inside ih =>
    rw [List.cons_append, reaches, hin y List.mem_cons_self,
      ih fun x hx => hin x (List.mem_cons_of_mem _ hx), Bool.not_false, Bool.true_and, Bool.or_true]

/-- entries come off from the current node on, but one that does not have the property stays -/
theorem dropWhile_split (inside outside : List NodeId) (h : p id = false) :
    ∃ rest, rest <:+ inside ∧
      (inside ++ id :: outside).dropWhile p = rest ++ id :: outside := by
  induction inside with
  | nil =>
    refine ⟨[], List.suffix_refl _, ?_⟩
    rw [List.nil_append, List.dropWhile_cons_of_neg (by simp [h])]
  | cons y inside ih =>
    by_cases hy : p y = true
    · obtain ⟨rest, hr, he⟩ := ih
      refine ⟨rest, hr.trans (List.suffix_cons _ _), ?_⟩
      rw [List.cons_append, List.dropWhile_cons_of_pos hy, he]
    · refine ⟨y :: inside, List.suffix_refl _, ?_⟩
      rw [List.cons_append, List.dropWhile_cons_of_neg hy]

theorem dropWhile_not_split (h : p id = true) (hin : ∀ x ∈ inside, p x = false) :
    (inside ++ id :: outside).dropWhile (fun x => !p x) = id :: outside := by
  rw [List.dropWhile_append_of_pos fun x hx => by rw [hin x hx]; rfl,
    List.dropWhile_cons_of_neg (by simp [h])]

end OpenElements

/-! ## properties of elements -/

namespace Tree

theorem elementSatisfies_mono {p q : Element → Bool} (hpq : ∀ e, p e = true → q e = true)
    (h : t.elementSatisfies q id = false) : t.elementSatisfies p id = false := by
  unfold elementSatisfies at *
  cases he : t.element? id with
  | none => rfl
  | some e =>
    rw [he] at h
    rw [← Bool.not_eq_true] at h ⊢
    exact fun hp => h (hpq e hp)

theorem isHtmlOneOf_append (t : Tree) (a b : List String) (id : NodeId) :
    t.isHtmlOneOf (a ++ b) id = (t.isHtmlOneOf a id || t.isHtmlOneOf b id) := by
  rw [Bool.eq_iff_iff, Bool.or_eq_true, isHtmlOneOf_iff, isHtmlOneOf_iff, isHtmlOneOf_iff]
  constructor
  · rintro ⟨name, hn, hl⟩
    rcases List.mem_append.mp hn with hn | hn
    · exact Or.inl ⟨name, hn, hl⟩
    · exact Or.inr ⟨name, hn, hl⟩
  · rintro (⟨name, hn, hl⟩ | ⟨name, hn, hl⟩)
    · exact ⟨name, List.mem_append_left _ hn, hl⟩
    · exact ⟨name, List.mem_append_right _ hn, hl⟩

theorem isHtmlOneOf_disjoint {a b : List String} (hd : ∀ n ∈ a, n ∉ b)
    (h : t.isHtmlOneOf a id = true) : t.isHtmlOneOf b id = false := by
  obtain ⟨name, hn, hl⟩ := isHtmlOneOf_iff.mp h
  exact isHtmlOneOf_eq_false (isHtml_iff.mpr hl) (hd name hn)

/-- none of the elements that leave the stack in no common way -/
theorem not_kept (ho : t.isHtmlOneOf outerNames id = false)
    (hf : t.isHtmlOneOf formattingNames id = false) (hs : t.isHtmlOneOf sealNames id = false) :
    t.isHtmlOneOf keptNames id = false := by
  unfold keptNames
  rw [isHtmlOneOf_append, isHtmlOneOf_append, ho, hf, hs]
  rfl

end Tree

theorem Element.isHtmlOneOf_iff {e : Element} {names : List String} :
    e.isHtmlOneOf names = true ↔ e.ns = .html ∧ e.localName ∈ names := by
  unfold isHtmlOneOf
  rw [Bool.and_eq_true, beq_iff_eq, List.contains_eq_mem, decide_eq_true_eq]

/-- a scope ends at elements that seal off -/
theorem Scope.isBoundary_of_seal (s : Scope) (e : Element) (h : e.isHtmlOneOf sealNames = true) :
    s.isBoundary e = true := by
  obtain ⟨hns, hn⟩ := Element.isHtmlOneOf_iff.mp h
  have hb : e.boundsScope = true := by
    have hsub : ∀ n ∈ sealNames, n ∈ ["applet", "caption", "html", "table", "td", "th", "marquee",
        "object", "template"] := by decide
    unfold Element.boundsScope
    rw [hns]
    exact List.contains_iff_mem.mpr (hsub _ hn)
  cases s with
  | default => exact hb
  | listItem =>
    show (e.boundsScope || _) = true
    rw [hb]
    rfl
  | button =>
    show (e.boundsScope || _) = true
    rw [hb]
    rfl

theorem Element.isSpecial_of_mem {e : Element} {names : List String}
    (hsub : ∀ n ∈ names, n ∈ specialNames) (h : e.isHtmlOneOf names = true) :
    e.isSpecial = true := by
  obtain ⟨hns, hn⟩ := isHtmlOneOf_iff.mp h
  unfold isSpecial
  rw [hns]
  exact List.contains_iff_mem.mpr (hsub _ hn)

/-! ## what is found -/

/-- the innermost open element with one of these names, with what is inside it and outside -/
structure Found (k : Core) (names : List String) (inside : List NodeId) (id : NodeId)
    (outside : List NodeId) : Prop where
  split : k.entries = inside ++ id :: outside
  named : k.tree.isHtmlOneOf names id = true
  innermost : ∀ x ∈ inside, k.tree.isHtmlOneOf names x = false

namespace Found

/-- an element in scope is reached before anything that seals off -/
theorem ofScope {scope : Scope}
    (h : OpenElements.hasOneOfInScope ⟨k.entries⟩ k.tree names scope = true) :
    ∃ inside id outside, Found k names inside id outside ∧
      ∀ x ∈ inside, k.tree.isHtmlOneOf sealNames x = false := by
  obtain ⟨inside, id, outside, he, hid, hin⟩ := OpenElements.exists_split_of_reaches h
  refine ⟨inside, id, outside, ⟨he, hid, fun x hx => (hin x hx).1⟩, fun x hx => ?_⟩
  exact Tree.elementSatisfies_mono (scope.isBoundary_of_seal) (hin x hx).2

theorem splitAt? (hf : Found k names inside id outside) :
    OpenElements.splitAt? (k.tree.isHtmlOneOf names) k.entries = some (inside, id, outside) := by
  rw [hf.split]
  exact OpenElements.splitAt?_of_split hf.named hf.innermost

end Found

theorem Core.In.body {m : Mode} (h : k.In m) (hm : m.isBody = true) : k.tree.BodyStack k.entries :=
  (Tree.stackOf_iff_of_isBody hm).mp (h.stack (Mode.isBody_facts hm).1)

/-- still in the same mode after moves that do not change it -/
theorem Core.In.after {m : Mode} (h : k.In m) (hm : Moves byBody token k k')
    (hmode : k'.mode = k.mode) (hstop : k'.stopped = k.stopped) : k'.In m :=
  ⟨hm.sound h.sound, hmode.trans h.mode, hstop.trans h.active⟩

theorem Leads.staying {α : Type} {x : Step α} {m : Mode} (h : k.In m)
    (hx : Leads byBody token x k fun _ k' => k'.mode = k.mode ∧ k'.stopped = k.stopped) :
    Leads byBody token x k fun _ k' => k'.In m :=
  hx.mono fun _ _ hm hk => h.after hm hk.1 hk.2

/-! ## what closing leaves alone -/

/-- elements may have been closed; the document and the modes are the same -/
structure Core.Spares (k j : Core) : Prop where
  tree : j.tree = k.tree
  mode : j.mode = k.mode
  originalMode : j.originalMode = k.originalMode
  entries : j.entries ⊆ k.entries

namespace Core.Spares
variable {j : Core}

theorem refl (k : Core) : k.Spares k := ⟨rfl, rfl, rfl, fun _ h => h⟩

theorem trans (h : k.Spares k') (h' : k'.Spares j) : k.Spares j :=
  ⟨h'.tree.trans h.tree, h'.mode.trans h.mode, h'.originalMode.trans h.originalMode,
    fun _ hid => h.entries (h'.entries hid)⟩

theorem closed (k : Core) {ids : List NodeId} (h : ids ⊆ k.entries) :
    k.Spares { k with entries := ids } := ⟨rfl, rfl, rfl, h⟩

end Core.Spares

/-! ## where HTML may be inserted -/

/-- in the body, and HTML may be put into the current node -/
structure Core.Ready (k : Core) : Prop extends k.In .inBody where
  takes : k.tree.TakesHtml k.entries

/-- so may an element under this rule, since nothing is in its way -/
structure Core.ReadyFor (k : Core) (n : Nesting) : Prop extends k.Ready where
  clear : n.Clear k.tree k.entries

/-- a search that fails has met a boundary first -/
theorem Nesting.clear_of_not_inScope {n : Nesting} (scope : Scope) {ids : List NodeId}
    (hb : n.boundary = scope.isBoundary)
    (h : ¬OpenElements.hasInScope ⟨ids⟩ t n.outer scope = true) : n.Clear t ids := by
  have hone : t.isHtmlOneOf [n.outer] = t.isHtml n.outer := t.isHtmlOneOf_singleton n.outer
  unfold OpenElements.hasInScope OpenElements.hasOneOfInScope at h
  rw [Bool.not_eq_true, hone, ← hb] at h
  exact h

/-- once an element is closed that must not be in another of its name there is none around -/
theorem Found.clear {n : Nesting} (hf : Found k [n.outer] inside id outside) (hs : k.Sound) :
    n.Clear k.tree outside := by
  have hnested := hs.nested
  have hid := hf.named
  rw [hf.split] at hnested
  rw [Tree.isHtmlOneOf_singleton] at hid
  exact hnested.drop.clear n hid

/-- around an HTML element HTML may be -/
theorem Found.takesHtml (hf : Found k names inside id outside) (hs : k.Sound) :
    k.tree.TakesHtml outside := by
  have hnested := hs.nested
  rw [hf.split] at hnested
  exact hnested.drop.takesHtml (Tree.html_of_isHtmlOneOf hf.named)

/-- the last step of closing an element, where nothing inside it has to stay -/
theorem Found.drop (hf : Found k names inside id outside) (h : k.In .inBody)
    (hn : ∀ n ∈ names, n ∉ keptNames)
    (hform : ∀ x ∈ inside, k.tree.isHtmlOneOf formattingNames x = false)
    (hseal : ∀ x ∈ inside, k.tree.isHtmlOneOf sealNames x = false) {rest : List NodeId}
    (hr : rest <:+ inside) :
    Move byBody token { k with entries := rest ++ id :: outside }
      { k with entries := outside } := by
  have hkept := Tree.isHtmlOneOf_disjoint hn hf.named
  have hout : ∀ x ∈ inside, k.tree.isHtmlOneOf outerNames x = false := by
    have hb := h.body rfl
    rw [hf.split] at hb
    exact hb.inside (Tree.isHtmlOneOf_subset (by decide) hkept)
  refine .drop (rest ++ [id]) (by exact congrArg Mode.isBody h.mode) ?_ fun x hx => ?_
  · exact (List.append_cons rest id outside)
  · rcases List.mem_append.mp hx with hx | hx
    · have hxin := hr.subset hx
      exact Tree.not_kept (hout x hxin) (hform x hxin) (hseal x hxin)
    · rw [List.mem_singleton.mp hx]
      exact hkept

/-- all that is inside it comes off with it -/
theorem Found.closes (hf : Found k names inside id outside) (h : k.In .inBody)
    (hn : ∀ n ∈ names, n ∉ keptNames)
    (hform : ∀ x ∈ inside, k.tree.isHtmlOneOf formattingNames x = false)
    (hseal : ∀ x ∈ inside, k.tree.isHtmlOneOf sealNames x = false) :
    Move byBody token k { k with entries := outside } := by
  have hmove : Move byBody token { k with entries := inside ++ id :: outside } _ :=
    hf.drop h hn hform hseal (List.suffix_refl _)
  rw [← hf.split] at hmove
  exact hmove

theorem Found.closed (hf : Found k names inside id outside) (h : k.In .inBody)
    (hn : ∀ n ∈ names, n ∉ keptNames)
    (hform : ∀ x ∈ inside, k.tree.isHtmlOneOf formattingNames x = false)
    (hseal : ∀ x ∈ inside, k.tree.isHtmlOneOf sealNames x = false) :
    ({ k with entries := outside } : Core).Ready := by
  have hmove : Move true .endOfFile _ _ := hf.closes h hn hform hseal
  exact ⟨h.after (.one hmove) rfl rfl, hf.takesHtml h.sound⟩

/-! ## steps of closing -/

/-- elements that are closed without an end tag -/
def Tree.implied (t : Tree) (except : Option String) : NodeId → Bool :=
  t.elementSatisfies fun e => e.hasImpliedEndTag && except != some e.localName

theorem Tree.implied_iff {except : Option String} :
    t.implied except id = true ↔
      ∃ name ∈ impliedEndNames, t.label? id = some (.html, name) ∧ except ≠ some name := by
  unfold implied elementSatisfies label? Element.hasImpliedEndTag
  cases t.element? id with
  | none => simp
  | some e =>
    show (e.isHtmlOneOf impliedEndNames && _) = true ↔ _
    rw [Bool.and_eq_true, Element.isHtmlOneOf_iff, bne_iff_ne]
    constructor
    · rintro ⟨⟨hns, hn⟩, he⟩
      exact ⟨e.localName, hn, by rw [Option.map_some, hns], he⟩
    · rintro ⟨name, hn, hl, he⟩
      rw [Option.map_some, Option.some.injEq, Prod.mk.injEq] at hl
      exact ⟨⟨hl.1, by rw [hl.2]; exact hn⟩, by rw [hl.2]; exact he⟩

theorem Tree.not_kept_of_implied {except : Option String} (h : t.implied except id = true) :
    t.isHtmlOneOf keptNames id = false := by
  obtain ⟨name, hn, hl, _⟩ := implied_iff.mp h
  have hdis : ∀ n ∈ impliedEndNames, n ∉ keptNames := by decide
  exact isHtmlOneOf_eq_false (isHtml_iff.mpr hl) (hdis name hn)

theorem Tree.html_of_implied {except : Option String} (h : t.implied except id = true) :
    t.elementSatisfies (·.ns == .html) id = true := by
  obtain ⟨name, _, hl, _⟩ := implied_iff.mp h
  exact html_of_isHtmlOneOf (isHtmlOneOf_of_isHtml (isHtml_iff.mpr hl) (List.mem_singleton_self name))

theorem generateImpliedEndTags_does (except : Option String) (k : Core) :
    Does (generateImpliedEndTags except) k ()
      { k with entries := k.entries.dropWhile (k.tree.implied except) } :=
  .change <| by
    rintro c rfl
    rfl

theorem generateImpliedEndTags_move (except : Option String) (hm : k.mode.isBody = true) :
    Move byBody token k { k with entries := k.entries.dropWhile (k.tree.implied except) } :=
  .drop _ hm List.takeWhile_append_dropWhile.symm fun _ hx =>
    Tree.not_kept_of_implied (List.mem_takeWhile_imp hx)

theorem popUntilOneOf_does (names : List String) (k : Core) :
    Does (popUntilOneOf names) k ()
      { k with entries := (k.entries.dropWhile fun id => !k.tree.isHtmlOneOf names id).tail } :=
  .change <| by
    rintro c rfl
    rfl

/-- elements that need no end tag come off first, and the element that was found stays -/
theorem Found.implied (hf : Found k names inside id outside) (except : Option String)
    (hm : k.mode.isBody = true) (himp : ∀ n ∈ names, n ∈ impliedEndNames → except = some n) :
    ∃ rest, rest <:+ inside ∧
      Does (generateImpliedEndTags except) k () { k with entries := rest ++ id :: outside } ∧
      ∀ byBody token, Move byBody token k { k with entries := rest ++ id :: outside } := by
  have hid : k.tree.implied except id = false := by
    rw [← Bool.not_eq_true]
    intro hi
    obtain ⟨name, hn, hl, he⟩ := Tree.implied_iff.mp hi
    obtain ⟨other, ho, hl'⟩ := Tree.isHtmlOneOf_iff.mp hf.named
    rw [hl] at hl'
    cases hl'
    exact he (himp name ho hn)
  obtain ⟨rest, hr, he⟩ := OpenElements.dropWhile_split inside outside hid
  rw [← hf.split] at he
  refine ⟨rest, hr, ?_, fun _ _ => ?_⟩ <;> rw [← he]
  · exact generateImpliedEndTags_does except k
  · exact generateImpliedEndTags_move except hm

/-- the last step takes the found element off, with all that is still inside it -/
theorem Found.popUntil {rest : List NodeId} (hf : Found k names inside id outside)
    (hr : rest <:+ inside) :
    Does (popUntilOneOf names) { k with entries := rest ++ id :: outside } ()
      { k with entries := outside } := by
  have hdoes := popUntilOneOf_does names { k with entries := rest ++ id :: outside }
  rw [OpenElements.dropWhile_not_split (p := k.tree.isHtmlOneOf names) hf.named
    fun x hx => hf.innermost x (hr.subset hx)] at hdoes
  exact hdoes

/-- **Closing an element that was found** closes what is inside it and no more. -/
theorem closeUpTo_tries {except : Option String} {expected : List String} {kind : ParseErrorKind}
    (hm : k.mode.isBody = true) (hf : Found k names inside id outside)
    (himp : ∀ n ∈ names, n ∈ impliedEndNames → except = some n) :
    Tries token (do
      generateImpliedEndTags except
      expectCurrent expected kind
      popUntilOneOf names) k fun _ k' => k' = { k with entries := outside } := by
  obtain ⟨rest, hr, hdoes, hmove⟩ := hf.implied except hm himp
  have hrest : Leads false token (expectCurrent expected kind)
      { k with entries := rest ++ id :: outside }
      fun _ j => j = { k with entries := rest ++ id :: outside } := .expectCurrent _ _ rfl
  refine .doThen hdoes (hmove false token) ?_
  refine (Tries.last (b := ()) hrest fun _ j hj => ?_).mono fun _ _ hk => hk.2
  rw [hj]
  exact hf.popUntil hr

/-! ## formatting elements are refused -/

theorem keepFormatting_leads (inside : List NodeId) :
    Leads byBody token (keepFormatting inside token) k fun _ k' =>
      k' = k ∧ ∀ x ∈ inside, k.tree.isHtmlOneOf formattingNames x = false := by
  refine .ask fun c hc => .ite (fun _ => .unsupported) fun hany => .value ⟨rfl, fun x hx => ?_⟩
  rw [Bool.not_eq_true, List.any_eq_false] at hany
  subst hc
  exact Bool.eq_false_iff.mpr (hany x hx)

theorem keepFormattingIn_leads (hf : Found k names inside id outside) :
    Leads byBody token (keepFormattingIn names token) k fun _ k' =>
      k' = k ∧ ∀ x ∈ inside, k.tree.isHtmlOneOf formattingNames x = false := by
  refine .ask fun c hc => ?_
  subst hc
  have hsplit : OpenElements.splitAt? (c.tree.isHtmlOneOf names) c.openElements.entries = _ :=
    hf.splitAt?
  rw [hsplit]
  exact keepFormatting_leads inside

/-- closing an element that was found, where no formatting element is inside it -/
theorem closeFound_leads {except : Option String} {expected : List String} {kind : ParseErrorKind}
    (h : k.In .inBody) (hf : Found k names inside id outside) (hn : ∀ n ∈ names, n ∉ keptNames)
    (himp : ∀ n ∈ names, n ∈ impliedEndNames → except = some n)
    (hseal : ∀ x ∈ inside, k.tree.isHtmlOneOf sealNames x = false)
    {refuse : Step Unit} (hrefuse : Leads byBody token refuse k fun _ k' =>
      k' = k ∧ ∀ x ∈ inside, k.tree.isHtmlOneOf formattingNames x = false) :
    Leads byBody token (do
      refuse
      generateImpliedEndTags except
      expectCurrent expected kind
      popUntilOneOf names) k fun _ k' => k'.Ready ∧ k' = { k with entries := outside } := by
  refine hrefuse.bind fun _ j _ hj => ?_
  obtain ⟨rfl, hform⟩ := hj
  refine .ofTries (closeUpTo_tries (h.isBody rfl) hf himp) fun _ k' hk => ?_
  rw [hk]
  exact ⟨.one (hf.closes h hn hform hseal), hf.closed h hn hform hseal, rfl⟩

theorem closeParagraph_leads (h : k.In .inBody) (hf : Found k ["p"] inside id outside)
    (hseal : ∀ x ∈ inside, k.tree.isHtmlOneOf sealNames x = false) :
    Leads byBody token (closeParagraph token) k fun _ k' => k'.ReadyFor .paragraph := by
  refine (closeFound_leads h hf (by decide) (fun n hn _ => by rw [List.mem_singleton.mp hn]) hseal
    (keepFormattingIn_leads hf)).mono fun _ k' _ hk => ?_
  have hclear : Nesting.paragraph.Clear k.tree outside := hf.clear h.sound
  obtain ⟨hready, rfl⟩ := hk
  exact ⟨hready, hclear⟩

theorem closeOpenParagraph_leads (h : k.Ready) :
    Leads byBody token (closeOpenParagraph token) k fun _ k' => k'.ReadyFor .paragraph := by
  refine .ask fun c hc => .ite (fun hp => ?_) fun hno => .value ⟨h, ?_⟩ <;> subst hc
  · obtain ⟨inside, id, outside, hf, hseal⟩ := Found.ofScope (k := c.core) hp
    exact closeParagraph_leads h.toIn hf hseal
  · exact Nesting.clear_of_not_inScope .button rfl hno

/-- the end tag of an element that does not seal off -/
theorem closeInScope_leads {name : String} {scope : Scope} {sparing : Bool} (h : k.In .inBody)
    (hk : name ∉ keptNames) (hm : name ∉ markerNames)
    (himp : name ∈ impliedEndNames → sparing = true) :
    Leads byBody token (closeInScope name scope sparing token) k fun _ k' => k'.In .inBody := by
  refine .ask fun c hc => .ite (fun hin => ?_) fun _ => .parseError _ h
  subst hc
  obtain ⟨inside, id, outside, hf, hseal⟩ := Found.ofScope (k := c.core) hin
  dsimp only
  rw [if_pos hm]
  refine (closeFound_leads h hf (fun n hn => ?_) (fun n hn hi => ?_) hseal
    (keepFormattingIn_leads hf)).mono fun _ _ _ hk => hk.1.toIn
  · rw [List.mem_singleton.mp hn]
    exact hk
  · rw [List.mem_singleton.mp hn] at hi ⊢
    rw [if_pos (himp hi)]

/-- the end tag of an element that seals off closes that element, whatever is inside it -/
theorem closeSeal_tries {name : String} {scope : Scope} (hm : k.mode.isBody = true)
    (hn : name ∈ sealNames) :
    Tries token (closeInScope name scope false token) k fun _ k' =>
      k' = k ∨ ∃ inside id outside, Found k [name] inside id outside ∧
        (∀ x ∈ inside, k.tree.isHtmlOneOf sealNames x = false) ∧
        k' = { k with entries := outside } := by
  have hmarker : ∀ n ∈ sealNames, n ∈ markerNames := by decide
  have himp : ∀ n ∈ sealNames, n ∉ impliedEndNames := by decide
  refine .ask fun c hc => .ite (fun hin => ?_) fun _ => .ofLeads (.parseError _ (Or.inl rfl))
  subst hc
  obtain ⟨inside, id, outside, hf, hseal⟩ := Found.ofScope (k := c.core) hin
  dsimp only
  rw [if_neg (not_not_intro (hmarker name hn))]
  refine (closeUpTo_tries hm hf fun n hn' hi => ?_).mono fun _ k' hk =>
    Or.inr ⟨inside, id, outside, hf, hseal, hk⟩
  rw [List.mem_singleton.mp hn'] at hi
  exact absurd hi (himp name hn)

theorem closeSeal_leads {name : String} {scope : Scope} (h : k.In .inBody) (hn : name ∈ sealNames) :
    Leads true (.endTag name) (closeInScope name scope false (.endTag name)) k fun _ _ => True := by
  have hm : k.mode.isBody = true := h.isBody rfl
  refine .ofTries (closeSeal_tries hm hn) fun _ k' hk => ⟨?_, trivial⟩
  rcases hk with rfl | ⟨inside, id, outside, hf, hseal, rfl⟩
  · exact .refl _
  · have hid := hf.named
    rw [Tree.isHtmlOneOf_singleton] at hid
    exact .one (.closeSeal rfl hm rfl hn hf.split hid hseal)

theorem closeHeading_leads {name : String} (h : k.In .inBody) :
    Leads byBody token (closeHeading name token) k fun _ k' => k'.In .inBody := by
  have hkept : ∀ n ∈ headingNames, n ∉ keptNames := by decide
  have himp : ∀ n ∈ headingNames, n ∉ impliedEndNames := by decide
  refine .ask fun c hc => .ite (fun hin => ?_) fun _ => .parseError _ h
  subst hc
  obtain ⟨inside, id, outside, hf, hseal⟩ := Found.ofScope (k := c.core) hin
  exact (closeFound_leads h hf hkept (fun n hn hi => absurd hi (himp n hn)) hseal
    (keepFormattingIn_leads hf)).mono fun _ _ _ hk => hk.1.toIn

/-! ## searches for any end tag -/

/-- a search that stops at special elements passes over none that seals off -/
theorem not_seal_of_passed {p : Element → Bool}
    (hp : ∀ e : Element, e.isHtmlOneOf sealNames = true → p e = true)
    (h : k.tree.elementSatisfies p id = false) : k.tree.isHtmlOneOf sealNames id = false :=
  Tree.elementSatisfies_mono hp h

theorem closeListItem_leads {closes : List String} (h : k.Ready)
    (hkept : ∀ n ∈ closes, n ∉ keptNames) :
    Leads byBody token (closeListItem closes token) k fun _ k' => k'.Ready := by
  refine .ask fun c hc => ?_
  subst hc
  dsimp only
  split
  · exact .value h
  rename_i inside id outside hsplit
  split
  · exact .value h
  rename_i item hitem
  obtain ⟨hid, hone⟩ := Option.filter_eq_some_iff.mp hitem
  obtain ⟨hns, hname⟩ := Element.isHtmlOneOf_iff.mp hone
  have hin := OpenElements.splitAt?_inside hsplit
  have hlabel : c.core.tree.label? id = some (.html, item.localName) := by
    show (c.tree.element? id).map _ = _
    rw [hid, Option.map_some, hns]
  have hf : Found c.core [item.localName] inside id outside := by
    refine ⟨(OpenElements.splitAt?_eq_some hsplit).1, ?_, fun x hx => ?_⟩
    · exact Tree.isHtmlOneOf_iff.mpr ⟨_, List.mem_singleton_self _, hlabel⟩
    · have hcloses : c.core.tree.isHtmlOneOf closes x = false :=
        Tree.elementSatisfies_mono (fun e he => by rw [he]; rfl) (hin x hx)
      refine Tree.isHtmlOneOf_subset (fun n hn => ?_) hcloses
      rw [List.mem_singleton.mp hn]
      exact hname
  refine (closeFound_leads h.toIn hf ?_ ?_ ?_ (keepFormatting_leads inside)).mono
    fun _ _ _ hk => hk.1
  · exact fun n hn => by rw [List.mem_singleton.mp hn]; exact hkept _ hname
  · exact fun n hn _ => by rw [List.mem_singleton.mp hn]
  · refine fun x hx => not_seal_of_passed (fun e he => ?_) (hin x hx)
    have hspecial := Element.isSpecial_of_mem (by decide) he
    have hother : e.isHtmlOneOf ["address", "div", "p"] = false := by
      rw [← Bool.not_eq_true, Element.isHtmlOneOf_iff]
      have hdis : ∀ n ∈ sealNames, n ∉ ["address", "div", "p"] := by decide
      exact fun ha => hdis _ (Element.isHtmlOneOf_iff.mp he).2 ha.2
    rw [hspecial, hother]
    exact Bool.or_true _

/-- an end tag for which nothing is open closes nothing -/
theorem closeOther_idle {name : String}
    (hno : ∀ id ∈ k.entries, k.tree.isHtml name id = false) :
    Leads byBody token (closeOther name token) k fun _ k' => k' = k := by
  refine .ask fun c hc => ?_
  subst hc
  dsimp only
  split
  · exact .value rfl
  rename_i inside id outside hsplit
  have hmem : id ∈ c.openElements.entries := by
    rw [(OpenElements.splitAt?_eq_some hsplit).1]
    exact List.mem_append_right _ List.mem_cons_self
  have hid : c.tree.isHtml name id = false := hno id hmem
  rw [if_neg (by simp [hid])]
  exact .parseError _ rfl

theorem closeOther_leads {name : String} (h : k.In .inBody) (hkept : name ∉ keptNames) :
    Leads byBody token (closeOther name token) k fun _ k' => k'.In .inBody := by
  refine .ask fun c hc => ?_
  subst hc
  dsimp only
  split
  · exact .value h
  rename_i inside id outside hsplit
  refine .ite (fun hid => ?_) fun _ => .parseError _ h
  have hin := OpenElements.splitAt?_inside hsplit
  have hf : Found c.core [name] inside id outside := by
    refine ⟨(OpenElements.splitAt?_eq_some hsplit).1, ?_, fun x hx => ?_⟩
    · exact Tree.isHtmlOneOf_of_isHtml hid (List.mem_singleton_self _)
    · refine Tree.elementSatisfies_mono (fun e he => ?_) (hin x hx)
      obtain ⟨hns, hn⟩ := Element.isHtmlOneOf_iff.mp he
      rw [show e.isHtml name = true by
        unfold Element.isHtml
        rw [hns, List.mem_singleton.mp hn, beq_self_eq_true, beq_self_eq_true]
        rfl]
      rfl
  have hone : ∀ n ∈ [name], n ∉ keptNames := fun n hn => by
    rw [List.mem_singleton.mp hn]
    exact hkept
  have hseal : ∀ x ∈ inside, c.core.tree.isHtmlOneOf sealNames x = false := fun x hx =>
    not_seal_of_passed (fun e he => by rw [Element.isSpecial_of_mem (by decide) he, Bool.or_true])
      (hin x hx)
  refine .staying h ((keepFormatting_leads inside).bind fun _ j _ hj => ?_)
  obtain ⟨rfl, hform⟩ := hj
  obtain ⟨rest, hr, hdoes, hmove⟩ := hf.implied (some name) (h.isBody rfl)
    fun n hn _ => by rw [List.mem_singleton.mp hn]
  refine .doThen hdoes (.one (hmove _ _)) ?_
  refine .ask fun _ _ => .complainThen _ (.doing (Does.change fun d hd => ?_)
    (.one (hf.drop h hone hform hseal hr)) ⟨rfl, rfl⟩)
  exact congrArg (fun j : Core => { j with entries := outside }) hd

/-- the end tag of a formatting element closes that element if it is the current node, and nothing
else -/
theorem closeFormatting_tries (name : String) (k : Core) :
    Tries token (closeFormatting name token) k fun _ k' =>
      k' = k ∨ ∃ id rest, k.entries = id :: rest ∧ k.tree.isHtml name id = true ∧
        k' = { k with entries := rest } := by
  refine .ask fun c hc => .ite (fun hcur => ?_) fun _ =>
    .ite (fun _ => .ofLeads .unsupported) fun hno => .ofLeads ?_
  · subst hc
    obtain ⟨id, rest, he, hname⟩ : ∃ id rest, c.core.entries = id :: rest ∧
        c.core.tree.isHtml name id = true := by
      have hcur' : (c.core.entries.head?.any (c.core.tree.isHtml name)) = true := hcur
      cases he : c.core.entries with
      | nil =>
        rw [he] at hcur'
        cases hcur'
      | cons id rest =>
        rw [he] at hcur'
        exact ⟨id, rest, rfl, hcur'⟩
    have hpop := Does.popElement c.core
    rw [he] at hpop
    refine Ends.mono hpop (fun _ _ hk => Or.inr ⟨id, rest, he, hname, hk.2⟩) fun _ _ hk => hk.elim
  · subst hc
    rw [Bool.not_eq_true, OpenElements.containsHtml, List.any_eq_false] at hno
    exact (closeOther_idle fun id hid => Bool.eq_false_iff.mpr (hno id hid)).mono
      fun _ _ _ hk => Or.inl hk

theorem closeFormatting_leads {name : String} (h : k.In .inBody) (hn : name ∈ formattingNames) :
    Leads true (.endTag name) (closeFormatting name (.endTag name)) k fun _ _ => True := by
  refine .ofTries (closeFormatting_tries name k) fun _ k' hk => ⟨?_, trivial⟩
  rcases hk with rfl | ⟨id, rest, he, hname, rfl⟩
  · exact .refl _
  · exact .one (.closeFormatting rfl (h.isBody rfl) rfl hn he hname)

/-! ## forms and the body -/

/-- the form of the element pointer is taken out of the stack wherever it stands -/
theorem closeForm_leads (h : k.In .inBody) :
    Leads byBody token closeForm k fun _ k' => k'.In .inBody := by
  refine .staying h (.ask fun c hc => ?_)
  subst hc
  have hset : Does (modify fun c : Constructor => { c with form := none }) c.core ()
      { c.core with form := none } := .change fun d hd => by
    rw [← hd]
    rfl
  refine .doThen hset (.one (.setForm (by exact fun _ hid => nomatch hid))) ?_
  split
  · exact .parseError _ ⟨rfl, rfl⟩
  · rename_i form hform
    have hname := h.sound.bears.form form (Option.filter_eq_some_iff.mp hform).1
    have hbody : c.core.mode.isBody = true := h.isBody rfl
    refine .doThen (generateImpliedEndTags_does none _)
      (.one (generateImpliedEndTags_move none hbody)) ?_
    refine .ask fun _ _ => .complainThen _ (.doing (Does.change fun d hd => ?_)
      (.one (.removeForm hbody hname)) ⟨rfl, rfl⟩)
    exact congrArg (fun j : Core => { j with entries := j.entries.erase form }) hd

/-- the end of the body goes on to the mode after it or does nothing, whatever the state -/
theorem closeBody_ends (k : Core) :
    Ends closeBody k (fun ended j => j = if ended then { k with mode := .afterBody } else k)
      fun _ _ => True := by
  have hend : Ends (switchTo .afterBody >>= fun _ => pure true) k
      (fun ended j => j = if ended then { k with mode := .afterBody } else k) fun _ _ => True :=
    (Does.switchTo .afterBody k).andThen (Ends.value rfl)
  refine Ends.ask fun c _ => ?_
  split
  · split
    · exact Ends.parseErrorThen _ hend fun _ _ => trivial
    · exact hend
  · exact Ends.parseErrorThen _ (Ends.value rfl) fun _ _ => trivial

/-- the end of the body goes on to the mode after it, if there is a body in scope -/
theorem closeBody_leads (h : k.In .inBody) :
    Leads byBody token closeBody k fun ended k' =>
      k'.stopped = false ∧ k'.mode = if ended then .afterBody else .inBody := by
  refine .ask fun c hc => .ite (fun _ => .complainThen _ ?_) fun _ => .parseErrorThen _ (.value ?_)
  · refine .doThen (.switchTo .afterBody _) (.one (.goto ?_ rfl)) (.value ⟨h.active, rfl⟩)
    rw [h.mode]
    rfl
  · exact ⟨h.active, h.mode⟩

end HtmlTree
