import HtmlTree.Proofs.EarlyBlanks
import HtmlTree.Proofs.Supports

/-!
# What the tokenizer is told

Some elements are read by the tokenizer in a state of its own, so that it must be told of their
start tags.  A token inserts at most one of them, and it is announced exactly then; all but the
`plaintext` element are open in the text mode after that, which is entered in no other way.

* `contentState?`              the state for the content of an element;
* `Core.Silent`                nothing was done that had to be announced;
* `Core.Announces`             one element was inserted that is;
* `Tells`                      a run that is silent, or announces and succeeds;
* `dispatch_tells`, `processToken_tells`   **every round and every token tells what it does**.
-/

namespace HtmlTree

variable {α β : Type} {x : Step α} {f : α → Step β} {a : α} {b : β} {k j i : Core}
  {token t : Token} {tag : StartTag} {m : Mode} {id place : NodeId} {s : TokenizerState}
  {byBody : Bool} {c d : Constructor}

/-! ## states for content -/

/-- the tokenizer state for the content of an HTML element of this name -/
def contentState? (scripting : Bool) (name : String) : Option TokenizerState :=
  if name ∈ ["title", "textarea"] then some .rcdata
  else if name = "script" then some .scriptData
  else if name ∈ ["style", "xmp", "iframe", "noembed", "noframes"] then some .rawtext
  else if name = "noscript" ∧ scripting = true then some .rawtext
  else if name = "plaintext" then some .plaintext
  else none

theorem mem_askingNames_of_state {scripting : Bool} {name : String}
    (h : contentState? scripting name = some s) : name ∈ askingNames := by
  have hrcdata : ∀ n ∈ ["title", "textarea"], n ∈ askingNames := by decide
  have hrawtext : ∀ n ∈ ["style", "xmp", "iframe", "noembed", "noframes"], n ∈ askingNames := by
    decide
  unfold contentState? at h
  split_ifs at h with ht hscript hraw hno hplain
  · exact hrcdata name ht
  · rw [hscript]
    decide
  · exact hrawtext name hraw
  · rw [hno.1]
    decide
  · rw [hplain]
    decide

/-- the state that a rule of the head asks for -/
def HeadStart.state? : HeadStart → Option TokenizerState
  | title => some .rcdata
  | rawText => some .rawtext
  | script => some .scriptData
  | _ => none

/-- the state that a rule of the body asks for -/
def BodyStart.state? (scripting : Bool) : BodyStart → Option TokenizerState
  | textarea => some .rcdata
  | xmp | iframe | rawText => some .rawtext
  | noscript => if scripting then some .rawtext else none
  | plaintext => some .plaintext
  | _ => none

/-- the rules of the head go by the names -/
theorem HeadStart.state?_eq {scripting : Bool} {rule : HeadStart} (hn : tag.name ∈ askingNames)
    (h : ofName? scripting tag.name = some rule) :
    contentState? scripting tag.name = rule.state? := by
  have hall : ∀ scripting, ∀ n ∈ askingNames,
      (ofName? scripting n).all (fun rule => contentState? scripting n == rule.state?) = true := by
    decide
  have hrule := hall scripting tag.name hn
  rw [h, Option.all_some, beq_iff_eq] at hrule
  exact hrule

/-- and so do those of the body, which leave some names to the rules of the head -/
theorem BodyStart.state?_eq (scripting : Bool) (hn : tag.name ∈ askingNames) :
    ofName tag.name = headContent ∨
      ofName tag.name ∈ asking ∧
        contentState? scripting tag.name = (ofName tag.name).state? scripting := by
  have hall : ∀ scripting, ∀ n ∈ askingNames, ofName n = headContent ∨
      ofName n ∈ asking ∧ contentState? scripting n = (ofName n).state? scripting := by
    decide
  exact hall scripting tag.name hn

namespace Tree
variable {t u v : Tree} {scripting : Bool} {names : List String}

/-- the tokenizer state for the content of a node -/
def contentState? (t : Tree) (scripting : Bool) (id : NodeId) : Option TokenizerState :=
  (t.label? id).bind fun l => if l.1 = .html then HtmlTree.contentState? scripting l.2 else none

theorem contentState?_eq_some_iff : t.contentState? scripting id = some s ↔
    ∃ name, t.isHtml name id = true ∧ HtmlTree.contentState? scripting name = some s := by
  unfold contentState?
  simp only [isHtml_iff]
  cases t.label? id with
  | none => simp
  | some l =>
    obtain ⟨ns, name⟩ := l
    by_cases hns : ns = .html
    · simp [hns]
    · simp [hns]

theorem contentState?_congr (h : u.label? id = t.label? id) :
    u.contentState? scripting id = t.contentState? scripting id := by
  unfold contentState?
  rw [h]

theorem index_lt_of_contentState? (h : t.contentState? scripting id = some s) :
    id.index < t.size := by
  obtain ⟨name, hname, _⟩ := contentState?_eq_some_iff.mp h
  exact index_lt_of_label? (label?_isSome_of_isHtml hname)

/-- what was there before has the state that it had -/
theorem Within.contentState? (hw : t.Within u) (hid : id.index < t.size) :
    u.contentState? scripting id = t.contentState? scripting id := contentState?_congr (hw.label? hid)

/-- where there are no more elements of these names there are no more that are announced -/
theorem NoMore.contentState? (h : t.NoMore askingNames u) (hw : t.Within u)
    (hs : u.contentState? scripting id = some s) : t.contentState? scripting id = some s := by
  obtain ⟨name, hname, hstate⟩ := contentState?_eq_some_iff.mp hs
  have hold := h id (isHtmlOneOf_of_isHtml hname (mem_askingNames_of_state hstate))
  rw [← hw.contentState? (index_lt_of_isHtmlOneOf hold)]
  exact hs

/-- the state for a new element is that for its tag -/
theorem contentState?_attach_tag (t : Tree) (scripting : Bool) (place : NodeId) (tag : StartTag) :
    (t.attach place (.element (.ofTag tag.name tag.attributes .html))).contentState? scripting
      ⟨t.size⟩ = HtmlTree.contentState? scripting tag.name := by
  unfold contentState?
  rw [label?_attach_new]
  rfl

/-- an element is new, or it was there before -/
theorem contentState?_attach {d : NodeData} (h : (t.attach place d).contentState? scripting id = some s) :
    id = ⟨t.size⟩ ∨ t.contentState? scripting id = some s := by
  rcases eq_new_or_lt (index_lt_of_contentState? h) with hnew | hlt
  · exact Or.inl hnew
  · rw [(within_attach t place d).contentState? hlt] at h
    exact Or.inr h

end Tree

/-! ## silence and announcements -/

namespace Core

/-- no new element has content with a state of its own, and the mode is the one for text only if it
was before -/
structure Silent (k j : Core) : Prop where
  options : j.options = k.options
  within : k.tree.Within j.tree
  elements : ∀ id s, j.tree.contentState? k.options.scripting id = some s →
    k.tree.contentState? k.options.scripting id = some s
  text : j.mode = .text → k.mode = .text

/-- one new element has content with a state of its own; if that is text only, the element is the
current node and the mode is the one for it -/
structure Announces (k : Core) (s : TokenizerState) (id : NodeId) (j : Core) : Prop where
  options : j.options = k.options
  new : k.tree.size ≤ id.index
  element : j.tree.contentState? k.options.scripting id = some s
  only : ∀ other state, j.tree.contentState? k.options.scripting other = some state →
    other = id ∨ k.tree.contentState? k.options.scripting other = some state
  textOnly : s ≠ .plaintext → j.mode = .text ∧ j.entries.head? = some id
  plaintext : s = .plaintext → j.mode = .text → k.mode = .text

theorem Silent.refl (k : Core) : k.Silent k := ⟨rfl, .refl _, fun _ _ h => h, fun h => h⟩

theorem Silent.trans (h : k.Silent j) (h' : j.Silent i) : k.Silent i where
  options := h'.options.trans h.options
  within := h.within.trans h'.within
  elements := fun id s hs => by
    rw [← h.options] at hs
    have hj := h'.elements id s hs
    rw [h.options] at hj
    exact h.elements id s hj
  text := fun hi => h.text (h'.text hi)

theorem Silent.announces (h : k.Silent j) (h' : j.Announces s id i) : k.Announces s id i where
  options := h'.options.trans h.options
  new := h.within.size_le.trans h'.new
  element := by
    rw [← h.options]
    exact h'.element
  only := fun other state hs => by
    rw [← h.options] at hs
    refine (h'.only other state hs).imp_right fun hj => ?_
    rw [h.options] at hj
    exact h.elements other state hj
  textOnly := h'.textOnly
  plaintext := fun hs hi => h.text (h'.plaintext hs hi)

end Core

theorem Move.text_of_noMore (hm : Move byBody token k j)
    (hno : k.tree.NoMore textOnlyNames j.tree) (ht : j.mode = .text) : k.mode = .text := by
  cases hm with
  | @textOnly place e _ _ he =>
    have hnew : (k.tree.attach place (.element e)).isHtmlOneOf textOnlyNames ⟨k.tree.size⟩ = true :=
      (Tree.isHtmlOneOf_attach_new _ _ _ _).trans he
    exact absurd (Tree.index_lt_of_isHtmlOneOf (hno _ hnew)) (Nat.lt_irrefl _)
  | leaveText _ _ hm => exact absurd ht (Mode.hostsText_facts hm).1
  | goto _ hm => exact absurd ht (Mode.isBody_facts hm).1
  | _ => first | exact ht | cases ht

/-- the mode for text is entered with a new element only -/
theorem Moves.text_of_noMore (hm : Moves byBody token k j)
    (hno : k.tree.NoMore textOnlyNames j.tree) (ht : j.mode = .text) : k.mode = .text := by
  induction hm with
  | refl => exact ht
  | @tail i j hmoves hm ih =>
    have hw : k.tree.Within i.tree := (show Moves byBody token k i from hmoves).within
    have hlast : i.tree.NoMore textOnlyNames j.tree := fun id hid =>
      Tree.isHtmlOneOf_within hw (hno id hid)
    refine ih (fun id hid => hno id ?_) (hm.text_of_noMore hlast ht)
    exact Tree.isHtmlOneOf_within hm.within hid

/-! ## runs -/

/-- nothing had to be announced, and nothing was -/
structure Constructor.Quiet (c d : Constructor) : Prop where
  silent : c.core.Silent d.core
  requestedState : d.requestedState = c.requestedState

/-- one element had to be announced, and it was -/
structure Constructor.Told (c d : Constructor) (s : TokenizerState) (id : NodeId) : Prop where
  announces : c.core.Announces s id d.core
  requestedState : d.requestedState = some s

/-- a run told nothing, or it told of one element and succeeded with `a` -/
def Tells (a : α) (c : Constructor) (r : Except Failure α × Constructor) : Prop :=
  c.Quiet r.2 ∨ r.1 = .ok a ∧ ∃ s id, c.Told r.2 s id

namespace Constructor

theorem Quiet.refl (c : Constructor) : c.Quiet c := ⟨.refl _, rfl⟩

theorem Quiet.trans {e : Constructor} (h : c.Quiet d) (h' : d.Quiet e) : c.Quiet e :=
  ⟨h.silent.trans h'.silent, h'.requestedState.trans h.requestedState⟩

/-- a change of neither the core nor the request -/
theorem Quiet.same (hc : d.core = c.core) (hr : d.requestedState = c.requestedState) : c.Quiet d :=
  ⟨by rw [hc]; exact .refl _, hr⟩

theorem Quiet.told {e : Constructor} (h : c.Quiet d) (h' : d.Told e s id) : c.Told e s id :=
  ⟨h.silent.announces h'.announces, h'.requestedState⟩

theorem Told.same {e : Constructor} (h : c.Told d s id) (hc : e.core = d.core)
    (hr : e.requestedState = d.requestedState) : c.Told e s id :=
  ⟨by rw [hc]; exact h.announces, hr.trans h.requestedState⟩

end Constructor

namespace Tells
variable {r : Except Failure α × Constructor}

theorem quiet (h : c.Quiet r.2) : Tells a c r := Or.inl h

/-- what is told after a run that was quiet -/
theorem after (h : c.Quiet d) (hr : Tells a d r) : Tells a c r := by
  rcases hr with hq | ⟨ho, s, id, ht⟩
  · exact Or.inl (h.trans hq)
  · exact Or.inr ⟨ho, s, id, h.told ht⟩

theorem bind (hx : c.Quiet (x.run c).2)
    (hf : ∀ a d, x.run c = (.ok a, d) → Tells b d ((f a).run d)) :
    Tells b c ((x >>= f).run c) := by
  rw [Step.run_bind]
  rcases hr : x.run c with ⟨e | a, d⟩ <;> rw [hr] at hx
  · exact quiet hx
  · exact after hx (hf a d hr)

/-- a last step that neither fails nor has to do with what is told -/
theorem last {x : Step Unit} {y : Step α} {g : Constructor → Constructor}
    (hx : Tells () c (x.run c)) (hy : ∀ d, y.run d = (.ok a, g d))
    (hc : ∀ d, (g d).core = d.core) (hr : ∀ d, (g d).requestedState = d.requestedState) :
    Tells a c ((x >>= fun _ => y).run c) := by
  rw [Step.run_bind]
  rcases ho : x.run c with ⟨e | _, d⟩ <;> rw [ho] at hx
  · rcases hx with hq | ⟨he, _⟩
    · exact quiet hq
    · cases he
  · show Tells a c (y.run d)
    rw [hy d]
    rcases hx with hq | ⟨_, s, id, ht⟩
    · exact quiet (hq.trans (.same (hc d) (hr d)))
    · exact Or.inr ⟨rfl, s, id, ht.same (hc d) (hr d)⟩

theorem finished {x : Step Unit} (hx : Tells () c (x.run c)) :
    Tells .done c ((finished x).run c) := last hx (fun _ => rfl) (fun _ => rfl) fun _ => rfl

/-- a change that is made also where the step before it failed -/
theorem ensure {x : Step Unit} {g : Constructor → Constructor} (hx : Tells () c (x.run c))
    (hq : ∀ d, c.Quiet d → c.Quiet (g d)) (ht : ∀ d s id, c.Told d s id → c.Told (g d) s id) :
    Tells () c ((do
      tryCatch x fun e => do
        modify g
        throw e
      modify g : Step Unit).run c) := by
  rw [Step.run_bind, Step.run_tryCatch]
  rcases ho : x.run c with ⟨e | _, d⟩ <;> rw [ho] at hx
  · rcases hx with hx | ⟨he, _⟩
    · exact quiet (hq d hx)
    · cases he
  · rcases hx with hx | ⟨_, s, id, hx⟩
    · exact quiet (hq d hx)
    · exact Or.inr ⟨rfl, s, id, ht d s id hx⟩

end Tells

/-! ## runs that tell nothing -/

theorem Token.not_asking (ht : t.asksForState = false) (tag : StartTag) (he : t = .startTag tag) :
    tag.name ∉ askingNames := fun hn => by
  rw [he, Token.asksForState_startTag.mpr hn] at ht
  cases ht

theorem Written.requestedState {r s : Bool} (h : Written t r s x) (ht : t.asksForState = false)
    (c : Constructor) : (x.run c).2.requestedState = c.requestedState :=
  h.rel (R := fun c d => d.requestedState = c.requestedState) (fun _ => rfl)
    (fun hab hbc => hbc.trans hab) (fun hg c => hg.requestedState ht c) (fun _ _ => rfl)
    (fun _ _ _ _ => by rw [appendNew_run]) (fun _ _ _ => rfl) (fun _ _ => rfl) c

/-- **Rules written for a token that asks for nothing tell nothing**, whatever token they are applied
to. -/
theorem Written.quiet {r s : Bool} {Q : α → Core → Prop} (hw : Written t r s x)
    (ht : t.asksForState = false) (hl : Leads byBody token x c.core Q) : c.Quiet (x.run c).2 := by
  have hm := hl.moves
  have hno : c.tree.NoMore askingNames (x.run c).2.tree :=
    hw.noMore (by decide) (Token.not_asking ht) c
  have htext : c.tree.NoMore textOnlyNames (x.run c).2.tree :=
    hw.noMore (by decide)
      (fun tag he hn => Token.not_asking ht tag he (List.mem_cons_of_mem _ hn)) c
  exact ⟨⟨hm.options, hm.within, fun _ _ hs => hno.contentState? hm.within hs,
    hm.text_of_noMore htext⟩, hw.requestedState ht c⟩

theorem parseError_quiet (kind : ParseErrorKind) (c : Constructor) :
    c.Quiet ((parseError kind).run c).2 := by
  rw [parseError_run]
  exact .same rfl rfl

/-! ## inserting elements that ask for a state -/

theorem insertHtml_requestedState (tag : StartTag) (c : Constructor) :
    ((insertHtml tag).run c).2.requestedState = c.requestedState := by
  have hcurrent : Written .endOfFile false false currentNode := .currentNode
  refine Step.bind_rel (R := fun c d => d.requestedState = c.requestedState)
    (fun hab hbc => hbc.trans hab) (hcurrent.requestedState rfl) (fun place => ?_) c
  refine Step.bind_rel (R := fun c d => d.requestedState = c.requestedState)
    (fun hab hbc => hbc.trans hab) (fun d => ?_) fun _ _ => rfl
  rw [appendNew_run]

theorem insertHtml_run (tag : StartTag) (h : c.core.At place) :
    ∃ d, (insertHtml tag).run c = (.ok ⟨c.tree.size⟩, d) ∧
      d.core = c.core.opened place (.ofTag tag.name tag.attributes .html) ∧
      d.requestedState = c.requestedState := by
  have hdoes := Does.insertHtml tag h c rfl
  have hrequest := insertHtml_requestedState tag c
  rcases hr : (insertHtml tag).run c with ⟨_ | id, d⟩ <;> rw [hr] at hdoes hrequest
  · exact hdoes.elim
  · obtain ⟨rfl, hcore⟩ := hdoes
    exact ⟨d, rfl, hcore, hrequest⟩

/-- an element is inserted that need not be announced -/
theorem insertHtml_quiet (h : c.core.At place)
    (hs : contentState? c.options.scripting tag.name = none) :
    c.Quiet ((insertHtml tag).run c).2 := by
  obtain ⟨d, hr, hcore, hrequest⟩ := insertHtml_run tag h
  rw [hr]
  refine ⟨?_, hrequest⟩
  show c.core.Silent d.core
  rw [hcore]
  refine ⟨rfl, Tree.within_attach _ _ _, fun id s hid => ?_, fun ht => ht⟩
  refine (Tree.contentState?_attach hid).resolve_left fun hnew => ?_
  rw [hnew, Core.opened, Tree.contentState?_attach_tag] at hid
  exact nomatch hs.symm.trans hid

/-- an element is inserted that is announced; in a text-only one the mode is the one for it -/
theorem Core.Announces.opened (hs : contentState? k.options.scripting tag.name = some s)
    (ho : j.options = k.options)
    (ht : j.tree = k.tree.attach place (.element (.ofTag tag.name tag.attributes .html)))
    (htext : s ≠ .plaintext → j.mode = .text ∧ j.entries.head? = some ⟨k.tree.size⟩)
    (hplain : s = .plaintext → j.mode = k.mode) : k.Announces s ⟨k.tree.size⟩ j where
  options := ho
  new := Nat.le_refl _
  element := by rw [ht, Tree.contentState?_attach_tag, hs]
  only := fun other state h => by
    rw [ht] at h
    exact Tree.contentState?_attach h
  textOnly := htext
  plaintext := fun h hj => (hplain h).symm.trans hj

theorem insertTextOnly_tells (h : c.core.At place)
    (hs : contentState? c.options.scripting tag.name = some s) (hne : s ≠ .plaintext) :
    Tells () c ((insertTextOnly tag s).run c) := by
  obtain ⟨d, hr, hcore, _⟩ := insertHtml_run tag h
  have hrun : (insertTextOnly tag s).run c =
      (.ok (), { d with requestedState := some s, originalMode := some d.mode, mode := .text }) :=
    Step.run_bind_ok hr
  have hoptions : d.options = c.options := congrArg Core.options hcore
  have htree := congrArg Core.tree hcore
  have hcurrent : d.core.entries.head? = some ⟨c.tree.size⟩ := by rw [hcore]; rfl
  rw [hrun]
  exact Or.inr ⟨rfl, s, ⟨c.tree.size⟩,
    .opened hs hoptions htree (fun _ => ⟨rfl, hcurrent⟩) fun he => absurd he hne, rfl⟩

theorem insertPlaintext_tells (h : c.core.At place)
    (hs : contentState? c.options.scripting tag.name = some .plaintext) :
    Tells () c ((insertPlain tag >>= fun _ => requestState .plaintext).run c) := by
  obtain ⟨d, hr, hcore, _⟩ := insertHtml_run tag h
  have hplain : (insertPlain tag).run c = (.ok (), d) := Step.run_bind_ok hr
  have hoptions : d.options = c.options := congrArg Core.options hcore
  have htree := congrArg Core.tree hcore
  have hmode : d.mode = c.mode := congrArg Core.mode hcore
  rw [Step.run_bind_ok hplain]
  exact Or.inr ⟨rfl, .plaintext, ⟨c.tree.size⟩,
    .opened hs hoptions htree (fun he => absurd rfl he) fun _ => hmode, rfl⟩

/-! ## rules of the head -/

theorem asking_not_void : ∀ n ∈ askingNames, n ∉ voidNames := by decide

theorem HeadStart.apply_tells {rule : HeadStart} (hp : c.core.At place)
    (hn : tag.name ∈ askingNames)
    (hr : HeadStart.ofName? c.options.scripting tag.name = some rule) :
    Tells () c ((rule.apply tag).run c) := by
  have hstate := HeadStart.state?_eq hn hr
  cases rule with
  | void => exact absurd (HeadStart.admits_of_ofName? hr) (asking_not_void _ hn)
  | title | rawText | script => exact insertTextOnly_tells hp hstate (by decide)
  | noscript =>
    refine .bind (insertHtml_quiet hp hstate) fun _ _ _ => .quiet ⟨?_, rfl⟩
    exact ⟨rfl, .refl _, fun _ _ h => h, nofun⟩
  | template =>
    have hw : Written .endOfFile true false (unsupported (.startTag tag) : Step Unit) :=
      .unsupported _ rfl
    have hl : Leads true (.startTag tag) (unsupported (.startTag tag) : Step Unit) c.core
      fun _ _ => True := .unsupported
    exact .quiet (hw.quiet rfl hl)

theorem headContent_tells (hp : c.core.At place) (hn : tag.name ∈ askingNames) :
    Tells () c ((headContent tag).run c) := by
  unfold headContent
  rw [Step.run_get_bind]
  split
  · exact HeadStart.apply_tells hp hn ‹_›
  · exact .quiet (.refl c)

/-- the head is opened just for the tag; what is announced stays open when the head is closed -/
theorem lateHeadContent_tells (h : c.core.In .afterHead) (hn : tag.name ∈ askingNames) :
    Tells () c ((lateHeadContent tag).run c) := by
  obtain ⟨head, hhead⟩ := Option.isSome_iff_exists.mp (h.fits.head_iff.mpr rfl)
  have hlabel := Tree.label?_isSome_of_isHtml (h.sound.bears.head head hhead)
  have hlt : head.index < c.tree.size := Tree.index_lt_of_label? hlabel
  unfold lateHeadContent
  refine .bind (parseError_quiet _ c) fun _ d hd => ?_
  rw [parseError_run] at hd
  obtain rfl : c.recorded (c.errorOf .unexpectedStartTag) = d := congrArg Prod.snd hd
  rw [Step.run_get_bind]
  rw [show (c.recorded (c.errorOf .unexpectedStartTag)).head = some head from hhead]
  let e := { c.recorded (c.errorOf .unexpectedStartTag) with
    openElements := c.openElements.push head }
  have hat : e.core.At head := ⟨h.sound.bears.grown, rfl, hlabel⟩
  refine .after (d := e) ⟨⟨rfl, .refl _, fun _ _ h => h, fun h => h⟩, rfl⟩ ?_
  refine Tells.ensure (headContent_tells hat hn) (fun d hq => ?_) fun d s id ht => ?_
  · exact ⟨⟨hq.silent.options, hq.silent.within, hq.silent.elements, hq.silent.text⟩,
      hq.requestedState⟩
  · have ha := ht.announces
    refine ⟨⟨ha.options, ha.new, ha.element, ha.only, fun hne => ?_, ha.plaintext⟩,
      ht.requestedState⟩
    obtain ⟨hmode, hcurrent⟩ := ha.textOnly hne
    refine ⟨hmode, ?_⟩
    show (d.openElements.entries.erase head).head? = some id
    have hid : id ≠ head := fun he => by
      have hnew : c.tree.size ≤ id.index := ha.new
      rw [he] at hnew
      exact absurd hlt (Nat.not_lt.mpr hnew)
    obtain ⟨rest, hrest⟩ := List.head?_eq_some_iff.mp hcurrent
    rw [show d.openElements.entries = id :: rest from hrest, List.erase_cons_tail (by simp [hid])]
    rfl

/-! ## rules of the body -/

theorem insertPlain_quiet (h : c.core.At place)
    (hs : contentState? c.options.scripting tag.name = none) :
    c.Quiet ((insertPlain tag).run c).2 := by
  obtain ⟨d, hr, _⟩ := insertHtml_run tag h
  have hquiet := insertHtml_quiet h hs
  have hplain : (insertPlain tag).run c = (.ok (), d) := Step.run_bind_ok hr
  rw [hr] at hquiet
  rw [hplain]
  exact hquiet

theorem closeOpenParagraph_quiet (h : c.core.Ready) :
    c.Quiet ((closeOpenParagraph token).run c).2 := by
  have hw : Written .endOfFile true false (closeOpenParagraph token) := .closeOpenParagraph token
  have hl : Leads true token (closeOpenParagraph token) c.core _ := closeOpenParagraph_leads h
  exact hw.quiet rfl hl

/-- what follows the closing of a paragraph finds the body ready as well -/
theorem Tells.afterParagraph {f : Unit → Step α} (h : c.core.Ready)
    (hf : ∀ d place, d.options = c.options → d.core.At place → Tells a d ((f ()).run d)) :
    Tells a c ((closeOpenParagraph (.startTag tag) >>= f).run c) := by
  refine .bind (closeOpenParagraph_quiet h) fun _ d hd => ?_
  have hl : Leads true (.startTag tag) (closeOpenParagraph (.startTag tag)) c.core _ :=
    closeOpenParagraph_leads h
  obtain ⟨place, hp⟩ := (hl.answer hd).toIn.exists_at (by decide) (by decide)
  have hm := hl.moves
  rw [hd] at hm
  exact hf d place hm.options hp

theorem Tells.afterFrameset {f : Unit → Step α}
    (hf : ∀ d, d.core = c.core → Tells a d ((f ()).run d)) :
    Tells a c ((framesetNotOk >>= f).run c) :=
  .after (d := { c with framesetOk := false }) (.same rfl rfl) (hf _ rfl)

theorem bodyStart_tells (h : c.core.Meets .inBody (.startTag tag)) (hn : tag.name ∈ askingNames) :
    Tells .done c (((BodyStart.ofName tag.name).apply tag).run c) := by
  have hsvg : "svg" ∉ askingNames := by decide
  have hready := h.ready_of_startTag fun he => hsvg (he ▸ hn)
  obtain ⟨place, hp⟩ := h.toIn.exists_at (by decide) (by decide)
  rcases BodyStart.state?_eq c.options.scripting hn with hrule | ⟨hmem, hstate⟩
  · rw [hrule]
    exact (headContent_tells hp hn).finished
  generalize BodyStart.ofName tag.name = rule at hmem hstate
  cases rule with
  | plaintext =>
    have hparts : startPlaintext tag = closeOpenParagraph (.startTag tag) >>= fun _ =>
        insertPlain tag >>= fun _ => requestState .plaintext := bind_assoc _ _ _
    refine Tells.finished ?_
    rw [hparts]
    refine .afterParagraph hready fun d place ho hp => insertPlaintext_tells hp ?_
    rw [ho]
    exact hstate
  | textarea =>
    refine Tells.finished ?_
    exact Tells.last (insertTextOnly_tells hp hstate (by decide)) (fun _ => rfl) (fun _ => rfl)
      fun _ => rfl
  | xmp =>
    refine Tells.finished (.afterParagraph hready fun d place ho hp => .afterFrameset fun e he => ?_)
    rw [← he] at hp
    refine insertTextOnly_tells hp ?_ (by decide)
    rw [show e.options = c.options from (congrArg Core.options he).trans ho]
    exact hstate
  | iframe =>
    refine Tells.finished (.afterFrameset fun e he => ?_)
    rw [← he] at hp
    refine insertTextOnly_tells hp ?_ (by decide)
    rw [show e.options = c.options from congrArg Core.options he]
    exact hstate
  | rawText => exact (insertTextOnly_tells hp hstate (by decide)).finished
  | noscript =>
    refine Tells.finished ?_
    unfold startNoscript
    rw [Step.run_get_bind]
    cases hscripting : c.options.scripting with
    | true =>
      rw [BodyStart.state?, hscripting] at hstate
      refine insertTextOnly_tells hp ?_ (by decide)
      rw [hscripting]
      exact hstate
    | false =>
      rw [BodyStart.state?, hscripting] at hstate
      refine .quiet (insertPlain_quiet hp ?_)
      rw [hscripting]
      exact hstate
  | _ => exact absurd hmem (by decide)

/-! ## all modes -/

theorem asking_names_plain : ∀ n ∈ askingNames, n ≠ "html" ∧ n ≠ "head" ∧ n ≠ "body" ∧
    n ≠ "frameset" := by decide

/-- rules for other tokens do for a tag that asks -/
theorem Tells.written {x : Step α} {Q : α → Core → Prop}
    (hw : Written .endOfFile true true x) (hl : Leads byBody token x c.core Q) :
    Tells a c (x.run c) := .quiet (hw.quiet rfl hl)

theorem modeRules_tells (h : c.core.Meets m (.startTag tag)) (hn : tag.name ∈ askingNames) :
    Tells .done c ((modeRules m (.startTag tag)).run c) := by
  obtain ⟨hhtml, hhead, hbody, hframeset⟩ := asking_names_plain _ hn
  have hl : Leads true (.startTag tag) (modeRules m (.startTag tag)) c.core _ :=
    modeRules_leads h fun _ => rfl
  cases m with
  | initial => exact .written (.missDoctype _) hl
  | beforeHtml =>
    have hrule : modeRules .beforeHtml (.startTag tag) = implyHtml (.startTag tag) := if_neg hhtml
    rw [hrule] at hl ⊢
    exact .written (.implyHtml _) hl
  | beforeHead =>
    have hrule : modeRules .beforeHead (.startTag tag) = implyHead (.startTag tag) :=
      (if_neg hhtml).trans (if_neg hhead)
    rw [hrule] at hl ⊢
    exact .written (.implyHead _) hl
  | inHead =>
    obtain ⟨place, hp⟩ := h.toIn.exists_at (by decide) (by decide)
    show Tells .done c ((inHeadStartTag tag).run c)
    unfold inHeadStartTag
    rw [Step.run_get_bind]
    split
    · exact (HeadStart.apply_tells hp hn ‹_›).finished
    · rw [if_neg hhtml, if_neg hhead]
      have hl : Leads true (.startTag tag) (implyHeadEnd (.startTag tag)) c.core _ :=
        implyHeadEnd_leads h.toIn
      exact .written (.implyHeadEnd _) hl
  | inHeadNoscript =>
    obtain ⟨place, hp⟩ := h.toIn.exists_at (by decide) (by decide)
    show Tells .done c ((ite (tag.name = "html") _ _ : Step Verdict).run c)
    rw [if_neg hhtml]
    split
    · exact (headContent_tells hp hn).finished
    · split
      · exact Tells.finished (.quiet (parseError_quiet _ c))
      · have hl : Leads true (.startTag tag) (implyNoscriptEnd (.startTag tag)) c.core _ :=
          implyNoscriptEnd_leads h.toIn
        exact .written (.implyNoscriptEnd _) hl
  | afterHead =>
    show Tells .done c ((ite (tag.name = "html") _ _ : Step Verdict).run c)
    rw [if_neg hhtml, if_neg hbody, if_neg hframeset]
    split
    · exact (lateHeadContent_tells h.toIn hn).finished
    · have hl : Leads true (.startTag tag) (implyBody (.startTag tag)) c.core _ :=
        implyBody_leads h.toIn fun _ ht => by
          cases ht
          exact hbody
      exact .written (.implyBody _) hl
  | inBody => exact bodyStart_tells h hn
  | afterBody =>
    have hrule : modeRules .afterBody (.startTag tag) = backToBody (.startTag tag) := if_neg hhtml
    rw [hrule] at hl ⊢
    exact .written (.backToBody _) hl
  | afterAfterBody =>
    have hrule : modeRules .afterAfterBody (.startTag tag) = backToBody (.startTag tag) :=
      if_neg hhtml
    rw [hrule] at hl ⊢
    exact .written (.backToBody _) hl
  | _ => exact .written (.unsupported _ rfl) hl

/-! ## rounds and tokens -/

/-- what becomes of a token: nothing is told, or it may ask for a state, succeeds with `a`, and its
element is told of -/
def Token.Tells (token : Token) (a : α) (c : Constructor) (r : Except Failure α × Constructor) :
    Prop :=
  c.Quiet r.2 ∨ token.asksForState = true ∧ r.1 = .ok a ∧ ∃ s id, c.Told r.2 s id

theorem Token.Stands.asksForState (h : token.Stands t) (ht : t.asksForState = true) :
    token.asksForState = true := by
  rcases h with rfl | ⟨tag, _, _, rfl⟩
  · exact ht
  · exact absurd ht (show askingNames.contains "img" ≠ true by decide)

/-- **A round tells what it does.** -/
theorem dispatch_tells (h : c.core.In m) (token : Token) :
    token.Tells .done c ((dispatch token).run c) := by
  cases hask : token.asksForState with
  | false =>
    have hw : Written token true true (dispatch token) := .dispatch token fun _ => rfl
    have hl : Leads true token (dispatch token) c.core _ := dispatch_leads h
    exact Or.inl (hw.quiet hask hl)
  | true =>
    cases token with
    | startTag tag =>
      have hn := Token.asksForState_startTag.mp hask
      have hw : Written .endOfFile true true (foreignStage (.startTag tag)) := .foreignStage _
      have hl : Leads true (.startTag tag) (foreignStage (.startTag tag)) c.core _ :=
        foreignStage_leads h
      have htells : Tells .done c ((dispatch (.startTag tag)).run c) := by
        refine .bind (hw.quiet rfl hl) fun v d hd => ?_
        cases v with
        | done => exact .quiet (.refl d)
        | toMode =>
          have hmeets := hl.answer hd rfl
          show Tells .done d ((modeRules d.mode (.startTag tag)).run d)
          rw [show d.mode = m from hmeets.mode]
          exact modeRules_tells hmeets hn
      exact htells.imp_right fun htold => ⟨hask, htold⟩
    | _ => cases hask

/-- at most one round of a token tells anything, and that is the last one -/
theorem processWithin_tells (n : Nat) (h : c.core.In m) (token : Token) :
    token.Tells () c ((processWithin n token).run c) := by
  induction n generalizing c m token with
  | zero => exact Or.inl (.refl c)
  | succ n ih =>
    have hround := dispatch_tells h token
    have hl : Leads true token (dispatch token) c.core _ := dispatch_leads h
    have hm := hl.moves
    unfold processWithin
    rw [Step.run_bind]
    rcases hr : (dispatch token).run c with ⟨e | v, d⟩ <;> rw [hr] at hround hm
    · rcases hround with hq | ⟨_, he, _⟩
      · exact Or.inl hq
      · cases he
    · rcases hround with hq | ⟨hask, he, htold⟩
      · cases v with
        | done => exact Or.inl hq
        | reprocess t =>
          obtain ⟨hst, hstop, _⟩ := hl.answer hr
          rcases ih ⟨hm.sound h.sound, rfl, hstop⟩ t with hq' | ⟨hask, he, s, id, ht⟩
          · exact Or.inl (hq.trans hq')
          · exact Or.inr ⟨hst.asksForState hask, he, s, id, hq.told ht⟩
      · cases he
        exact Or.inr ⟨hask, rfl, htold⟩

theorem checkSelfClosing_quiet (token : Token) (c : Constructor) :
    c.Quiet ((checkSelfClosing token).run c).2 := by
  rw [checkSelfClosing_run]
  split
  · exact parseError_quiet _ c
  · exact .refl c

/-- the check of the self-closing flag comes last and may fail, but tells nothing -/
theorem processToken_tells (h : c.core.In m) (token : Token) :
    let d := ((processToken token).run c).2
    c.Quiet d ∨ token.asksForState = true ∧ ∃ s id, c.Told d s id := by
  have htells := processWithin_tells maxRounds h token
  unfold processToken
  rw [Step.run_bind]
  rcases hr : (processWithin maxRounds token).run c with ⟨e | _, d⟩ <;> rw [hr] at htells
  · exact htells.imp_right fun ⟨hask, _, htold⟩ => ⟨hask, htold⟩
  · rcases htells with hq | ⟨hask, _, s, id, ht⟩
    · exact Or.inl (hq.trans (checkSelfClosing_quiet token d))
    · exact Or.inr ⟨hask, s, id, ht.same (checkSelfClosing_core token d)
        (checkSelfClosing_quiet token d).requestedState⟩

namespace Constructor

/-- **A token tells what it does**, whether it fails or not. -/
theorem process_tells (h : c.core.Sound) (hs : c.stopped = false) (token : Token) :
    let d := (c.process token).2
    c.Quiet d ∨ token.asksForState = true ∧ ∃ s id, c.Told d s id := by
  cases hskip : c.skips token with
  | true =>
    rw [process_of_skips hskip]
    exact Or.inl (.same rfl rfl)
  | false =>
    have hin : (c.begun token).core.In c.mode := in_mode h hs
    have hbegun : c.Quiet (c.begun token) := .same rfl rfl
    rw [process_of_not_skips hskip]
    rcases processToken_tells hin token with hq | ⟨hask, s, id, ht⟩
    · exact Or.inl (hbegun.trans (hq.trans (.same rfl rfl)))
    · exact Or.inr ⟨hask, s, id, (hbegun.told ht).same rfl rfl⟩

end Constructor

end HtmlTree
