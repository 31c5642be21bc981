import HtmlTree.Proofs.Characters
import HtmlTree.Proofs.NewElements

/-!
# Self-closing tags

A start tag may carry a self-closing flag, which has an effect on elements that are closed at once
only.  Where it had none it is reported, behind all rounds and by nothing but the check for it.
What is implied by a tag stays open until its own element is inserted, but for the head, behind
which a body is sure to come; so if an element was closed at once it is the newest node.

* `Constructor.ClosedAtOnce`   the newest node is an element that is not open any more;
* `Constructor.Acknowledges`   the flag was put to use exactly then;
* `Constructor.Awaits`         what a round of a start tag finds;
* `Passes`                     a round that leaves this for the next one, or a flag accounted for;
* `dispatch_passes`, `processWithin_passes`   so does every round, and so do all rounds of a tag;
* `Written.flags_eq`           no rule reports a self-closing flag;
* `self_closing_reported`      **the flag is reported exactly where it had no effect**.
-/

namespace HtmlTree

variable {α : Type} {x : Step α} {c d : Constructor} {n : Nat} {name : String} {token : Token}
  {tag : StartTag} {m : Mode}

/-! ## elements that are closed at once -/

/-- the modes that the elements around the content lead to -/
def Mode.followsOuter : Mode → Bool
  | beforeHead | inHead | inBody => true
  | _ => false

namespace Constructor

/-- there are more than `n` nodes, and the newest one is an element that is not open -/
def ClosedAtOnce (d : Constructor) (n : Nat) : Prop :=
  n < d.tree.size ∧ (d.tree.element? ⟨d.tree.size - 1⟩).isSome = true ∧
    ⟨d.tree.size - 1⟩ ∉ d.openElements.entries

instance (d : Constructor) (n : Nat) : Decidable (d.ClosedAtOnce n) :=
  inferInstanceAs (Decidable (_ ∧ _ ∧ _))

/-- the flag was put to use if an element was closed at once, and only then -/
def Acknowledges (d : Constructor) (n : Nat) : Prop := d.selfClosingUsed = true ↔ d.ClosedAtOnce n

/-- the newest node is the current node, and one of the elements around the content -/
structure Surrounds (c : Constructor) : Prop where
  mode : c.mode.followsOuter = true
  newest : ∃ id name, id.index + 1 = c.tree.size ∧ c.openElements.current? = some id ∧
    c.tree.isHtml name id = true

/-- what a round of a start tag finds: there were `n` nodes in the beginning, and if there are more,
the newest one is open, but for a head that was closed for the body -/
structure Awaits (c : Constructor) (n : Nat) (name : String) : Prop where
  unused : c.selfClosingUsed = false
  size_le : n ≤ c.tree.size
  stage : c.tree.size = n ∨ c.Surrounds ∨ c.mode = .afterHead ∧ name ≠ "html" ∧ name ≠ "head"

theorem Awaits.untouched (hu : c.selfClosingUsed = false) (hn : c.tree.size = n) :
    c.Awaits n name := ⟨hu, hn.ge, Or.inl hn⟩

theorem Awaits.fresh (ha : c.Awaits n name) (h : c.core.Sound) : c.Fresh :=
  ⟨ha.unused, h.bears.index_lt⟩

/-- in most modes nothing has been made for the token -/
theorem Awaits.size_eq (ha : c.Awaits n name) (hm : c.mode = m)
    (hearly : (m.followsOuter || m == .afterHead) = false) : c.tree.size = n := by
  rw [Bool.or_eq_false_iff, beq_eq_false_iff_ne, ← hm] at hearly
  rcases ha.stage with hn | hs | ⟨hafter, _⟩
  · exact hn
  · exact nomatch hearly.1.symm.trans hs.mode
  · exact absurd hafter hearly.2

/-- an element was implied, which stays open -/
theorem Awaits.pushed {implied : String} (ha : c.Awaits n name)
    (hp : c.Pushed (.bare implied .html) d) (hm : d.mode.followsOuter = true) :
    d.Awaits n name where
  unused := hp.used.trans ha.unused
  size_le := by
    rw [hp.size]
    exact Nat.le_succ_of_le ha.size_le
  stage := by
    have hcurrent : d.openElements.current? = some ⟨c.tree.size⟩ :=
      congrArg List.head? hp.entries
    have hhtml : d.tree.isHtml implied ⟨c.tree.size⟩ = true := Tree.isHtml_iff.mpr hp.label
    exact Or.inr (Or.inl ⟨hm, ⟨c.tree.size⟩, implied, hp.size.symm, hcurrent, hhtml⟩)

/-- the newest element tells by the stack what became of the flag -/
theorem Inserted.acknowledges (h : c.Inserted d) (hn : n ≤ c.tree.size) : d.Acknowledges n := by
  have hnew : (⟨d.tree.size - 1⟩ : NodeId) = ⟨c.tree.size⟩ := by
    rw [h.size]
    rfl
  have helement : (d.tree.element? ⟨c.tree.size⟩).isSome = true := by
    rw [← h.element]
    exact Option.isSome_map.symm
  unfold Acknowledges ClosedAtOnce
  rw [hnew, h.used, h.size]
  exact ⟨fun hno => ⟨Nat.lt_succ_of_le hn, helement, hno⟩, fun hclosed => hclosed.2.2⟩

/-- where nothing is inserted the flag is of no use -/
theorem Keeps.acknowledges (h : c.Keeps false d) (hu : c.selfClosingUsed = false)
    (hs : c.tree.size = n ∨ c.Surrounds) : d.Acknowledges n := by
  unfold Acknowledges ClosedAtOnce
  rw [h.used, hu, h.size, h.still rfl]
  refine iff_of_false Bool.noConfusion fun ⟨hlt, _, hno⟩ => ?_
  rcases hs with hn | hs
  · exact absurd hn hlt.ne'
  · obtain ⟨id, _, hid, hcurrent, _⟩ := hs.newest
    refine hno ?_
    rw [← hid]
    exact List.mem_of_head? hcurrent

end Constructor

/-! ## rounds -/

/-- what a round of a start tag leaves, where there were `n` nodes in the beginning -/
def Verdict.Leaves (v : Verdict) (n : Nat) (d : Constructor) : Prop :=
  match v with
  | .done => d.Acknowledges n
  | .reprocess token => ∃ tag : StartTag, token = .startTag tag ∧ d.Awaits n tag.name

/-- where the step succeeds it leaves a round as it should be left -/
def Passes (n : Nat) (x : Step Verdict) (c : Constructor) : Prop :=
  ∀ v d, x.run c = (.ok v, d) → v.Leaves n d

namespace Passes
variable {y : Step Verdict} {f : α → Step Verdict}

theorem ask {f : Constructor → Step Verdict} (h : Passes n (f c) c) : Passes n (get >>= f) c := h

theorem ite {p : Prop} [Decidable p] {x : Step Verdict} (hx : p → Passes n x c)
    (hy : ¬p → Passes n y c) : Passes n (if p then x else y) c := by
  split
  · exact hx ‹_›
  · exact hy ‹_›

theorem unsupported (t : Token) : Passes n (unsupported t) c := fun _ _ hr => nomatch hr

theorem again (ha : c.Awaits n tag.name) : Passes n (pure (.reprocess (.startTag tag))) c :=
  fun v d hr => by
    obtain ⟨rfl, rfl⟩ := Step.eq_of_run_pure hr
    exact ⟨tag, rfl, ha⟩

/-- a step that comes before the others of a rule, in a mode where nothing has been implied yet -/
theorem after (hx : Idle true x) (ha : c.Awaits n name) (hm : c.mode = m)
    (hearly : (m.followsOuter || m == .afterHead) = false)
    (hf : ∀ a d, d.selfClosingUsed = false → d.tree.size = n → Passes n (f a) d) :
    Passes n (x >>= f) c := fun v d hr => by
  obtain ⟨a, d', hd, hr⟩ := Step.exists_of_run_bind hr
  have hk := hx c
  rw [hd] at hk
  exact hf a d' (hk.used.trans ha.unused) (hk.size.trans (ha.size_eq hm hearly)) v d hr

/-- the last round -/
theorem last {x : Step Unit} (hx : ∀ d, x.run c = (.ok (), d) → d.Acknowledges n) :
    Passes n (finished x) c := fun v d hr => by
  obtain ⟨_, d', hd, hr⟩ := Step.exists_of_run_bind hr
  obtain ⟨rfl, rfl⟩ := Step.eq_of_run_pure hr
  exact hx d hd

theorem inserted {x : Step Unit} (hx : Inserts x) (ha : c.Awaits n name) (hc : c.Fresh) :
    Passes n (finished x) c := last fun d hd => (hx c hc () d hd).acknowledges ha.size_le

/-- behind a head that was closed for the body some element is inserted, so that no tag may come
there that inserts none -/
theorem disposed {x : Step Unit} (hx : Disposes x) (ha : c.Awaits n name) (hc : c.Fresh)
    (hm : c.mode = .afterHead → name = "html" ∨ name = "head") : Passes n (finished x) c := by
  have hopen : c.tree.size = n ∨ c.Surrounds := by
    rcases ha.stage with hn | hs | ⟨hafter, hhtml, hhead⟩
    · exact Or.inl hn
    · exact Or.inr hs
    · exact ((hm hafter).elim hhtml hhead).elim
  refine last fun d hd => ?_
  rcases hx c hc () d hd with hnew | hk
  · exact hnew.acknowledges ha.size_le
  · exact hk.acknowledges ha.unused hopen

end Passes

/-! ## elements that are implied -/

theorem missDoctype_passes (hm : c.mode = .initial) (ha : c.Awaits n tag.name) :
    Passes n (missDoctype (.startTag tag)) c := by
  have hn := ha.size_eq hm rfl
  intro v d hr
  rw [missDoctype_run] at hr
  dsimp only at hr
  split_ifs at hr
  · obtain ⟨hv, rfl⟩ := Prod.mk.inj hr
    cases hv
    exact ⟨tag, rfl, .untouched ha.unused hn⟩
  · cases (Prod.mk.inj hr).1
  · obtain ⟨hv, rfl⟩ := Prod.mk.inj hr
    cases hv
    exact ⟨tag, rfl, .untouched ha.unused hn⟩

/-- the document's only element is put there -/
theorem openDocumentElement_pushed {e : Element}
    (hr : (openDocumentElement e).run c = (.ok (), d)) : c.Pushed e d ∧ d.mode = .beforeHead := by
  obtain ⟨id, d', hnew, hr⟩ := Step.exists_of_run_bind hr
  have hp := appendNew_pushed hnew
  obtain ⟨_, rfl⟩ := Prod.mk.inj hr
  exact ⟨⟨hp.size, hp.label, hp.entries, hp.used⟩, rfl⟩

theorem Inserts.openDocumentElement (e : Element) : Inserts (openDocumentElement e) :=
  fun _ hc _ _ hr => (openDocumentElement_pushed hr).1.inserted hc

theorem implyHtml_passes (ha : c.Awaits n tag.name) : Passes n (implyHtml (.startTag tag)) c :=
  fun v d hr => by
    obtain ⟨_, d', hopen, hr⟩ := Step.exists_of_run_bind hr
    obtain ⟨hp, hmode⟩ := openDocumentElement_pushed hopen
    exact Passes.again (ha.pushed hp (by rw [hmode]; rfl)) v d hr

theorem Inserts.openHead (tag : StartTag) : Inserts (openHead (insertHtml tag)) :=
  (Inserts.element _).andThen fun _ =>
    .bind (.quiet (fun _ => rfl) (fun _ => rfl) fun _ => rfl) fun _ => .switchTo _

theorem implyHead_passes (ha : c.Awaits n tag.name) : Passes n (implyHead (.startTag tag)) c :=
  fun v d hr => by
    obtain ⟨_, d', hopen, hr⟩ := Step.exists_of_run_bind hr
    obtain ⟨id, e, hnew, hopen⟩ := Step.exists_of_run_bind hopen
    have hp := insertElement_pushed hnew
    obtain ⟨_, rfl⟩ := Prod.mk.inj hopen
    refine Passes.again (c := { e with head := some id, mode := .inHead }) ?_ v d hr
    exact ha.pushed ⟨hp.size, hp.label, hp.entries, hp.used⟩ rfl

theorem implyBody_passes (ha : c.Awaits n tag.name) : Passes n (implyBody (.startTag tag)) c :=
  fun v d hr => by
    obtain ⟨id, e, hnew, hr⟩ := Step.exists_of_run_bind hr
    have hp := insertElement_pushed hnew
    refine Passes.again (c := { e with mode := .inBody }) ?_ v d hr
    exact ha.pushed ⟨hp.size, hp.label, hp.entries, hp.used⟩ rfl

/-- the head is closed, and the body comes next -/
theorem implyHeadEnd_passes (ha : c.Awaits n tag.name) (hhtml : tag.name ≠ "html")
    (hhead : tag.name ≠ "head") : Passes n (implyHeadEnd (.startTag tag)) c := fun v d hr => by
  refine Passes.again
    (c := { c with openElements := c.openElements.pop, mode := .afterHead }) ?_ v d hr
  exact ⟨ha.unused, ha.size_le, Or.inr (Or.inr ⟨rfl, hhtml, hhead⟩)⟩

theorem implyNoscriptEnd_passes (hm : c.mode = .inHeadNoscript) (ha : c.Awaits n tag.name) :
    Passes n (implyNoscriptEnd (.startTag tag)) c := by
  refine .after (.parseError _) ha hm rfl fun _ d hu hn => ?_
  intro v e hr
  refine Passes.again
    (c := { d with openElements := d.openElements.pop, mode := .inHead }) ?_ v e hr
  exact .untouched hu hn

theorem backToBody_passes (hm : c.mode = m)
    (hearly : (m.followsOuter || m == .afterHead) = false) (ha : c.Awaits n tag.name) :
    Passes n (backToBody (.startTag tag)) c := by
  refine .after (.parseError _) ha hm hearly fun _ d hu hn v e hr => ?_
  exact Passes.again (c := { d with mode := .inBody }) (.untouched hu hn) v e hr

/-! ## metadata behind the head -/

theorem headContentNames_ofName? : ∀ scripting, ∀ name ∈ headContentNames,
    (HeadStart.ofName? scripting name).isSome = true := by decide

theorem Inserts.headContent (hn : tag.name ∈ headContentNames) : Inserts (headContent tag) := by
  refine .ask fun c => ?_
  obtain ⟨rule, hrule⟩ := Option.isSome_iff_exists.mp
    (headContentNames_ofName? c.options.scripting tag.name hn)
  rw [hrule]
  exact headStart _ _

/-- the head is opened just for the tag, so that it makes no difference to its element -/
theorem lateHeadContent_inserted (h : c.core.In .afterHead) (hc : c.Fresh)
    (hn : tag.name ∈ headContentNames) (hr : (lateHeadContent tag).run c = (.ok (), d)) :
    c.Inserted d := by
  obtain ⟨head, hhead⟩ := Option.isSome_iff_exists.mp (h.fits.head_iff.mpr rfl)
  have hlt : head.index < c.tree.size :=
    Tree.index_lt_of_label? (Tree.label?_isSome_of_isHtml (h.sound.bears.head head hhead))
  obtain ⟨_, c', hreport, hr⟩ := Step.exists_of_run_bind hr
  rw [parseError_run] at hreport
  obtain rfl : c.recorded (c.errorOf .unexpectedStartTag) = c' := congrArg Prod.snd hreport
  rw [Step.run_get_bind,
    show (c.recorded (c.errorOf .unexpectedStartTag)).head = some head from hhead] at hr
  let i := { c.recorded (c.errorOf .unexpectedStartTag) with
    openElements := c.openElements.push head }
  have hi : i.Fresh := ⟨hc.unused, fun id hid => by
    rcases List.mem_cons.mp hid with rfl | hid
    · exact hlt
    · exact hc.known id hid⟩
  obtain ⟨e, he, rfl⟩ := Step.exists_of_run_ensure (c := i) hr
  have hnew := Inserts.headContent hn i hi _ _ he
  have hne : (⟨c.tree.size⟩ : NodeId) ≠ head := fun heq => by
    rw [← heq] at hlt
    exact Nat.lt_irrefl _ hlt
  refine ⟨hnew.size, hnew.element, hnew.used.trans (not_congr ?_)⟩
  exact (List.mem_erase_of_ne hne).symm

/-! ## rules of the modes -/

/-- the rules of the body insert an element at the most; an `image` tag goes on as an `img` one -/
theorem bodyStartTag_passes (hm : c.mode = .inBody) (ha : c.Awaits n tag.name) (hc : c.Fresh) :
    Passes n (bodyStartTag tag) c := by
  have hinserted : ∀ {x : Step Unit}, Inserts x → Passes n (finished x) c := fun hx =>
    .inserted hx ha hc
  have hdisposed : ∀ {x : Step Unit}, Disposes x → Passes n (finished x) c := fun hx =>
    .disposed hx ha hc fun h => Mode.noConfusion (hm.symm.trans h)
  unfold bodyStartTag
  cases BodyStart.ofName tag.name with
  | html => exact hdisposed (.idle (.repeatedHtml _))
  | headContent => exact hdisposed (.headContent _)
  | body => exact hdisposed (.idle (.repeatedBody _))
  | frameset => exact hdisposed (.idle (.startFrameset _))
  | block => exact hinserted (.startBlock _)
  | heading => exact hinserted (.startHeading _)
  | preformatted => exact hinserted (.startPreformatted _)
  | form => exact hdisposed (.startForm _)
  | listItem => exact hinserted (.startListItem _ _)
  | description => exact hinserted (.startListItem _ _)
  | plaintext => exact hinserted (.startPlaintext _)
  | button => exact hinserted (.startButton _)
  | anchor => exact hinserted (.startAnchor _)
  | nobr => exact hinserted (.startNobr _)
  | formatting => exact hinserted (.insertPlain _)
  | marker => exact hinserted (.startMarker _)
  | unsupported => exact .unsupported _
  | void => exact hinserted (.startVoid _)
  | input => exact hinserted (.startInput _)
  | quietVoid => exact hinserted (.insertVoid _)
  | thematicBreak => exact hinserted (.startThematicBreak _)
  | image =>
    intro v d hr
    obtain ⟨_, c', hreport, hr⟩ := Step.exists_of_run_bind hr
    rw [parseError_run] at hreport
    obtain rfl : c.recorded (c.errorOf .unexpectedStartTag) = c' := congrArg Prod.snd hreport
    have hnext : (c.recorded (c.errorOf .unexpectedStartTag)).Awaits n
        ({ tag with name := "img" } : StartTag).name := by
      refine ⟨ha.unused, ha.size_le, ha.stage.imp_right fun h => h.imp (fun hs => ?_) ?_⟩
      · exact ⟨hs.mode, hs.newest⟩
      · have himg : "img" ≠ "html" ∧ "img" ≠ "head" := by decide
        exact fun ⟨hafter, _⟩ => ⟨hafter, himg⟩
    exact Passes.again hnext v d hr
  | textarea => exact hinserted (.startTextarea _)
  | xmp => exact hinserted (.startXmp _)
  | iframe => exact hinserted (.startIframe _)
  | rawText => exact hinserted (.insertTextOnly _ _)
  | noscript => exact hinserted (.startNoscript _)
  | option => exact hinserted (.startOption _)
  | rubyBase => exact hinserted (.startRuby _ _ _)
  | rubyText => exact hinserted (.startRuby _ _ _)
  | math => exact hinserted (.insertForeign _ _)
  | svg => exact hinserted (.insertForeign _ _)
  | misplaced => exact hdisposed (.idle (.parseError _))
  | other => exact hinserted (.insertPlain _)

theorem modeRules_passes (h : c.core.In m) (ha : c.Awaits n tag.name) :
    Passes n (modeRules m (.startTag tag)) c := by
  have hm : c.mode = m := h.mode
  have hc := ha.fresh h.sound
  have hinserted : ∀ {x : Step Unit}, Inserts x → Passes n (finished x) c := fun hx =>
    .inserted hx ha hc
  have hdisposed : ∀ {x : Step Unit}, (m = .afterHead → tag.name = "html" ∨ tag.name = "head") →
      Disposes x → Passes n (finished x) c := fun hlate hx =>
    .disposed hx ha hc fun hafter => hlate (hm.symm.trans hafter)
  cases m with
  | initial => exact missDoctype_passes hm ha
  | beforeHtml =>
    exact .ite (fun _ => hinserted (.openDocumentElement _)) fun _ => implyHtml_passes ha
  | beforeHead =>
    refine .ite (fun _ => hdisposed nofun (.idle (.repeatedHtml _))) fun _ => ?_
    exact .ite (fun _ => hinserted (.openHead _)) fun _ => implyHead_passes ha
  | inHead =>
    refine Passes.ask ?_
    split
    · exact hinserted (.headStart _ _)
    · refine .ite (fun _ => hdisposed nofun (.idle (.repeatedHtml _))) fun hhtml => ?_
      refine .ite (fun _ => hdisposed nofun (.idle (.parseError _))) fun hhead => ?_
      exact implyHeadEnd_passes ha hhtml hhead
  | inHeadNoscript =>
    refine .ite (fun _ => hdisposed nofun (.idle (.repeatedHtml _))) fun _ => ?_
    refine .ite (fun _ => hdisposed nofun (.headContent _)) fun _ => ?_
    refine .ite (fun _ => hdisposed nofun (.idle (.parseError _))) fun _ => ?_
    exact implyNoscriptEnd_passes hm ha
  | afterHead =>
    refine .ite (fun hn => hdisposed (fun _ => Or.inl hn) (.idle (.repeatedHtml _))) fun _ => ?_
    refine .ite (fun _ => hinserted (.openBody _)) fun _ => ?_
    refine .ite (fun _ => .unsupported _) fun _ => ?_
    refine .ite (fun hn => .last fun d hlate => ?_) fun _ => ?_
    · exact (lateHeadContent_inserted h hc hn hlate).acknowledges ha.size_le
    · refine .ite (fun hn => hdisposed (fun _ => Or.inr hn) (.idle (.parseError _))) fun _ => ?_
      exact implyBody_passes ha
  | inBody => exact bodyStartTag_passes hm ha hc
  | text => exact .unsupported _
  | afterBody | afterAfterBody =>
    exact .ite (fun _ => hdisposed nofun (.idle (.repeatedHtml _))) fun _ =>
      backToBody_passes hm rfl ha
  | _ => exact .unsupported _

/-! ## one round -/

/-- the elements around the content are no foreign content -/
theorem Constructor.Awaits.size_eq_of_foreign (ha : c.Awaits n name) (h : c.core.In m)
    (hf : c.core.isForeign token = true) : c.tree.size = n := by
  rcases ha.stage with hn | hs | ⟨hafter, _⟩
  · exact hn
  · obtain ⟨id, outer, _, hcurrent, hhtml⟩ := hs.newest
    exact nomatch hf.symm.trans (Core.not_foreign_of_html hcurrent hhtml)
  · have hm : m = .afterHead := h.mode.symm.trans hafter
    exact nomatch hf.symm.trans (h.not_foreign (by rw [hm]; rfl))

/-- foreign content takes the tag's element, or is left before anything was made for the tag -/
theorem foreignStage_passes (h : c.core.In m) (ha : c.Awaits n tag.name) {v : ForeignVerdict}
    (hr : (foreignStage (.startTag tag)).run c = (.ok v, d)) :
    match v with
    | .done => d.Acknowledges n
    | .toMode => d.Awaits n tag.name := by
  unfold foreignStage at hr
  rw [Step.run_get_bind] at hr
  cases hns : c.foreignNamespace? (.startTag tag) with
  | none =>
    rw [hns] at hr
    obtain ⟨rfl, rfl⟩ := Step.eq_of_run_pure hr
    exact ha
  | some ns =>
    have hforeign : c.core.isForeign (.startTag tag) = true := by
      rw [← c.foreignNamespace?_isSome, hns]
      rfl
    have hn := ha.size_eq_of_foreign h hforeign
    rw [hns] at hr
    change (if tag.breaksOut = true then _ else _ : Step ForeignVerdict).run c = _ at hr
    split at hr
    · have hk := Idle.breakOut .unexpectedStartTag c
      rw [hr] at hk
      obtain ⟨_, c', _, hr⟩ := Step.exists_of_run_bind hr
      obtain ⟨hv, _⟩ := Prod.mk.inj hr
      cases hv
      exact .untouched (hk.used.trans ha.unused) (hk.size.trans hn)
    · obtain ⟨_, d', hd, hr⟩ := Step.exists_of_run_bind hr
      obtain ⟨rfl, rfl⟩ := Step.eq_of_run_pure hr
      have hnew := Inserts.insertForeign tag ns c (ha.fresh h.sound) _ _ hd
      exact hnew.acknowledges ha.size_le

/-- **A round of a start tag leaves it as the next one must find it**, or its flag accounted for. -/
theorem dispatch_passes (h : c.core.In m) (ha : c.Awaits n tag.name) :
    Passes n (dispatch (.startTag tag)) c := fun v d hr => by
  obtain ⟨verdict, e, he, hr⟩ := Step.exists_of_run_bind hr
  have hstage := foreignStage_passes h ha he
  cases verdict with
  | done =>
    obtain ⟨rfl, rfl⟩ := Step.eq_of_run_pure hr
    exact hstage
  | toMode =>
    have hl : Leads true (.startTag tag) (foreignStage (.startTag tag)) c.core _ :=
      foreignStage_leads h
    have hin := (hl.answer he rfl).toIn
    change (modeRules e.mode (.startTag tag)).run e = (.ok v, d) at hr
    rw [show e.mode = m from hin.mode] at hr
    exact modeRules_passes hin hstage v d hr

/-- after all rounds the flag tells whether the tag's element was closed at once -/
theorem processWithin_passes (rounds : Nat) (h : c.core.In m) (ha : c.Awaits n tag.name)
    (hr : (processWithin rounds (.startTag tag)).run c = (.ok (), d)) : d.Acknowledges n := by
  induction rounds generalizing c m tag with
  | zero => cases (Prod.mk.inj hr).1
  | succ rounds ih =>
    obtain ⟨v, e, he, hr⟩ := Step.exists_of_run_bind hr
    have hleaves := dispatch_passes h ha v e he
    have hl : Leads true (.startTag tag) (dispatch (.startTag tag)) c.core _ := dispatch_leads h
    have hm := hl.moves
    rw [he] at hm
    cases v with
    | done =>
      obtain ⟨_, rfl⟩ := Prod.mk.inj hr
      exact hleaves
    | reprocess t =>
      obtain ⟨tag, rfl, hnext⟩ := hleaves
      obtain ⟨_, hstop, _⟩ := hl.answer he
      exact ih ⟨hm.sound h.sound, rfl, hstop⟩ hnext hr

/-! ## reports -/

/-- a report of a self-closing flag -/
def ParseError.isOfFlag (e : ParseError) : Bool := e.kind == .nonVoidSelfClosingTag

/-- **No rule reports a self-closing flag.** -/
theorem Written.flags_eq {r s : Bool} (h : Written token r s x) (c : Constructor) :
    (x.run c).2.errors.toList.filter ParseError.isOfFlag =
      c.errors.toList.filter ParseError.isOfFlag := by
  let flags (c : Constructor) := c.errors.toList.filter ParseError.isOfFlag
  have hreport : ∀ c kind, kind ≠ .nonVoidSelfClosingTag →
      flags (c.recorded (c.errorOf kind)) = flags c := fun c kind hkind => by
    have hno : (c.errorOf kind).isOfFlag = false := beq_false_of_ne hkind
    show (c.errors.push _).toList.filter _ = _
    rw [Array.toList_push, List.filter_append, List.filter_singleton, hno]
    exact List.append_nil _
  refine h.rel (R := fun c d => flags d = flags c) (fun _ => rfl) (fun hab hbc => hbc.trans hab)
    (fun hg c => ?_) (fun _ _ => rfl) (fun _ _ _ _ => ?_) hreport (fun _ _ => rfl) c
  · exact congrArg (fun record => record.2.2.toList.filter ParseError.isOfFlag) (hg.record c)
  · rw [appendNew_run]

theorem processWithin_flags (rounds : Nat) (token : Token) (c : Constructor) :
    ((processWithin rounds token).run c).2.errors.toList.filter ParseError.isOfFlag =
      c.errors.toList.filter ParseError.isOfFlag := by
  induction rounds generalizing token c with
  | zero => rfl
  | succ rounds ih =>
    have hw : Written token true true (dispatch token) := .dispatch token fun _ => rfl
    refine Step.bind_rel (R := fun c d => d.errors.toList.filter ParseError.isOfFlag =
      c.errors.toList.filter ParseError.isOfFlag) (fun hab hbc => hbc.trans hab) hw.flags_eq ?_ c
    intro v d
    cases v with
    | done => rfl
    | reprocess t => exact ih t d

/-- what all rounds of a token record -/
theorem processWithin_recorded (rounds : Nat) (token : Token) (c : Constructor) :
    ∃ others, ((processWithin rounds token).run c).2.errors.toList = c.errors.toList ++ others ∧
      ∀ e ∈ others, e.kind ≠ .nonVoidSelfClosingTag ∧ e.tokenIndex = c.tokenIndex := by
  obtain ⟨others, happend, hindex⟩ := ((Composed.processWithin rounds token).later c).errors
  have hflags := processWithin_flags rounds token c
  rw [happend, List.filter_append, List.append_right_eq_self, List.filter_eq_nil_iff] at hflags
  refine ⟨others, happend, fun e he => ⟨fun hkind => ?_, hindex e he⟩⟩
  exact hflags e he (beq_iff_eq.mpr hkind)

namespace Constructor

/-- the check behind the rounds has the last word, but no failure where parse errors are none -/
theorem process_of_rounds_ok (hskip : c.skips token = false)
    (hr : (processWithin maxRounds token).run (c.begun token) = (.ok (), d))
    (hl : d.options.strict = false) :
    c.process token = (.ok (), Constructor.counted
      (if token.isSelfClosingStartTag = true ∧ ¬d.selfClosingUsed = true then
        d.recorded (d.errorOf .nonVoidSelfClosingTag)
      else d)) := by
  have hcheck : (processToken token).run (c.begun token) = (checkSelfClosing token).run d :=
    Step.run_bind_ok hr
  rw [process_of_not_skips hskip, hcheck, checkSelfClosing_run, parseError_run, hl]
  cases token.isSelfClosingStartTag <;> cases d.selfClosingUsed <;> rfl

theorem process_of_rounds_error {f : Failure} (hskip : c.skips token = false)
    (hr : (processWithin maxRounds token).run (c.begun token) = (.error f, d)) :
    c.process token = (.error f, d.counted) := by
  have hfails : (processToken token).run (c.begun token) = (.error f, d) :=
    Step.run_bind_error hr
  rw [process_of_not_skips hskip, hfails]

/-- what a token records: errors of other kinds, and behind these its flag if that had no effect -/
theorem process_recorded (h : c.core.Sound) (hs : c.stopped = false)
    (hl : c.options.strict = false) (token : Token) :
    let r := c.process token
    ∃ others, (∀ e ∈ others, e.kind ≠ .nonVoidSelfClosingTag ∧ e.tokenIndex = c.tokenIndex) ∧
      r.2.errors.toList = c.errors.toList ++ others ++
        if token.isSelfClosingStartTag = true ∧ r.1 = .ok () ∧ ¬r.2.ClosedAtOnce c.tree.size then
          [⟨.nonVoidSelfClosingTag, r.2.mode, c.tokenIndex⟩]
        else [] := by
  cases hskip : c.skips token with
  | true =>
    have hno : token.isSelfClosingStartTag = false := by
      rw [eq_of_beq (Bool.and_eq_true_iff.mp hskip).2]
      rfl
    refine ⟨[], nofun, ?_⟩
    rw [if_neg fun hflag => Bool.false_ne_true (hno.symm.trans hflag.1), List.append_nil,
      List.append_nil, process_of_skips hskip]
  | false =>
    obtain ⟨others, happend, hothers⟩ := processWithin_recorded maxRounds token (c.begun token)
    have hlater := (Composed.processWithin maxRounds token).later (c.begun token)
    refine ⟨others, hothers, ?_⟩
    rcases hr : (processWithin maxRounds token).run (c.begun token) with ⟨f | _, d⟩ <;>
      rw [hr] at happend hlater
    · rw [process_of_rounds_error hskip hr, if_neg (by rintro ⟨_, ho, _⟩; cases ho),
        List.append_nil]
      exact happend
    · have hstrict : d.options.strict = false := by
        rw [show d.options = c.options from hlater.options, hl]
      have hused : token.isSelfClosingStartTag = true →
          (d.selfClosingUsed = true ↔ d.ClosedAtOnce c.tree.size) := fun hflag => by
        cases token with
        | startTag tag =>
          have hin : (c.begun (.startTag tag)).core.In c.mode := in_mode h hs
          exact processWithin_passes maxRounds hin (.untouched rfl rfl) hr
        | _ => cases hflag
      have hp := process_of_rounds_ok hskip hr hstrict
      by_cases hflag : token.isSelfClosingStartTag = true ∧ ¬d.selfClosingUsed = true
      · have hnot : ¬d.ClosedAtOnce c.tree.size := mt (hused hflag.1).mpr hflag.2
        have hindex : d.errorOf .nonVoidSelfClosingTag =
            ⟨.nonVoidSelfClosingTag, d.mode, c.tokenIndex⟩ :=
          congrArg (ParseError.mk _ _) hlater.tokenIndex
        rw [if_pos hflag] at hp
        rw [hp, if_pos (by exact ⟨hflag.1, rfl, hnot⟩)]
        calc (d.errors.push (d.errorOf .nonVoidSelfClosingTag)).toList
          _ = d.errors.toList ++ [d.errorOf .nonVoidSelfClosingTag] := Array.toList_push
          _ = c.errors.toList ++ others ++ [⟨.nonVoidSelfClosingTag, d.mode, c.tokenIndex⟩] := by
            rw [hindex, show d.errors.toList = _ from happend]
            rfl
      · rw [if_neg hflag] at hp
        rw [hp, if_neg fun hreport => hflag ?_, List.append_nil]
        · exact happend
        · exact ⟨hreport.1, mt (hused hreport.1).mp hreport.2.2⟩

end Constructor

/-- **A self-closing flag is reported exactly where it had no effect**, as the last error of its
token: unless the token made nodes and the newest of them is an element that is not open any more.
No more than this one error is recorded of a token, and none of any other token; where the token
fails nothing is said about its flag. -/
theorem self_closing_reported (options : Options) (calls : List Call) (token : Token)
    (hl : options.strict = false)
    (hs : ((Constructor.new options).after calls).stopped = false) :
    let c := (Constructor.new options).after calls
    let r := c.process token
    ∃ others, (∀ e ∈ others, e.kind ≠ .nonVoidSelfClosingTag ∧ e.tokenIndex = c.tokenIndex) ∧
      r.2.errors.toList = c.errors.toList ++ others ++
        if token.isSelfClosingStartTag = true ∧ r.1 = .ok () ∧ ¬r.2.ClosedAtOnce c.tree.size then
          [⟨.nonVoidSelfClosingTag, r.2.mode, c.tokenIndex⟩]
        else [] :=
  Constructor.process_recorded (Constructor.after_sound options calls) hs
    (by rw [Constructor.after_options, hl]) token

/-- a division stays open -/
example : ((Constructor.new .default).process (.startTag ⟨"div", true, []⟩)).2.errors.toList =
    [⟨.missingDoctype, .initial, 0⟩, ⟨.nonVoidSelfClosingTag, .inBody, 0⟩] := by decide +kernel

/-- behind the head an `image` tag implies a body, and its element is closed there at once -/
theorem self_closing_reported_image :
    let c := (Constructor.new .default).after [.run [.startTagNamed "head", .endTag "head"]]
    let r := c.process (.startTag ⟨"image", true, []⟩)
    Options.default.strict = false ∧ c.stopped = false ∧ r.1 = .ok () ∧
      r.2.ClosedAtOnce c.tree.size ∧ ∃ others,
        (∀ e ∈ others, e.kind ≠ .nonVoidSelfClosingTag ∧ e.tokenIndex = c.tokenIndex) ∧
          r.2.errors.toList = c.errors.toList ++ others ++
            if (Token.startTag ⟨"image", true, []⟩).isSelfClosingStartTag = true ∧ r.1 = .ok () ∧
                ¬r.2.ClosedAtOnce c.tree.size then
              [⟨.nonVoidSelfClosingTag, r.2.mode, c.tokenIndex⟩]
            else [] :=
  ⟨by decide, by decide +kernel, by decide +kernel, by decide +kernel,
    self_closing_reported .default _ _ (by decide) (by decide +kernel)⟩

end HtmlTree
