import HtmlTree.Proofs.Session
import HtmlTree.Proofs.Strictness

/-!
# Two constructors side by side

Two constructors that differ in their margins only do the same to their documents and stacks,
whatever rules they go through.  What they write into the margin stays comparable as well: their
parse errors are the same in all that is shown of them, and the modes of their documents are the
same, or the second one's was settled from the start, in the source of an `iframe`.

* `Alike`, `RunsAlike`          two constructors, and two outcomes with the constructors after them;
* `Written.alike`               **rules do not tell them apart**, if scripts run in both or in none;
* `Level`, `process_level`      between tokens, where no self-closing flag is left to be used;
* `SameCourse`, `Run.Matches`   two runs, and what they have in common in the end;
* `run_sameCourse`              the same tokens lead to the same.
-/

namespace HtmlTree

/-- what is shown of a parse error does not tell at which token it was -/
def Unnumbered (shows : ParseError → Option ParseError) : Prop :=
  ∀ e i, shows { e with tokenIndex := i } = shows e

/-- two constructors with different margins, whose parse errors are the same as far as shown -/
structure Alike (shows : ParseError → Option ParseError) (c d : Constructor) : Prop where
  same : c.withMargin d.margin = d
  strict : d.options.strict = c.options.strict
  count : d.tokenIndex = c.tokenIndex ∨ Unnumbered shows
  errors : d.errors.toList.filterMap shows = c.errors.toList.filterMap shows
  /-- the second document is the source of an `iframe` and never has quirks, if only one of them is;
  a missing doctype is not shown then -/
  settled : (d.options.iframeSrcdoc = c.options.iframeSrcdoc ∧ d.tree.mode = c.tree.mode) ∨
    (c.options.strict = false ∧ c.options.iframeSrcdoc = false ∧ d.options.iframeSrcdoc = true ∧
      d.tree.mode = .noQuirks ∧ ∀ mode i, shows ⟨.missingDoctype, mode, i⟩ = none)

/-- two outcomes that are the same, but that parse errors may be numbered differently -/
inductive OutcomesAlike {α : Type} (shows : ParseError → Option ParseError) :
    Except Failure α → Except Failure α → Prop
  | same (o : Except Failure α) : OutcomesAlike shows o o
  | parse (e : ParseError) (i : Nat) : i = e.tokenIndex ∨ Unnumbered shows →
      OutcomesAlike shows (.error (.parse e)) (.error (.parse { e with tokenIndex := i }))

/-- two runs of a step -/
def RunsAlike {α : Type} (shows : ParseError → Option ParseError)
    (p q : Except Failure α × Constructor) : Prop :=
  OutcomesAlike shows p.1 q.1 ∧ Alike shows p.2 q.2

section
variable {shows : ParseError → Option ParseError} {c d : Constructor} {α : Type}

/-! ## steps -/

theorem RunsAlike.ok (h : Alike shows c d) (a : α) : RunsAlike shows (.ok a, c) (.ok a, d) :=
  ⟨.same _, h⟩

theorem RunsAlike.error (h : Alike shows c d) (e : Failure) :
    RunsAlike (α := α) shows (.error e, c) (.error e, d) := ⟨.same _, h⟩

/-- one step after another, each run on two constructors, whose options stay as they are -/
theorem RunsAlike.bind {β : Type} {x : Step α} {f : α → Step β} (hcomposed : Composed x)
    (hx : RunsAlike shows (x.run c) (x.run d))
    (hf : ∀ {a c' d'}, x.run c = (.ok a, c') → c'.options = c.options → d'.options = d.options →
      Alike shows c' d' → RunsAlike shows ((f a).run c') ((f a).run d')) :
    RunsAlike shows ((x >>= f).run c) ((x >>= f).run d) := by
  obtain ⟨ho, ha⟩ := hx
  have hco := (hcomposed.later c).options
  have hdo := (hcomposed.later d).options
  rw [Step.run_bind, Step.run_bind]
  rcases hc : x.run c with ⟨o, c'⟩
  rcases hd : x.run d with ⟨o', d'⟩
  rw [hc] at ho ha hco
  rw [hd] at ho ha hdo
  change OutcomesAlike shows o o' at ho
  cases ho with
  | same =>
    cases o with
    | error e => exact .error ha e
    | ok a => exact hf hc hco hdo ha
  | parse e i hi => exact ⟨.parse e i hi, ha⟩

/-- what a change that does not look at the margin leaves alike -/
theorem Alike.change {g : Constructor → Constructor} (h : Alike shows c d)
    (hm : ∀ c m, (g (c.withMargin m)).withMargin m = (g c).withMargin m)
    (hrecord : ∀ c, (g c).record = c.record)
    (hmode : ∃ settle : Bool → DocumentMode → DocumentMode, (∀ mode, settle true mode = mode) ∧
      ∀ c, (g c).tree.mode = settle c.options.iframeSrcdoc c.tree.mode) :
    Alike shows (g c) (g d) := by
  have ho : ∀ c, (g c).options = c.options := fun c => congrArg (·.1) (hrecord c)
  have hi : ∀ c, (g c).tokenIndex = c.tokenIndex := fun c => congrArg (·.2.1) (hrecord c)
  have he : ∀ c, (g c).errors = c.errors := fun c => congrArg (·.2.2) (hrecord c)
  have hg : (g d).withMargin d.margin = (g c).withMargin d.margin := by
    rw [← hm c d.margin, h.same]
  obtain ⟨settle, htrue, hsettle⟩ := hmode
  refine ⟨?_, by rw [ho, ho, h.strict], by rw [hi, hi]; exact h.count, by rw [he, he, h.errors], ?_⟩
  · calc (g c).withMargin (g d).margin
      _ = ((g c).withMargin d.margin).withMargin (g d).margin := rfl
      _ = ((g d).withMargin d.margin).withMargin (g d).margin := by rw [hg]
      _ = g d := rfl
  · rw [ho, ho, hsettle, hsettle]
    rcases h.settled with ⟨hs, hd⟩ | ⟨hl, hc, hs, hd, hshows⟩
    · exact Or.inl ⟨hs, by rw [hs, hd]⟩
    · exact Or.inr ⟨hl, hc, hs, by rw [hs, htrue, hd], hshows⟩

theorem Turn.alike {token : Token} {g : Constructor → Constructor} (hg : Turn token g)
    (h : Alike shows c d) : Alike shows (g c) (g d) :=
  h.change hg.withMargin hg.record hg.documentMode

theorem appendNew_alike (h : Alike shows c d) (parent : NodeId) (data : NodeData) :
    RunsAlike shows ((appendNew parent data).run c) ((appendNew parent data).run d) := by
  have hrun := appendNew_withMargin parent data c
  have hc := hrun c.margin
  have hd := hrun d.margin
  rw [c.withMargin_margin] at hc
  rw [h.same] at hd
  rw [hc, hd]
  exact ⟨.same _, rfl, h.strict, h.count, h.errors, h.settled⟩

/-- nothing but the margins can be different -/
theorem Alike.withMargin (h : Alike shows c d) (m : Margin) : c.withMargin m = d.withMargin m :=
  calc c.withMargin m
    _ = (c.withMargin d.margin).withMargin m := rfl
    _ = d.withMargin m := by rw [h.same]

theorem Alike.mode (h : Alike shows c d) : d.mode = c.mode := by
  rw [← h.same]
  rfl

theorem Alike.noted (h : Alike shows c d) (j j' : Journal) :
    Alike shows { c with journal := j } { d with journal := j' } :=
  ⟨h.withMargin { d.margin with journal := j' }, h.strict, h.count, h.errors, h.settled⟩

theorem Alike.errorOf (h : Alike shows c d) (kind : ParseErrorKind) :
    d.errorOf kind = { c.errorOf kind with tokenIndex := d.tokenIndex } := by
  unfold Constructor.errorOf
  rw [h.mode]

theorem Alike.shows_errorOf (h : Alike shows c d) (kind : ParseErrorKind) :
    shows (d.errorOf kind) = shows (c.errorOf kind) := by
  rw [h.errorOf]
  rcases h.count with hi | hshows
  · rw [hi]
    rfl
  · exact hshows _ _

theorem Alike.recorded (h : Alike shows c d) (kind : ParseErrorKind) :
    Alike shows (c.recorded (c.errorOf kind)) (d.recorded (d.errorOf kind)) := by
  refine ⟨h.withMargin (d.recorded (d.errorOf kind)).margin, h.strict, h.count, ?_, h.settled⟩
  show (d.errors.push _).toList.filterMap shows = (c.errors.push _).toList.filterMap shows
  rw [Array.toList_push, Array.toList_push, List.filterMap_append, List.filterMap_append, h.errors,
    List.filterMap_cons, List.filterMap_cons, h.shows_errorOf]

theorem parseError_alike (h : Alike shows c d) (kind : ParseErrorKind) :
    RunsAlike shows ((parseError kind).run c) ((parseError kind).run d) := by
  rw [parseError_run, parseError_run, h.strict]
  refine ⟨?_, h.recorded kind⟩
  cases c.options.strict with
  | true =>
    rw [h.errorOf]
    exact .parse _ _ h.count
  | false => exact .same _

/-- if only one document is the source of an `iframe`, they are told apart by a missing doctype, but
not by what is shown of it -/
theorem missDoctype_alike (h : Alike shows c d) (token : Token) :
    RunsAlike shows ((missDoctype token).run c) ((missDoctype token).run d) := by
  have hsame : ∀ m, { c with mode := .beforeHtml }.withMargin m =
      { d with mode := .beforeHtml }.withMargin m := fun m =>
    congrArg (fun c : Constructor => { c with mode := .beforeHtml }) (h.withMargin m)
  have hrecorded := h.recorded .missingDoctype
  rw [missDoctype_run, missDoctype_run, h.strict]
  rcases h.settled with ⟨hs, hd⟩ | ⟨hl, hc, hs, hd, hshows⟩
  · rw [hs]
    cases c.options.iframeSrcdoc with
    | true =>
      have hbefore : Alike shows { c with mode := .beforeHtml } { d with mode := .beforeHtml } :=
        ⟨hsame _, h.strict, h.count, h.errors, h.settled⟩
      exact .ok hbefore _
    | false =>
      cases c.options.strict with
      | true =>
        refine ⟨?_, hrecorded⟩
        rw [h.errorOf]
        exact .parse _ _ h.count
      | false =>
        refine ⟨.same _, hsame _, h.strict, h.count, hrecorded.errors, Or.inl ⟨hs, rfl⟩⟩
  · rw [hc, hs, hl]
    refine ⟨.same _, hsame _, h.strict, h.count, ?_, Or.inr ⟨hl, hc, hs, hd, hshows⟩⟩
    -- what only the first one records is not shown
    show _ = (c.errors.push _).toList.filterMap shows
    rw [Array.toList_push, List.filterMap_append, List.filterMap_cons,
      show shows (c.errorOf .missingDoctype) = none from hshows _ _, List.filterMap_nil,
      List.append_nil]
    exact h.errors

/-! ## rules -/

/-- **Rules do not tell alike constructors apart**, unless they ask whether scripts run. -/
theorem Written.alike {token : Token} {r s : Bool} {x : Step α} (hx : Written token r s x)
    (h : Alike shows c d) (hn : token.StartsNoscript → d.options.scripting = c.options.scripting) :
    RunsAlike shows (x.run c) (x.run d) := by
  induction hx generalizing c d with
  | pure a => exact .ok h a
  | bind hx _ ihx ihf =>
    refine (ihx h hn).bind hx.composed fun _ hc hd ha => ihf _ ha fun ht => ?_
    rw [hc, hd, hn ht]
  | @ask _ f _ hmargin ih =>
    have hf : f d = f c := by
      rw [← h.same]
      exact hmargin c d.margin hn
    rw [Step.run_get_bind, Step.run_get_bind, hf]
    exact ih c h hn
  | change hg => exact .ok (hg.alike h) ()
  | skipNextLineFeed =>
    refine .ok (h.change (g := fun c => { c with skipLineFeed := true }) (fun _ _ => rfl)
      (fun _ => rfl) ⟨fun _ mode => mode, fun _ => rfl, fun _ => rfl⟩) ()
  | appendNew parent => exact appendNew_alike h parent _
  | parseError => exact parseError_alike h _
  | unsupported t =>
    refine ⟨?_, h.noted _ _⟩
    show OutcomesAlike shows (.error (.unsupportedInput c.mode t))
      (.error (.unsupportedInput d.mode t))
    rw [h.mode]
    exact .same _
  | violated v => exact .error h _
  | missDoctype t => exact missDoctype_alike h t
  | @ensure x g _ hg _ ih =>
    have hrun := ih h hn
    rw [Step.run_bind, Step.run_bind, Step.run_tryCatch, Step.run_tryCatch]
    rcases hc : x.run c with ⟨o, c'⟩
    rcases hd : x.run d with ⟨o', d'⟩
    rw [hc, hd] at hrun
    obtain ⟨ho, ha⟩ : OutcomesAlike shows o o' ∧ Alike shows c' d' := hrun
    cases ho with
    | same =>
      cases o with
      | error e => exact .error (hg.alike ha) e
      | ok _ => exact .ok (hg.alike ha) ()
    | parse e i hi => exact ⟨.parse e i hi, hg.alike ha⟩

/-! ## tokens -/

/-- what stands for a token starts a `noscript` only if it does -/
theorem Token.Stands.startsNoscript {token t : Token} (h : token.Stands t) (ht : t.StartsNoscript) :
    token.StartsNoscript := by
  rcases h with rfl | ⟨tag, _, _, rfl⟩
  · exact ht
  · exact absurd (show "img" = "noscript" from ht) (by decide)

theorem processWithin_alike {m : Mode} {token : Token} (n : Nat) (hin : c.core.In m)
    (h : Alike shows c d) (hn : token.StartsNoscript → d.options.scripting = c.options.scripting) :
    RunsAlike shows ((processWithin n token).run c) ((processWithin n token).run d) := by
  induction n generalizing c d m token with
  | zero => exact .error h _
  | succ n ih =>
    have hw : Written token true true (dispatch token) := .dispatch token fun _ => rfl
    have hleads : Leads true token (dispatch token) c.core _ := dispatch_leads hin
    refine (hw.alike h hn).bind hw.composed fun {v c' d'} hrun hc hd ha => ?_
    cases v with
    | done => exact .ok ha ()
    | reprocess t =>
      have hround := hleads c rfl
      rw [hrun] at hround
      obtain ⟨hm, hst, hstop, _⟩ := hround
      refine ih (m := c'.core.mode) ⟨hm.sound hin.sound, rfl, hstop⟩ ha fun ht => ?_
      rw [hc, hd, hn (hst.startsNoscript ht)]

theorem checkSelfClosing_alike (h : Alike shows c d) (token : Token) :
    RunsAlike shows ((checkSelfClosing token).run c) ((checkSelfClosing token).run d) := by
  have hused : d.selfClosingUsed = c.selfClosingUsed :=
    (congrArg Constructor.selfClosingUsed h.same).symm
  rw [checkSelfClosing_run, checkSelfClosing_run, hused]
  split
  · exact parseError_alike h _
  · exact .ok h ()

/-- **Alike constructors do alike with a token.** -/
theorem processToken_alike {m : Mode} {token : Token} (hin : c.core.In m) (h : Alike shows c d)
    (hn : token.StartsNoscript → d.options.scripting = c.options.scripting) :
    RunsAlike shows ((processToken token).run c) ((processToken token).run d) := by
  refine (processWithin_alike maxRounds hin h hn).bind (.processWithin _ _) fun _ _ _ ha => ?_
  exact checkSelfClosing_alike ha token

/-! ## between tokens -/

namespace Constructor

/-- between tokens it is no matter whether the last one's self-closing flag was put to use -/
def rested (c : Constructor) : Constructor := { c with selfClosingUsed := false }

/-- two constructors between tokens -/
def Level (shows : ParseError → Option ParseError) (c d : Constructor) : Prop :=
  Alike shows c.rested d.rested

theorem level_of_alike (h : Alike shows c d) : c.Level shows d :=
  ⟨congrArg rested h.same, h.strict, h.count, h.errors, h.settled⟩

theorem Level.skips (h : c.Level shows d) (token : Token) : d.skips token = c.skips token :=
  (congrArg (Constructor.skips · token) h.same.symm :)

theorem Level.stopped (h : c.Level shows d) : d.stopped = c.stopped :=
  (congrArg Constructor.stopped h.same.symm :)

theorem Level.counted (h : c.Level shows d) : c.counted.Level shows d.counted :=
  ⟨h.withMargin d.counted.margin, h.strict, h.count.imp_left (congrArg (· + 1)), h.errors,
    h.settled⟩

theorem Level.begun (h : c.Level shows d) (token : Token) :
    Alike shows (c.begun token) (d.begun token) :=
  ⟨congrArg (fun c : Constructor => { c with skipLineFeed := false })
    (h.withMargin (d.begun token).margin), h.strict, h.count, h.errors, h.settled⟩

/-- **From before a token to behind it.** -/
theorem process_level {token : Token} (hs : c.core.Sound) (hstop : c.stopped = false)
    (h : c.Level shows d) (hn : token.StartsNoscript → d.options.scripting = c.options.scripting) :
    OutcomesAlike shows (c.process token).1 (d.process token).1 ∧
      (c.process token).2.Level shows (d.process token).2 := by
  have hskips := h.skips token
  cases hskip : c.skips token with
  | true =>
    rw [process_of_skips hskip, process_of_skips (hskips.trans hskip)]
    have hpassed : Level shows
        { c with journal := c.journal.add (.token c.mode token), skipLineFeed := false }
        { d with journal := d.journal.add (.token d.mode token), skipLineFeed := false } :=
      ⟨congrArg (fun c : Constructor => { c with skipLineFeed := false })
        (h.withMargin { d.margin with journal := d.journal.add (.token d.mode token) }),
        h.strict, h.count, h.errors, h.settled⟩
    exact ⟨.same _, hpassed.counted⟩
  | false =>
    rw [process_of_not_skips hskip, process_of_not_skips (hskips.trans hskip)]
    have hin : (c.begun token).core.In c.mode := in_mode hs hstop
    obtain ⟨ho, ha⟩ := processToken_alike hin (h.begun token) hn
    exact ⟨ho, (level_of_alike ha).counted⟩

theorem Level.takeRequest (h : c.Level shows d) :
    d.takeRequest.1 = c.takeRequest.1 ∧ c.takeRequest.2.Level shows d.takeRequest.2 := by
  have hr : d.requestedState = c.requestedState :=
    (congrArg Constructor.requestedState h.same.symm :)
  unfold Constructor.takeRequest
  rw [hr]
  cases c.requestedState with
  | none => exact ⟨rfl, h⟩
  | some state =>
    refine ⟨rfl, ?_, h.strict, h.count, h.errors, h.settled⟩
    exact congrArg (fun c : Constructor => { c with requestedState := none })
      (h.withMargin { d.margin with journal := d.journal.add (.tokenizerSwitch state) })

end Constructor

/-! ## runs -/

/-- two runs that take the same course -/
structure SameCourse (shows : ParseError → Option ParseError) (r r' : Run) : Prop where
  outcome : OutcomesAlike shows r.outcome r'.outcome
  level : r.constructor.Level shows r'.constructor
  requests : r'.requests = r.requests
  remaining : r'.remaining = r.remaining

/-- two runs that have come to the same, but for what stands in the margin -/
structure Run.Matches (r r' : Run) : Prop where
  remaining : r'.remaining = r.remaining
  requests : r'.requests = r.requests
  mode : r'.constructor.mode = r.constructor.mode
  originalMode : r'.constructor.originalMode = r.constructor.originalMode
  stopped : r'.constructor.stopped = r.constructor.stopped
  openElements : r'.constructor.openElements = r.constructor.openElements
  head : r'.constructor.head = r.constructor.head
  form : r'.constructor.form = r.constructor.form
  framesetOk : r'.constructor.framesetOk = r.constructor.framesetOk
  skipLineFeed : r'.constructor.skipLineFeed = r.constructor.skipLineFeed
  requestedState : r'.constructor.requestedState = r.constructor.requestedState
  nodes : r'.constructor.tree.nodes = r.constructor.tree.nodes

section
variable {r r' : Run}

theorem SameCourse.matches (h : SameCourse shows r r') : r.Matches r' := by
  have hsame : r'.constructor.rested =
    r.constructor.rested.withMargin r'.constructor.rested.margin := h.level.same.symm
  exact ⟨h.remaining, h.requests, (congrArg Constructor.mode hsame :),
    (congrArg Constructor.originalMode hsame :), (congrArg Constructor.stopped hsame :),
    (congrArg Constructor.openElements hsame :), (congrArg Constructor.head hsame :),
    (congrArg Constructor.form hsame :), (congrArg Constructor.framesetOk hsame :),
    (congrArg Constructor.skipLineFeed hsame :), (congrArg Constructor.requestedState hsame :),
    (congrArg (fun c : Constructor => c.tree.nodes) hsame :)⟩

/-- where a missing doctype is shown the documents are the same, their modes included -/
theorem SameCourse.tree_eq (h : SameCourse shows r r')
    (hshows : shows ⟨.missingDoctype, .initial, 0⟩ ≠ none) :
    r'.constructor.tree = r.constructor.tree := by
  rcases h.level.settled with ⟨_, hmode⟩ | ⟨_, _, _, _, hnone⟩
  · exact Tree.ext_get? hmode fun id => congrArg (·[id.index]?) h.matches.nodes
  · exact absurd (hnone .initial 0) hshows

end

namespace Constructor

theorem sameCourse_of_stopped (h : c.Level shows d) (hstop : c.stopped = true)
    (tokens : List Token) : SameCourse shows (c.run tokens) (d.run tokens) := by
  rw [run_of_stopped hstop, run_of_stopped (h.stopped.trans hstop)]
  exact ⟨.same _, h, rfl, rfl⟩

/-- the same first token for both, and what comes behind it if it does not fail -/
theorem sameCourse_cons {token : Token} {rest rest' : List Token} (hs : c.core.Sound)
    (hstop : c.stopped = false) (h : c.Level shows d)
    (hn : token.StartsNoscript → d.options.scripting = c.options.scripting)
    (herror : ∀ f, (c.process token).1 = .error f → rest' = rest)
    (hrest : (c.process token).1 = .ok () → (c.next token).Level shows (d.next token) →
      SameCourse shows ((c.next token).run rest) ((d.next token).run rest')) :
    SameCourse shows (c.run (token :: rest)) (d.run (token :: rest')) := by
  obtain ⟨ho, hl⟩ := process_level hs hstop h hn
  obtain ⟨hreq, hnext⟩ := hl.takeRequest
  have hstop' := h.stopped.trans hstop
  cases hc : (c.process token).1 with
  | error f =>
    obtain ⟨f', hf'⟩ : ∃ f', (d.process token).1 = .error f' := by
      rw [hc] at ho
      generalize (d.process token).1 = o at ho
      cases ho with
      | same => exact ⟨f, rfl⟩
      | parse => exact ⟨_, rfl⟩
    rw [run_cons_error hstop hc, run_cons_error hstop' hf', herror f hc]
    rw [hc, hf'] at ho
    exact ⟨ho, hnext, hreq, rfl⟩
  | ok _ =>
    have hd : (d.process token).1 = .ok () := by
      rw [hc] at ho
      generalize (d.process token).1 = o at ho
      cases ho
      rfl
    have hr := hrest hc hnext
    rw [run_cons_ok hstop hc, run_cons_ok hstop' hd]
    exact ⟨hr.outcome, hr.level, congrArg₂ (· ++ ·) hreq hr.requests, hr.remaining⟩

/-- **Runs of the same tokens take the same course**, if scripts run in both or no token asks. -/
theorem run_sameCourse {tokens : List Token} (hs : c.core.Sound) (h : c.Level shows d)
    (hn : ∀ token ∈ tokens, token.StartsNoscript → d.options.scripting = c.options.scripting) :
    SameCourse shows (c.run tokens) (d.run tokens) := by
  induction tokens generalizing c d with
  | nil => exact ⟨.same _, h, rfl, rfl⟩
  | cons token rest ih =>
    cases hstop : c.stopped with
    | true => exact sameCourse_of_stopped h hstop _
    | false =>
      refine sameCourse_cons hs hstop h (hn token List.mem_cons_self) (fun _ _ => rfl)
        fun _ hnext => ?_
      refine ih ?_ hnext fun t ht hst => ?_
      · rw [next_core]
        exact (process_reports hs hstop token).sound
      · rw [(c.next_grows token).options, (d.next_grows token).options]
        exact hn t (List.mem_cons_of_mem _ ht) hst

theorem finish_level (hs : c.core.Sound) (h : c.Level shows d) :
    OutcomesAlike shows c.finish.1 d.finish.1 ∧ c.finish.2.Level shows d.finish.2 := by
  unfold finish
  rw [h.stopped]
  cases hstop : c.stopped with
  | true => exact ⟨.same _, h⟩
  | false => exact process_level hs hstop h False.elim

end Constructor

end

end HtmlTree
