import HtmlTree.Proofs.Alike
import HtmlTree.Proofs.Characters

/-!
# Blanks before the body

In the modes before the body a blank is passed over.  It leaves no trace: if these blanks are taken
out of the input, every other token finds the constructor as it was with them, but for the count of
the tokens.

* `Constructor.ignores`              the blanks that are passed over;
* `Constructor.withoutEarlyBlanks`   the tokens of a run without them;
* `Constructor.next_of_ignores`      what is left of such a blank;
* `early_blanks_invisible`           **a run comes to the same without them**.
-/

namespace HtmlTree

/-- the parse error, wherever it was -/
def ParseError.unnumbered (e : ParseError) : ParseError := { e with tokenIndex := 0 }

def Failure.unnumbered : Failure → Failure
  | .parse e => .parse e.unnumbered
  | f => f

theorem OutcomesAlike.unnumbered {α : Type} {shows : ParseError → Option ParseError}
    {o o' : Except Failure α} (h : OutcomesAlike shows o o') :
    o'.mapError Failure.unnumbered = o.mapError Failure.unnumbered := by
  cases h with
  | same => rfl
  | parse e i _ => rfl

namespace Constructor
variable {c d : Constructor} {token : Token} {shows : ParseError → Option ParseError}

/-- a blank in one of the modes before the body -/
def ignores (c : Constructor) : Token → Bool
  | .character ch => Text.isBlank ch && c.mode.ignoresBlanks
  | _ => false

/-- the tokens without those that are ignored when a run takes them -/
def withoutEarlyBlanks (c : Constructor) : List Token → List Token
  | [] => []
  | token :: rest =>
    if c.stopped then token :: rest
    else
      let kept := match (c.process token).1 with
        | .ok () => (c.next token).withoutEarlyBlanks rest
        | .error _ => rest
      if c.ignores token then kept else token :: kept

/-- the blank in the title and the one in the body stay -/
example : (Constructor.new .default).withoutEarlyBlanks
    [.character ' ', .startTagNamed "html", .character '\n', .startTagNamed "title",
      .character ' ', .endTag "title", .character '\t', .startTagNamed "p", .character ' '] =
    [.startTagNamed "html", .startTagNamed "title", .character ' ', .endTag "title",
      .startTagNamed "p", .character ' '] := by decide +kernel

/-! ## one blank -/

/-- a blank before the body is dealt with in its first round, without a trace -/
theorem processToken_blank {ch : Char} (h : c.core.In c.mode)
    (hm : c.mode.ignoresBlanks = true) (hb : Text.isBlank ch = true) :
    (processToken (.character ch)).run c = (.ok (), c) := by
  have hbody : c.mode.isBody = false := by
    rw [← Bool.not_eq_true]
    exact fun h => absurd (Mode.ignoresBlanks_of_isBody h ▸ hm) Bool.false_ne_true
  have hhtml : c.foreignNamespace? (.character ch) = none := by
    have hforeign := c.foreignNamespace?_isSome (.character ch)
    rw [h.not_foreign hbody, Option.isSome_eq_false_iff, Option.isNone_iff_eq_none] at hforeign
    exact hforeign
  have hstage : (foreignStage (.character ch)).run c = (.ok .toMode, c) := by
    unfold foreignStage
    rw [Step.run_get_bind, hhtml]
    rfl
  have hrules : modeRules c.mode (.character ch) = pure .done := by
    cases hmode : c.mode <;> rw [hmode] at hm <;> first | exact if_pos hb | cases hm
  have hround : (dispatch (.character ch)).run c = (.ok .done, c) := by
    unfold dispatch
    rw [Step.run_bind_ok hstage]
    show (modeRules c.mode (.character ch)).run c = _
    rw [hrules]
    rfl
  have hrounds : (processWithin maxRounds (.character ch)).run c = (.ok (), c) :=
    Step.run_bind_ok hround
  unfold processToken
  rw [Step.run_bind_ok hrounds]
  rfl

/-- between tokens a line feed is passed over behind a tag only, and no request is left -/
structure Waits (c : Constructor) : Prop extends c.FeedsAfterTag where
  requestedState : c.requestedState = none

theorem new_waits (options : Options) : (new options).Waits := ⟨⟨new_sound options, nofun⟩, rfl⟩

theorem Waits.next (h : c.Waits) (hs : c.stopped = false) (token : Token) :
    (c.next token).Waits := by
  refine ⟨(h.process hs token).takeRequest, ?_⟩
  unfold Constructor.next Constructor.takeRequest
  cases hr : (c.process token).2.requestedState with
  | none => exact hr
  | some _ => rfl

/-- **All that is left of a blank before the body** is that it was counted. -/
theorem next_of_ignores (h : c.Waits) (hs : c.stopped = false) (hi : c.ignores token = true) :
    (c.process token).1 = .ok () ∧ c.requestsOf token = [] ∧
      c.next token = (c.begun token).counted ∧ c.skipLineFeed = false := by
  cases token with
  | character ch =>
    obtain ⟨hb, hm⟩ := Bool.and_eq_true_iff.mp hi
    have hfeed : c.skipLineFeed = false := by
      rw [← Bool.not_eq_true]
      intro hskip
      exact absurd (Mode.ignoresBlanks_of_followsTag (h.follows hskip) ▸ hm) Bool.false_ne_true
    have hskips : c.skips (.character ch) = false := by
      unfold skips
      rw [hfeed, Bool.false_and]
    have hin : (c.begun (.character ch)).core.In c.mode := in_mode h.sound hs
    have hprocess : c.process (.character ch) = (.ok (), (c.begun (.character ch)).counted) := by
      rw [process_of_not_skips hskips, processToken_blank hin hm hb]
    have hrequest : (c.begun (.character ch)).counted.requestedState = none := h.requestedState
    have htake : (c.begun (.character ch)).counted.takeRequest =
        ([], (c.begun (.character ch)).counted) := by
      unfold Constructor.takeRequest
      rw [hrequest]
    refine ⟨congrArg Prod.fst hprocess, ?_, ?_, hfeed⟩
    · rw [requestsOf, hprocess, htake]
    · rw [Constructor.next, hprocess, htake]
  | _ => cases hi

theorem Level.ignored (h : c.Level shows d) (hu : Unnumbered shows) (hf : c.skipLineFeed = false)
    (token : Token) : (c.begun token).counted.Level shows d where
  same := by
    have hd : d.rested.skipLineFeed = false := by
      rw [← h.same]
      exact hf
    calc (c.begun token).counted.rested.withMargin d.rested.margin
      _ = { c.rested.withMargin d.rested.margin with skipLineFeed := false } := rfl
      _ = { d.rested with skipLineFeed := false } := by rw [h.same]
      _ = d.rested := by rw [← hd]
  strict := h.strict
  count := Or.inr hu
  errors := h.errors
  settled := h.settled

/-! ## whole runs -/

/-- **A run comes to the same without the blanks before the body.** -/
theorem run_withoutEarlyBlanks (hu : Unnumbered shows) (h : c.Waits) (hl : c.Level shows d)
    (ho : d.options.scripting = c.options.scripting) (tokens : List Token) :
    SameCourse shows (c.run tokens) (d.run (c.withoutEarlyBlanks tokens)) := by
  induction tokens generalizing c d with
  | nil => exact ⟨.same _, hl, rfl, rfl⟩
  | cons token rest ih =>
    rw [withoutEarlyBlanks]
    cases hs : c.stopped with
    | true =>
      rw [if_pos rfl]
      exact sameCourse_of_stopped hl hs _
    | false =>
      rw [if_neg Bool.false_ne_true]
      have hoptions : (c.next token).options = c.options := (c.next_grows token).options
      cases hi : c.ignores token with
      | true =>
        obtain ⟨hok, hreq, hnext, hfeed⟩ := next_of_ignores h hs hi
        have hlevel : (c.next token).Level shows d := by
          rw [hnext]
          exact hl.ignored hu hfeed token
        have hrest := ih (h.next hs token) hlevel (by rw [hoptions, ho])
        rw [run_cons_ok hs hok, hok, hreq]
        exact ⟨hrest.outcome, hrest.level, hrest.requests, hrest.remaining⟩
      | false =>
        refine sameCourse_cons h.sound hs hl (fun _ => ho) (fun f hf => ?_) fun hok hlevel => ?_
        · rw [hf]
        · rw [hok]
          refine ih (h.next hs token) hlevel ?_
          rw [hoptions, (d.next_grows token).options, ho]

end Constructor

/-- **Blanks before the body are invisible.**  Without the blanks that it takes in a mode before the
body a run comes to the same outcome, document, stack of open elements, mode and flags, asks for
the same tokenizer states and records the same parse errors, but for their positions. -/
theorem early_blanks_invisible (options : Options) (tokens : List Token) :
    let c := Constructor.new options
    let r := c.run tokens
    let r' := c.run (c.withoutEarlyBlanks tokens)
    r'.outcome.mapError Failure.unnumbered = r.outcome.mapError Failure.unnumbered ∧
      r.Matches r' ∧ r'.constructor.tree = r.constructor.tree ∧
      r'.constructor.errors.toList.map ParseError.unnumbered =
        r.constructor.errors.toList.map ParseError.unnumbered := by
  intro c r r'
  have hlevel : c.Level (some ∘ ParseError.unnumbered) c :=
    ⟨rfl, rfl, Or.inl rfl, rfl, Or.inl ⟨rfl, rfl⟩⟩
  have hrun : SameCourse (some ∘ ParseError.unnumbered) r r' :=
    Constructor.run_withoutEarlyBlanks (fun _ _ => rfl) (Constructor.new_waits options) hlevel rfl
      tokens
  have herrors := hrun.level.errors
  rw [List.filterMap_eq_map] at herrors
  exact ⟨hrun.outcome.unnumbered, hrun.matches, hrun.tree_eq (Option.some_ne_none _), herrors⟩

end HtmlTree
