import HtmlTree.Proofs.Rounds

/-!
# Sessions

A constructor is driven by calls: lists of tokens to be run, and the end of the input.  A call that
failed may be followed by others.  Whatever the calls are, the constructor's parts fit together
after each of them, so no call ever finds what its own bookkeeping rules out.

* `Call`, `Constructor.call`   a call, its outcome and the constructor after it;
* `Constructor.after`          the constructor after some calls;
* `after_sound`                soundness, kept by every token;
* `call_failures`              **the failures that a call can end in**;
* `after_fits`                 **mode and stack of open elements agree**.
-/

namespace HtmlTree

/-- what a constructor may be asked to do -/
inductive Call where
  | run (tokens : List Token)
  | finish
  deriving DecidableEq

namespace Constructor
variable {c : Constructor}

/-- the outcome of a call, and the constructor after it -/
def call (c : Constructor) : Call → Except Failure Unit × Constructor
  | .run tokens => ((c.run tokens).outcome, (c.run tokens).constructor)
  | .finish => c.finish

/-- the constructor after some calls, each made whatever became of those before it -/
def after (c : Constructor) (calls : List Call) : Constructor :=
  calls.foldl (fun c call => (c.call call).2) c

theorem after_cons (c : Constructor) (call : Call) (calls : List Call) :
    c.after (call :: calls) = (c.call call).2.after calls := rfl

/-! ## soundness -/

theorem new_sound (options : Options) : (Constructor.new options).core.Sound := by
  refine ⟨⟨⟨Tree.grown_new, ?_, .nil, ?_, ?_⟩, fun _ => rfl, fun _ => rfl,
    fun _ => .ofStack rfl ?_⟩, trivial⟩
  · exact fun _ h => absurd h List.not_mem_nil
  · exact fun _ h => nomatch h
  · exact fun _ h => nomatch h
  · exact ⟨fun h => Bool.noConfusion h, fun h => Bool.noConfusion h⟩

theorem takeRequest_core (c : Constructor) : c.takeRequest.2.core = c.core := by
  unfold takeRequest
  cases c.requestedState <;> rfl

/-- a constructor that takes tokens still, in the mode that it is in -/
theorem in_mode (h : c.core.Sound) (hs : c.stopped = false) : c.core.In c.mode := ⟨h, rfl, hs⟩

/-- a failure of a sound constructor is one that construction reports -/
structure Reports (c : Constructor) (r : Except Failure Unit × Constructor) : Prop where
  sound : r.2.core.Sound
  options : r.2.options = c.options
  expected : ∀ e, r.1 = .error e → ∃ token, e.Expected token r.2.core

theorem process_reports (h : c.core.Sound) (hs : c.stopped = false) (token : Token) :
    c.Reports (c.process token) := by
  obtain ⟨hm, he⟩ := process_leads (in_mode h hs) token
  exact ⟨hm.sound h, hm.options, fun e hr => ⟨token, he e hr⟩⟩

/-- the failures that a token may have are missing rules and, in strict mode, parse errors -/
theorem process_ok {token : Token} (h : c.core.Sound) (hs : c.stopped = false)
    (hl : c.options.strict = false)
    (hno : ∀ mode t, (c.process token).1 ≠ .error (.unsupportedInput mode t)) :
    (c.process token).1 = .ok () := by
  have hreports := process_reports h hs token
  cases ho : (c.process token).1 with
  | ok _ => rfl
  | error e =>
    obtain ⟨_, he⟩ := hreports.expected e ho
    cases e with
    | unsupportedInput mode t => exact absurd ho (hno mode t)
    | parse p =>
      have hstrict : (c.process token).2.options.strict = true := he
      rw [hreports.options, hl] at hstrict
      cases hstrict
    | structural _ => exact he.elim
    | invariantViolation _ => exact he.elim

theorem next_core (c : Constructor) (token : Token) :
    (c.next token).core = (c.process token).2.core :=
  takeRequest_core _

theorem run_reports (h : c.core.Sound) (tokens : List Token) :
    c.Reports ((c.run tokens).outcome, (c.run tokens).constructor) := by
  induction tokens generalizing c with
  | nil => exact ⟨h, rfl, fun e he => nomatch he⟩
  | cons token rest ih =>
    cases hs : c.stopped with
    | true =>
      rw [run_of_stopped hs]
      exact ⟨h, rfl, fun e he => nomatch he⟩
    | false =>
      have hp := process_reports h hs token
      have hcore := c.next_core token
      cases ho : (c.process token).1 with
      | error f =>
        rw [run_cons_error hs ho]
        refine ⟨by rw [hcore]; exact hp.sound, ?_, fun e he => ?_⟩
        · exact (congrArg Core.options hcore).trans hp.options
        · cases he
          rw [hcore]
          exact hp.expected f ho
      | ok _ =>
        rw [run_cons_ok hs ho]
        have hr := ih (c := c.next token) (by rw [hcore]; exact hp.sound)
        exact ⟨hr.sound, hr.options.trans ((congrArg Core.options hcore).trans hp.options),
          hr.expected⟩

theorem call_reports (h : c.core.Sound) (call : Call) : c.Reports (c.call call) := by
  cases call with
  | run tokens => exact run_reports h tokens
  | finish =>
    show c.Reports c.finish
    unfold finish
    split
    · exact ⟨h, rfl, fun e he => nomatch he⟩
    · exact process_reports h (Bool.eq_false_iff.mpr ‹_›) .endOfFile

theorem after_reports (h : c.core.Sound) (calls : List Call) :
    (c.after calls).core.Sound ∧ (c.after calls).options = c.options := by
  induction calls generalizing c with
  | nil => exact ⟨h, rfl⟩
  | cons call calls ih =>
    rw [after_cons]
    have hr := call_reports h call
    exact ⟨(ih hr.sound).1, (ih hr.sound).2.trans hr.options⟩

theorem after_sound (options : Options) (calls : List Call) :
    ((Constructor.new options).after calls).core.Sound :=
  (after_reports (new_sound options) calls).1

theorem after_options (options : Options) (calls : List Call) :
    ((Constructor.new options).after calls).options = options :=
  (after_reports (new_sound options) calls).2

end Constructor

/-! ## what no call can come to -/

/-- **The only failures are unsupported input and, in strict mode, a parse error.**  Whatever calls
came before, failed ones included: no insertion is refused, a current node, the head, the mode to
return to and the document element are there whenever a rule asks for them, and no token is
processed without end. -/
theorem call_failures (options : Options) (calls : List Call) (call : Call) :
    match (((Constructor.new options).after calls).call call).1 with
    | .ok () => True
    | .error (.unsupportedInput _ _) => True
    | .error (.parse _) => options.strict = true
    | .error (.structural _) => False
    | .error (.invariantViolation _) => False := by
  have hr := Constructor.call_reports (Constructor.after_sound options calls) call
  have ho := Constructor.after_options options calls
  split
  · trivial
  · trivial
  · rename_i p he
    obtain ⟨_, hstrict⟩ := hr.expected _ he
    rw [← ho, ← hr.options]
    exact hstrict
  · rename_i e he
    obtain ⟨_, hfalse⟩ := hr.expected _ he
    exact hfalse
  · rename_i v he
    obtain ⟨_, hfalse⟩ := hr.expected _ he
    exact hfalse

/-- **Mode and stack of open elements agree** between any two calls, as long as parsing has not
stopped: every mode has its stack, a text-only element is open in the text mode only and on top of
the stack of the mode to return to, and the head pointer is set from the head on. -/
theorem after_fits (options : Options) (calls : List Call)
    (h : ((Constructor.new options).after calls).stopped = false) :
    let c := (Constructor.new options).after calls
    c.tree.Fits c.openElements.entries c.mode c.originalMode c.head :=
  (Constructor.after_sound options calls).fits h

/-- in a title that was opened in the body -/
theorem after_fits_title :
    let c := (Constructor.new .default).after
      [.run [.startTagNamed "div", .startTagNamed "table"], .run [.startTagNamed "title"]]
    c.stopped = false ∧ c.mode = .text ∧ c.openNames = ["html", "body", "div", "title"] ∧
      c.tree.Fits c.openElements.entries c.mode c.originalMode c.head :=
  ⟨by decide +kernel, by decide +kernel, by decide +kernel,
    after_fits .default _ (by decide +kernel)⟩

end HtmlTree
