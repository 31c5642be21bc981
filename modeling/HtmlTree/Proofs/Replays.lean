import HtmlTree.Cli.Replay
import HtmlTree.Proofs.EndOfInput
import HtmlTree.Proofs.TokenStreams

/-!
# Replays

The command reads a token when it is its turn.  What it answers is nevertheless what a run over all
tokens of the text says: a malformed token counts only where the run would have taken one more.

* `Run.goesOn`             a run that would take a further token;
* `run_append_of_halted`   what comes after a run that would not is left alone;
* `readUpTo_eq`            **reading token by token is a run over the tokens of the text**;
* `arguments_flagged`      what flags in any order ask for;
* `concluded`              what a run comes to;
* `replay_agrees`          **the command agrees with the library** on every text.
-/

namespace HtmlTree

/-! ## runs that go on -/

/-- neither a failure nor the end of parsing has ended the run -/
def Run.goesOn (r : Run) : Bool :=
  match r.outcome with
  | .ok () => !r.constructor.stopped
  | .error _ => false

theorem Run.goesOn_iff {r : Run} :
    r.goesOn = true ↔ r.outcome = .ok () ∧ r.constructor.stopped = false := by
  unfold goesOn
  cases r.outcome with
  | ok _ => simp
  | error e => simp

namespace Constructor
variable {c : Constructor} {token : Token} {tokens rest : List Token}

/-- a token that is processed well hands the run over to the rest -/
theorem goesOn_cons (h : c.stopped = false) (ho : (c.process token).1 = .ok ()) :
    (c.run (token :: rest)).goesOn = ((c.next token).run rest).goesOn := by
  rw [run_cons_ok h ho]
  rfl

/-- a run that would take a further token has taken all -/
theorem remaining_of_goesOn (h : (c.run tokens).goesOn = true) : (c.run tokens).remaining = [] := by
  induction tokens generalizing c with
  | nil => rfl
  | cons token rest ih =>
    cases hs : c.stopped with
    | true =>
      rw [run_of_stopped hs, Run.goesOn_iff] at h
      exact absurd (hs.symm.trans h.2) Bool.noConfusion
    | false =>
      cases ho : (c.process token).1 with
      | error e =>
        rw [run_cons_error hs ho] at h
        cases h
      | ok _ =>
        rw [goesOn_cons hs ho] at h
        rw [run_cons_ok hs ho]
        exact ih h

theorem goesOn_run_iff : (c.run tokens).goesOn = true ↔ (c.run tokens).outcome = .ok () ∧
    (c.run tokens).remaining = [] ∧ (c.run tokens).constructor.stopped = false := by
  constructor
  · intro h
    obtain ⟨hok, hactive⟩ := Run.goesOn_iff.mp h
    exact ⟨hok, remaining_of_goesOn h, hactive⟩
  · intro h
    exact Run.goesOn_iff.mpr ⟨h.1, h.2.2⟩

/-- the end of the input ends a run, and so does a failure -/
theorem halted_of_endOfFile (hs : c.core.Sound) (hf : c.core.Framed) (hactive : c.stopped = false)
    (h : .endOfFile ∈ tokens ∨ (c.run tokens).outcome ≠ .ok ()) :
    (c.run tokens).goesOn = false := by
  rw [← Bool.not_eq_true, Run.goesOn_iff]
  rintro ⟨hok, hgoes⟩
  obtain hmem | hne := h
  · have hstop := (run_ends hs hf hactive tokens hok).1.mpr hmem
    exact absurd (hgoes.symm.trans hstop) Bool.noConfusion
  · exact hne hok

/-- what comes after a run that has ended is left alone -/
theorem run_append_of_halted (h : (c.run tokens).goesOn = false) (more : List Token) :
    c.run (tokens ++ more) =
      { c.run tokens with remaining := (c.run tokens).remaining ++ more } := by
  induction tokens generalizing c with
  | nil =>
    have hs : c.stopped = true := by simpa [run, Run.goesOn] using h
    exact run_of_stopped hs more
  | cons token rest ih =>
    cases hs : c.stopped with
    | true => rw [run_of_stopped hs, run_of_stopped hs]
    | false =>
      cases ho : (c.process token).1 with
      | error e => rw [List.cons_append, run_cons_error hs ho, run_cons_error hs ho]
      | ok _ =>
        rw [goesOn_cons hs ho] at h
        rw [List.cons_append, run_cons_ok hs ho, run_cons_ok hs ho, ih h]

end Constructor

namespace Cli
open Constructor

variable {c : Constructor} {text : List Char}

/-! ## reading token by token -/

/-- where a text has led to, given the run over its tokens; what follows these is looked at if the
run goes on -/
def ofRun (r : Run) (malformed : Bool) : TextRun :=
  ⟨r.outcome, r.constructor, malformed && r.goesOn⟩

theorem readUpTo_of_stopped (h : c.stopped = true) (fuel : Nat) (text : List Char) :
    readUpTo c fuel text = ⟨.ok (), c, false⟩ := by
  cases fuel with
  | zero => rw [readUpTo, h]; rfl
  | succ fuel => rw [readUpTo, if_pos h]

section Active
variable {fuel : Nat} {token : Token} {rest : List Char}

theorem readUpTo_ended (h : c.stopped = false) (hp : Token.pull text = .ended) :
    readUpTo c (fuel + 1) text = ⟨.ok (), c, false⟩ := by
  rw [readUpTo, if_neg (by simp [h]), hp]

theorem readUpTo_malformed (h : c.stopped = false) (hp : Token.pull text = .malformed) :
    readUpTo c (fuel + 1) text = ⟨.ok (), c, true⟩ := by
  rw [readUpTo, if_neg (by simp [h]), hp]

theorem readUpTo_token_ok (h : c.stopped = false) (hp : Token.pull text = .token token rest)
    (ho : (c.process token).1 = .ok ()) :
    readUpTo c (fuel + 1) text = readUpTo (c.next token) fuel rest := by
  rw [readUpTo, if_neg (by simp [h]), hp]
  dsimp only
  unfold Constructor.next
  rcases hd : c.process token with ⟨_ | _, d⟩
  · rw [hd] at ho
    cases ho
  · rfl

theorem readUpTo_token_error {e : Failure} (h : c.stopped = false)
    (hp : Token.pull text = .token token rest) (ho : (c.process token).1 = .error e) :
    readUpTo c (fuel + 1) text = ⟨.error e, c.next token, false⟩ := by
  rw [readUpTo, if_neg (by simp [h]), hp]
  dsimp only
  unfold Constructor.next
  rcases hd : c.process token with ⟨_ | _, d⟩
  · rw [hd] at ho
    cases ho
    rfl
  · rw [hd] at ho
    cases ho

end Active

/-- **Reading token by token is a run over the tokens of the text.** -/
theorem readUpTo_eq (fuel : Nat) (c : Constructor) (text : List Char) :
    readUpTo c fuel text =
      ofRun (c.run (Token.decodeUpTo fuel text).tokens) (Token.decodeUpTo fuel text).malformed := by
  induction fuel generalizing c text with
  | zero => rfl
  | succ fuel ih =>
    cases hs : c.stopped with
    | true =>
      rw [readUpTo_of_stopped hs, run_of_stopped hs]
      simp [ofRun, Run.goesOn, hs]
    | false =>
      rw [Token.decodeUpTo]
      cases hp : Token.pull text with
      | ended =>
        rw [readUpTo_ended hs hp]
        rfl
      | malformed =>
        rw [readUpTo_malformed hs hp]
        simp [ofRun, run, Run.goesOn, hs]
      | token token rest =>
        cases ho : (c.process token).1 with
        | error e =>
          rw [readUpTo_token_error hs hp ho]
          dsimp only
          rw [run_cons_error hs ho]
          simp [ofRun, Run.goesOn]
        | ok _ =>
          rw [readUpTo_token_ok hs hp ho, ih]
          dsimp only
          rw [run_cons_ok hs ho]
          rfl

theorem readAll_eq (c : Constructor) (text : List Char) :
    readAll c text = ofRun (c.run (Token.decode text).tokens) (Token.decode text).malformed :=
  readUpTo_eq _ c text

/-- text after the last token that is processed is never looked at -/
theorem readAll_append {front : List Char} (hfront : (Token.decode front).malformed = false)
    (h : (c.run (Token.decode front).tokens).goesOn = false) (back : List Char) :
    readAll c (front ++ back) = readAll c front := by
  rw [readAll_eq, readAll_eq, Token.decode_append front back hfront, hfront]
  dsimp only
  rw [run_append_of_halted h]
  simp only [ofRun, Run.goesOn] at h ⊢
  rw [h, Bool.and_false, Bool.and_false]

/-! ## flags -/

/-- flags of a run that prints the plain dump -/
def plainFlags : List String := ["--plain", "--strict", "--scripting", "--iframe-srcdoc", "--no-eof"]

/-- the settings that a list of these flags asks for -/
def flagged (flags : List String) : Settings :=
  ⟨none, false, "--plain" ∈ flags, "--strict" ∈ flags, "--scripting" ∈ flags,
    "--iframe-srcdoc" ∈ flags, "--no-eof" ∈ flags, 0⟩

/-- a new flag is taken, and nothing else changes -/
theorem argument_flagged {before : List String} {flag : String} (hflag : flag ∈ plainFlags)
    (hnew : flag ∉ before) :
    (flagged before).argument flag = .ok (flagged (before ++ [flag])) := by
  simp only [plainFlags, List.mem_cons, List.not_mem_nil, or_false] at hflag
  obtain rfl | rfl | rfl | rfl | rfl := hflag
  · show once (flagged before).plain _ = _
    simp [once, flagged, hnew]
  · show once (flagged before).strict _ = _
    simp [once, flagged, hnew]
  · show once (flagged before).scripting _ = _
    simp [once, flagged, hnew]
  · show once (flagged before).iframeSrcdoc _ = _
    simp [once, flagged, hnew]
  · show once (flagged before).noEof _ = _
    simp [once, flagged, hnew]

/-- **Flags in any order** are all taken, each of them given once. -/
theorem arguments_flagged (before flags : List String) (hflags : flags ⊆ plainFlags)
    (honce : (before ++ flags).Nodup) :
    (flagged before).arguments flags = .ok (flagged (before ++ flags)) := by
  induction flags generalizing before with
  | nil => rw [List.append_nil]; rfl
  | cons flag rest ih =>
    have hflag : flag ∈ plainFlags := hflags List.mem_cons_self
    have hnew : flag ∉ before := by
      intro hmem
      exact (List.disjoint_of_nodup_append honce) hmem List.mem_cons_self
    have hdash : flag ≠ "--" := by
      rintro rfl
      exact absurd hflag (by decide)
    rw [Settings.arguments, argument_flagged hflag hnew]
    · show (flagged (before ++ [flag])).arguments rest = _
      rw [List.append_cons before flag rest] at honce ⊢
      exact ih (before ++ [flag]) (fun x hx => hflags (List.mem_cons_of_mem flag hx)) honce
    · exact hdash

theorem ofArguments_flags {args : List String} (hflags : args ⊆ plainFlags) (honce : args.Nodup) :
    Command.ofArguments args = .replay (flagged args) := by
  have h := arguments_flagged [] args hflags honce
  rw [List.nil_append] at h
  have hnew : flagged [] = Settings.default := by decide
  rw [Command.ofArguments, ← hnew, h]
  rfl

/-! ## the answer -/

/-- what a run comes to: where it went well, the input ends with it, unless it is left open -/
def concluded (r : Run) (noEof : Bool) : Except Failure Unit × Constructor :=
  match r.outcome with
  | .ok () => if noEof then (.ok (), r.constructor) else r.constructor.finish
  | .error e => (.error e, r.constructor)

/-- how the command tells an outcome -/
def exitCode : Except Failure Unit → Nat
  | .ok () => 0
  | .error _ => 1

section Answer
variable {s : Settings} {r : Run}

theorem report_exit (s : Settings) (outcome : Except Failure Unit) (c : Constructor) :
    (s.report outcome c).exit = exitCode outcome := by
  unfold Settings.report
  cases outcome with
  | ok _ => rfl
  | error e => rfl

/-- the document is printed whether or not construction failed -/
theorem report_stdout (s : Settings) (outcome : Except Failure Unit) (c : Constructor) :
    (s.report outcome c).stdout = s.render c.tree := by
  unfold Settings.report
  cases outcome with
  | ok _ => rfl
  | error e => rfl

theorem conclude_malformed (h : r.goesOn = true) :
    (s.conclude (ofRun r true)).exit = 1 ∧ (s.conclude (ofRun r true)).stdout = "" := by
  simp [Settings.conclude, ofRun, h]

theorem conclude_eq_report {malformed : Bool} (h : (malformed && r.goesOn) = false) :
    s.conclude (ofRun r malformed) =
      s.report (concluded r s.noEof).1 (concluded r s.noEof).2 := by
  unfold Settings.conclude concluded ofRun
  rw [h]
  cases r.outcome with
  | error e => rfl
  | ok _ =>
    cases s.noEof with
    | true => rfl
    | false => rfl

end Answer

theorem executeIn_flagged {args : List String} (hflags : args ⊆ plainFlags) (honce : args.Nodup)
    (fs : FileSystem) (stdin : String) :
    (Command.ofArguments args).executeIn fs stdin = (flagged args).conclude
      (readAll (Constructor.new (flagged args).options) stdin.toList) := by
  rw [ofArguments_flags hflags honce]
  rfl

/-- **The command agrees with the library** on every text.  It exits with 1 and prints nothing if
there is a malformed token and the run over the tokens before it would take one more.  In all other
cases it prints the document, as far as it was built, and exits with 0 just if all went well.  What
follows the end of the input or a token that fails makes no difference. -/
theorem replay_agrees (args : List String) (hflags : args ⊆ plainFlags) (honce : args.Nodup)
    (hplain : "--plain" ∈ args) (fs : FileSystem) :
    let options : Options :=
      ⟨"--strict" ∈ args, "--scripting" ∈ args, "--iframe-srcdoc" ∈ args⟩
    let answer (stdin : String) := (Command.ofArguments args).executeIn fs stdin
    let run (stdin : String) := (Constructor.new options).run (Token.decode stdin.toList).tokens
    let cut (stdin : String) := (Token.decode stdin.toList).malformed = true ∧
      (run stdin).outcome = .ok () ∧ (run stdin).remaining = [] ∧
      (run stdin).constructor.stopped = false
    (∀ stdin, cut stdin → (answer stdin).exit = 1 ∧ (answer stdin).stdout = "") ∧
    (∀ stdin, ¬ cut stdin →
      let last := concluded (run stdin) ("--no-eof" ∈ args)
      (answer stdin).stdout = last.2.tree.dump ∧ (answer stdin).exit = exitCode last.1) ∧
    (∀ front back, (Token.decode front.toList).malformed = false →
      .endOfFile ∈ (Token.decode front.toList).tokens ∨ (run front).outcome ≠ .ok () →
      answer (front ++ back) = answer front) := by
  intro options answer run cut
  have hanswer : ∀ stdin, answer stdin = (flagged args).conclude
      (ofRun (run stdin) (Token.decode stdin.toList).malformed) := by
    intro stdin
    show (Command.ofArguments args).executeIn fs stdin = _
    rw [executeIn_flagged hflags honce, readAll_eq]
    rfl
  have hrender : ∀ t : Tree, (flagged args).render t = t.dump := by
    intro t
    simp [Settings.render, flagged, hplain]
  have hcut : ∀ stdin, cut stdin ↔
      ((Token.decode stdin.toList).malformed && (run stdin).goesOn) = true := by
    intro stdin
    rw [Bool.and_eq_true, goesOn_run_iff]
  refine ⟨fun stdin h => ?_, fun stdin h => ?_, fun front back hfront hends => ?_⟩
  · obtain ⟨hmalformed, hgoes⟩ := Bool.and_eq_true_iff.mp ((hcut stdin).mp h)
    rw [hanswer, hmalformed]
    exact conclude_malformed hgoes
  · rw [hcut, Bool.not_eq_true] at h
    rw [hanswer, conclude_eq_report h, report_exit, report_stdout, hrender]
    exact ⟨rfl, rfl⟩
  · have hhalted : (run front).goesOn = false :=
      halted_of_endOfFile (new_sound options) (Core.new_framed options) rfl hends
    show (Command.ofArguments args).executeIn fs (front ++ back) =
      (Command.ofArguments args).executeIn fs front
    rw [executeIn_flagged hflags honce, executeIn_flagged hflags honce, String.toList_append]
    exact congrArg (flagged args).conclude (readAll_append hfront hhalted back.toList)

/-- a comment and then the end of the input, in a replay with scripting, before any text -/
theorem replay_agrees_comment :
    let args := ["--no-eof", "--plain", "--scripting"]
    let front := "[\"comment\", \"x\"] [\"end_of_file\"]"
    args ⊆ plainFlags ∧ args.Nodup ∧ "--plain" ∈ args ∧
      (Token.decode front.toList).malformed = false ∧
      .endOfFile ∈ (Token.decode front.toList).tokens ∧
      ∀ fs back, ((Command.ofArguments args).executeIn fs (front ++ back)).exit = 0 := by
  intro args front
  have hflags : args ⊆ plainFlags := by decide
  have honce : args.Nodup := by decide
  have hplain : "--plain" ∈ args := by decide
  have hfront : (Token.decode front.toList).malformed = false := by decide +kernel
  have hends : .endOfFile ∈ (Token.decode front.toList).tokens := by decide +kernel
  refine ⟨hflags, honce, hplain, hfront, hends, fun fs back => ?_⟩
  obtain ⟨_, hprinted, hsame⟩ := replay_agrees args hflags honce hplain fs
  have hwhole : ¬ (Token.decode front.toList).malformed = true := by rw [hfront]; decide
  have hexit := (hprinted front fun h => hwhole h.1).2
  have hok : exitCode (concluded ((Constructor.new ⟨"--strict" ∈ args, "--scripting" ∈ args,
    "--iframe-srcdoc" ∈ args⟩).run (Token.decode front.toList).tokens) ("--no-eof" ∈ args)).1 = 0 := by
    decide +kernel
  exact (congrArg Output.exit (hsame front back hfront (.inl hends))).trans (hexit.trans hok)

end Cli

end HtmlTree
