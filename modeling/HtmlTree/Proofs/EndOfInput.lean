import HtmlTree.Proofs.Growth

/-!
# The end of the input

The end of the input finds rules in every mode.  What the document leaves out is implied then, texts
and the head are closed, and from the body on parsing stops.  So a lenient constructor always comes
to an end, whatever the tokens before were, and the frame of its document is complete.

* `Covered`               a step may fail, but not for want of rules;
* `Ending`                the input has ended, or its end goes on to another mode;
* `modeRules_covered`, `dispatch_covered`, `processWithin_covered`   up to the end;
* `process_covered_ok`    in lenient construction a token that rules deal with does not fail;
* `Moves.stopped`         nothing else than the end of the input stops parsing;
* `Completed`             how construction ends;
* `endOfFile_completes`   **the end of the input completes every document**.
-/

namespace HtmlTree

variable {α β : Type} {x : Step α} {f : α → Step β} {k k' : Core} {m : Mode} {byBody : Bool}
  {token : Token} {Q : α → Core → Prop} {R : β → Core → Prop}

/-! ## steps that have rules -/

/-- after the step `Q` holds, or it failed, but not for want of rules -/
def Covered (x : Step α) (k : Core) (Q : α → Core → Prop) : Prop :=
  Ends x k Q fun e _ => ∀ mode token, e ≠ .unsupportedInput mode token

/-- what a rule may leave of the end of the input -/
def Ending : Verdict → Core → Prop
  | .done, k => k.stopped = true
  | .reprocess t, _ => t = .endOfFile

namespace Covered

theorem value {a : α} (h : Q a k) : Covered (pure a) k Q := Ends.value h

theorem ask {f : Constructor → Step α} (h : ∀ c, c.core = k → Covered (f c) k Q) :
    Covered (get >>= f) k Q := Ends.ask h

/-- a step with others after it, whatever it leaves -/
theorem andThen (hx : Covered x k fun _ _ => True) (hf : ∀ a j, Covered (f a) j R) :
    Covered (x >>= f) k R := Ends.bind hx fun a j _ => hf a j

/-- the end of the input goes on to another mode -/
theorem anew (hx : Covered x k fun _ _ => True) :
    Covered (x >>= fun _ => pure (.reprocess .endOfFile)) k Ending :=
  hx.andThen fun _ _ => value rfl

theorem change (g : Constructor → Constructor) : Covered (modify g) k fun _ _ => True :=
  Ends.change fun _ _ => trivial

theorem violated (v : Violation) : Covered (HtmlTree.violated v : Step α) k Q :=
  fun _ _ _ _ => Failure.noConfusion

theorem parseError {Q : Unit → Core → Prop} (kind : ParseErrorKind) (h : Q () k) :
    Covered (HtmlTree.parseError kind) k Q :=
  Ends.parseError kind h fun _ _ _ _ => Failure.noConfusion

theorem parseErrorThen {f : Unit → Step β} (kind : ParseErrorKind) (hf : Covered (f ()) k R) :
    Covered (HtmlTree.parseError kind >>= f) k R :=
  Ends.parseErrorThen kind hf fun _ _ _ _ => Failure.noConfusion

theorem appendNew (place : NodeId) (d : NodeData) :
    Covered (HtmlTree.appendNew place d) k fun _ _ => True := by
  intro c _
  rw [appendNew_run]
  rcases (c.tree.alloc d).2.appendChild place ⟨c.tree.size⟩ with ⟨_ | _, _⟩
  · exact fun _ _ => Failure.noConfusion
  · exact trivial

theorem currentNode : Covered HtmlTree.currentNode k fun _ _ => True := by
  refine .ask fun _ _ => ?_
  split
  · exact .value trivial
  · exact violated _

theorem insertImplied (name : String) :
    Covered (HtmlTree.insertImplied name) k fun _ _ => True :=
  currentNode.andThen fun _ _ => (appendNew _ _).andThen fun _ _ => (change _).andThen fun _ _ =>
    value trivial

theorem leaveFor (m : Mode) : Covered (HtmlTree.leaveFor m) k fun _ _ => True :=
  (change _).andThen fun _ _ => change _

theorem leaveText : Covered HtmlTree.leaveText k fun _ _ => True := by
  refine (change _).andThen fun _ _ => .ask fun _ _ => ?_
  split
  · exact change _
  · exact violated _

theorem stopParsing : Covered HtmlTree.stopParsing k fun _ j => j.stopped = true :=
  Ends.change fun _ _ => rfl

theorem stops {x : Step Unit} (hx : Covered x k fun _ j => j.stopped = true) :
    Covered (finished x) k Ending := Ends.bind hx fun _ _ hs => value hs

end Covered

/-! ## the rules of every mode -/

theorem missDoctype_covered : Covered (missDoctype .endOfFile) k Ending := by
  refine .ask fun _ _ => ?_
  split
  · exact (Covered.parseError _ trivial).andThen fun _ _ => (Covered.change _).andThen fun _ _ =>
      (Covered.change _).anew
  · exact (Covered.change _).anew

theorem implyHtml_covered : Covered (implyHtml .endOfFile) k Ending :=
  ((Covered.appendNew _ _).andThen fun _ _ => (Covered.change _).andThen fun _ _ =>
    Covered.change _).anew

theorem implyHead_covered : Covered (implyHead .endOfFile) k Ending :=
  ((Covered.insertImplied "head").andThen fun _ _ => (Covered.change _).andThen fun _ _ =>
    Covered.change _).anew

theorem endInput_covered : Covered endInput k fun _ j => j.stopped = true := by
  refine .ask fun _ _ => ?_
  split
  · exact (Covered.parseError _ trivial).andThen fun _ _ => .stopParsing
  · exact .stopParsing

/-- **Every mode that is come to has rules for the end of the input.** -/
theorem modeRules_covered (h : k.In m) : Covered (modeRules m .endOfFile) k Ending := by
  cases m with
  | initial => exact missDoctype_covered
  | beforeHtml => exact implyHtml_covered
  | beforeHead => exact implyHead_covered
  | inHead => exact (Covered.leaveFor .afterHead).anew
  | inHeadNoscript =>
    exact (Covered.parseError _ trivial).andThen fun _ _ => (Covered.leaveFor .inHead).anew
  | afterHead =>
    exact (Covered.insertImplied "body").andThen fun _ _ => (Covered.change _).anew
  | inBody => exact endInput_covered.stops
  | text => exact (Covered.parseError _ trivial).andThen fun _ _ => Covered.leaveText.anew
  | afterBody => exact Covered.stopParsing.stops
  | afterAfterBody => exact Covered.stopParsing.stops
  | _ => exact (h.stack (by decide)).elim

/-! ## rounds -/

/-- the end of the input is never taken as foreign content -/
theorem foreignStage_endOfFile (k : Core) : Does (foreignStage .endOfFile) k .toMode k := by
  refine .ask fun c _ => ?_
  have hnone : c.foreignNamespace? .endOfFile = none := by
    unfold Constructor.foreignNamespace?
    split
    · exact if_pos (Bool.or_true _)
    · rfl
  rw [hnone]
  exact .value _ k

theorem dispatch_covered (h : k.In m) : Covered (dispatch .endOfFile) k Ending :=
  (foreignStage_endOfFile k).andThen (Ends.ofMode h.mode (modeRules_covered h))

/-- the end of the input goes through fewer and fewer modes, up to one where parsing stops -/
theorem processWithin_covered (n : Nat) (h : k.In m) (hn : roundsOf m .endOfFile ≤ n) :
    Covered (processWithin n .endOfFile) k fun _ j => j.stopped = true := by
  induction n generalizing k m with
  | zero => exact absurd hn (Nat.not_le.mpr (roundsOf_pos m .endOfFile))
  | succ n ih =>
    have hround := (dispatch_leads h).and (dispatch_covered h)
    refine Ends.bind (Ends.mono hround (fun _ _ hq => hq) fun _ _ he => he.2) ?_
    rintro v j ⟨⟨hm, hv⟩, hend⟩
    -- what goes on is the end of the input again, in a mode that needs fewer rounds
    cases v with
    | done => exact .value hend
    | reprocess t =>
      cases (show t = .endOfFile from hend)
      obtain ⟨_, hstop, hlt⟩ := hv
      rw [h.mode] at hlt
      exact ih ⟨hm.sound h.sound, rfl, hstop⟩ (by omega)

/-- after all rounds there is only the self-closing flag to be looked at -/
theorem processToken_covered {Q : Core → Prop}
    (h : Covered (processWithin maxRounds token) k fun _ j => Q j) :
    Covered (processToken token) k fun _ j => Q j := by
  exact Ends.processToken h fun _ _ _ _ _ => Failure.noConfusion

/-! ## what stops parsing -/

theorem Move.stopped (hne : token ≠ .endOfFile) (hm : Move byBody token k k') :
    k'.stopped = k.stopped := by
  cases hm <;> first
    | rfl
    | exact absurd ‹_› hne

theorem Moves.stopped (hne : token ≠ .endOfFile) (hm : Moves byBody token k k') :
    k'.stopped = k.stopped := by
  induction hm with
  | refl => rfl
  | tail _ hm ih => exact (hm.stopped hne).trans ih

namespace Constructor
variable {c : Constructor}

theorem process_active (h : c.core.Sound) (hs : c.stopped = false) (hne : token ≠ .endOfFile) :
    (c.process token).2.stopped = false :=
  ((process_leads (in_mode h hs) token).1.stopped hne).trans hs

/-- a token whose rounds do not fail for want of rules does not either -/
theorem process_covered {Q : Core → Prop} (hskip : c.skips token = false)
    (hx : Covered (processWithin maxRounds token) c.core fun _ j => Q j) :
    match (c.process token).1 with
    | .ok _ => Q (c.process token).2.core
    | .error e => ∀ mode t, e ≠ .unsupportedInput mode t := by
  exact Ends.process (processToken_covered hx) hskip

/-- in lenient construction such a token does not fail -/
theorem process_covered_ok {Q : Core → Prop} (h : c.core.Sound) (hs : c.stopped = false)
    (hl : c.options.strict = false) (hskip : c.skips token = false)
    (hx : Covered (processWithin maxRounds token) c.core fun _ j => Q j) :
    (c.process token).1 = .ok () ∧ Q (c.process token).2.core := by
  have hcovered := process_covered hskip hx
  have hok : (c.process token).1 = .ok () := by
    refine process_ok h hs hl fun mode t he => ?_
    rw [he] at hcovered
    exact hcovered mode t rfl
  rw [hok] at hcovered
  exact ⟨hok, hcovered⟩

theorem skips_endOfFile (c : Constructor) : c.skips .endOfFile = false := Bool.and_false _

theorem rounds_endOfFile (h : c.core.Sound) (hs : c.stopped = false) :
    Covered (processWithin maxRounds .endOfFile) c.core fun _ j => j.stopped = true :=
  processWithin_covered maxRounds (in_mode h hs) (roundsOf_le_maxRounds _ _)

/-- the end of the input stops parsing or fails, and does not fail for want of rules -/
theorem process_endOfFile (h : c.core.Sound) (hs : c.stopped = false) :
    match (c.process .endOfFile).1 with
    | .ok _ => (c.process .endOfFile).2.stopped = true
    | .error e => ∀ mode token, e ≠ .unsupportedInput mode token :=
  process_covered c.skips_endOfFile (rounds_endOfFile h hs)

/-- **In lenient construction the end of the input does not fail.** -/
theorem process_endOfFile_ok (h : c.core.Sound) (hs : c.stopped = false)
    (hl : c.options.strict = false) : (c.process .endOfFile).1 = .ok () :=
  (process_covered_ok h hs hl c.skips_endOfFile (rounds_endOfFile h hs)).1

/-! ## the end of a construction -/

structure Completed (c : Constructor) : Prop where
  stopped : c.stopped = true
  closed : c.openElements.entries = []
  document : c.tree.Complete
  /-- no token is taken any more -/
  idle : ∀ tokens, c.run tokens = ⟨.ok (), c, [], tokens⟩
  ended : c.finish = (.ok (), c)

theorem completed_of_stopped (hf : c.core.Framed) (hs : c.stopped = true) : c.Completed where
  stopped := hs
  closed := (hf.stopped hs).1
  document := by
    obtain ⟨_, ho, hbody⟩ := hf.stopped hs
    have hframe := hf.tree
    rw [show c.core.outerMode = c.core.mode by unfold Core.outerMode; rw [ho]; rfl,
      Mode.frame_of_isBody hbody] at hframe
    exact hframe.complete
  idle := run_of_stopped hs
  ended := if_pos hs

theorem process_completed (h : c.core.Sound) (hf : c.core.Framed) (hs : c.stopped = false)
    (ho : (c.process .endOfFile).1 = .ok ()) :
    (c.process .endOfFile).2.Completed ∧ (c.next .endOfFile).Completed := by
  have hstop := process_endOfFile h hs
  rw [ho] at hstop
  have hframed := (process_becomes h hs .endOfFile).framed h hf
  have hcore := c.next_core .endOfFile
  refine ⟨completed_of_stopped hframed hstop, completed_of_stopped (hcore ▸ hframed) ?_⟩
  exact (congrArg Core.stopped hcore).trans hstop

/-- the end of the input ends a run, and the tokens behind it are left -/
theorem run_endOfFile (h : c.core.Sound) (hf : c.core.Framed) (hs : c.stopped = false)
    (ho : (c.process .endOfFile).1 = .ok ()) (rest : List Token) :
    c.run (.endOfFile :: rest) = ⟨.ok (), c.next .endOfFile, c.requestsOf .endOfFile, rest⟩ := by
  rw [run_cons_ok hs ho, (process_completed h hf hs ho).2.idle]
  exact congrArg (Run.mk _ _ · rest) (List.append_nil _)

/-- a run that goes well is stopped by the end of the input only, and takes all tokens up to it -/
theorem run_ends (h : c.core.Sound) (hf : c.core.Framed) (hs : c.stopped = false)
    (tokens : List Token) (ho : (c.run tokens).outcome = .ok ()) :
    ((c.run tokens).constructor.stopped = true ↔ .endOfFile ∈ tokens) ∧
      (c.run tokens).remaining = (tokens.dropWhile (· ≠ .endOfFile)).tail := by
  induction tokens generalizing c with
  | nil => exact ⟨⟨fun h => absurd (hs.symm.trans h) Bool.noConfusion, nofun⟩, rfl⟩
  | cons token rest ih =>
    cases hp : (c.process token).1 with
    | error e =>
      rw [run_cons_error hs hp] at ho
      cases ho
    | ok _ =>
      by_cases he : token = .endOfFile
      · subst he
        rw [run_endOfFile h hf hs hp]
        have hstop := (process_completed h hf hs hp).2.stopped
        exact ⟨⟨fun _ => List.mem_cons_self, fun _ => hstop⟩, rfl⟩
      · have hcore := c.next_core token
        have hnext := next_becomes h hs token
        have hactive := (congrArg Core.stopped hcore).trans (process_active h hs he)
        rw [run_cons_ok hs hp] at ho ⊢
        obtain ⟨hiff, hrem⟩ := ih (hnext.sound h) (hnext.framed h hf) hactive ho
        refine ⟨hiff.trans (List.mem_cons.trans (or_iff_right fun e => he e.symm)).symm, ?_⟩
        rw [List.dropWhile_cons_of_pos (by exact decide_eq_true he)]
        exact hrem

end Constructor

/-- **The end of the input completes every document.**  In lenient construction it never fails,
whatever calls were made before and whatever became of them.  Nothing is open after it, the document
has its `html` element with `head` and `body`, and no later call does anything.  So a run that goes
well, as of a new constructor, is stopped just if the end of the input is among its tokens, and
leaves those behind it. -/
theorem endOfFile_completes (options : Options) (calls : List Call)
    (hlenient : options.strict = false)
    (hactive : ((Constructor.new options).after calls).stopped = false) :
    let c := (Constructor.new options).after calls
    (∃ d, c.finish = (.ok (), d) ∧ d.Completed) ∧
    (∀ rest, ∃ d requests,
      c.run (.endOfFile :: rest) = ⟨.ok (), d, requests, rest⟩ ∧ d.Completed) ∧
    ∀ tokens, (c.run tokens).outcome = .ok () →
      ((c.run tokens).constructor.stopped = true ↔ .endOfFile ∈ tokens) ∧
        (c.run tokens).remaining = (tokens.dropWhile (· ≠ .endOfFile)).tail := by
  intro c
  have hs : c.core.Sound := Constructor.after_sound options calls
  have hf : c.core.Framed := Constructor.after_framed options calls
  have hl : c.options.strict = false := by rw [Constructor.after_options, hlenient]
  have ho := Constructor.process_endOfFile_ok hs hactive hl
  obtain ⟨hended, hnext⟩ := Constructor.process_completed hs hf hactive ho
  refine ⟨⟨_, ?_, hended⟩, fun rest => ?_, Constructor.run_ends hs hf hactive⟩
  · show (if c.stopped then (.ok (), c) else c.process .endOfFile) = _
    rw [show c.stopped = false from hactive, if_neg Bool.false_ne_true, ← ho]
  · exact ⟨_, _, Constructor.run_endOfFile hs hf hactive ho rest, hnext⟩

/-- in a style sheet in a `noscript` of the head, after a tag that there is no rule for -/
theorem endOfFile_completes_style :
    let c := (Constructor.new .default).after
      [.run [.startTagNamed "noscript", .startTagNamed "style"], .run [.startTagNamed "table"]]
    c.stopped = false ∧ c.openNames = ["html", "head", "noscript", "style"] ∧
      ∃ d, c.finish = (.ok (), d) ∧ d.Completed :=
  ⟨by decide +kernel, by decide +kernel,
    (endOfFile_completes .default _ rfl (by decide +kernel)).1⟩

end HtmlTree
