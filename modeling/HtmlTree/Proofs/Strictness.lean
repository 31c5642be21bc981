import HtmlTree.Proofs.Composed

/-!
# Strict and lenient construction

A strict constructor gives up at the first parse error, a lenient one records it and goes on.  Apart
from that they are the same machine: run side by side they agree up to the first parse error, and
what the strict one has built by then is part of what the lenient one builds in the end.

* `Later`       what a constructor becomes by steps of rules: the document, the parse errors grow;
* `Agree`       how the outcome of a strict run compares with that of a lenient one;
* `Composed.later`, `Composed.agree`   both hold of whatever rules are made of;
* `build_strict`   strict and lenient construction of a whole list of tokens.
-/

namespace HtmlTree

/-! ## what steps leave behind -/

/-- `d` comes after `c` while one token is processed -/
structure Later (c d : Constructor) : Prop where
  options : d.options = c.options
  tokenIndex : d.tokenIndex = c.tokenIndex
  tree : c.tree.Within d.tree
  errors : ∃ added, d.errors.toList = c.errors.toList ++ added ∧
    ∀ e ∈ added, e.tokenIndex = c.tokenIndex

theorem Later.refl (c : Constructor) : Later c c :=
  ⟨rfl, rfl, Tree.Within.refl _, [], (List.append_nil _).symm, fun _ h => nomatch h⟩

theorem Later.trans {c d f : Constructor} (h : Later c d) (h' : Later d f) : Later c f where
  options := h'.options.trans h.options
  tokenIndex := h'.tokenIndex.trans h.tokenIndex
  tree := h.tree.trans h'.tree
  errors := by
    obtain ⟨a, ha, hi⟩ := h.errors
    obtain ⟨b, hb, hj⟩ := h'.errors
    refine ⟨a ++ b, by rw [hb, ha, List.append_assoc], fun e he => ?_⟩
    rcases List.mem_append.mp he with he | he
    · exact hi e he
    · rw [hj e he, h.tokenIndex]

theorem Change.later {g : Constructor → Constructor} (h : Change g) (c : Constructor) :
    Later c (g c) := by
  obtain ⟨ho, hi, he⟩ : (g c).options = c.options ∧ (g c).tokenIndex = c.tokenIndex ∧
      (g c).errors = c.errors := by
    have hr := h.record c
    exact ⟨congrArg (·.1) hr, congrArg (·.2.1) hr, congrArg (·.2.2) hr⟩
  exact ⟨ho, hi, h.tree c, [], by rw [he, List.append_nil], fun _ h => nomatch h⟩

theorem Later.of_eq {c d : Constructor} (ho : d.options = c.options)
    (hi : d.tokenIndex = c.tokenIndex) (ht : d.tree = c.tree) (he : d.errors = c.errors) :
    Later c d :=
  ⟨ho, hi, by rw [ht]; exact Tree.Within.refl _, [], by rw [he, List.append_nil],
    fun _ h => nomatch h⟩

theorem Composed.later {α : Type} {x : Step α} (h : Composed x) (c : Constructor) :
    Later c (x.run c).2 := by
  refine h.rel Later.refl Later.trans Change.later (fun hd parent c => ?_) (fun c kind => ?_)
    (fun _ _ => Later.of_eq rfl rfl rfl rfl) c
  · rw [appendNew_run]
    exact ⟨rfl, rfl, c.tree.within_appendNew parent hd, [], (List.append_nil _).symm,
      fun _ h => nomatch h⟩
  · refine ⟨rfl, rfl, Tree.Within.refl _, [c.errorOf kind], Array.toList_push, fun e he => ?_⟩
    rw [List.mem_singleton.mp he]
    rfl

/-! ## two runs -/

/-- a strict run, both begun at `c`, ended with failure `f` and constructor `s` where the lenient
run recorded its first error on the way to `l` -/
def Parted (c l : Constructor) (f : Failure) (s : Constructor) : Prop :=
  ∃ e rest, f = .parse e ∧ l.errors.toList = c.errors.toList ++ e :: rest ∧
    s.errors.toList = c.errors.toList ++ [e] ∧ e.tokenIndex = c.tokenIndex ∧ s.tree.Within l.tree

/-- the lenient run may go on -/
theorem Parted.later {c l l' s : Constructor} {f : Failure} (h : Parted c l f s) (hl : Later l l') :
    Parted c l' f s := by
  obtain ⟨e, rest, hf, hle, hs, hi, ht⟩ := h
  obtain ⟨added, ha, _⟩ := hl.errors
  exact ⟨e, rest ++ added, hf, by rw [ha, hle, List.append_assoc, List.cons_append], hs, hi,
    ht.trans hl.tree⟩

/-- a change after the end of the strict run -/
theorem Parted.change {c l s : Constructor} {f : Failure} {g : Constructor → Constructor}
    (h : Parted c l f s) (hg : Change g) (ht : ∀ c, (g c).tree = c.tree) :
    Parted c l f (g s) := by
  obtain ⟨e, rest, hf, hle, hs, hi, hw⟩ := h
  refine ⟨e, rest, hf, hle, ?_, hi, by rw [ht]; exact hw⟩
  rw [← hs]
  exact congrArg (·.2.2.toList) (hg.record s)

/-- how a strict run, answering `s`, compares with a lenient one, answering `l`: they agree as long
as nothing is recorded -/
def Agree {α : Type} (c : Constructor) (l s : Except Failure α × Constructor) : Prop :=
  (l.2.errors = c.errors ∧ s = (l.1, l.2.setStrict true)) ∨
    ∃ f, s.1 = .error f ∧ Parted c l.2 f s.2

theorem Agree.of_errors_eq {α : Type} {c d : Constructor} {l s : Except Failure α × Constructor}
    (h : Agree d l s) (he : d.errors = c.errors) (hi : d.tokenIndex = c.tokenIndex) :
    Agree c l s := by
  unfold Agree Parted at *
  rwa [← he, ← hi]

theorem Composed.agree {α : Type} {x : Step α} (h : Composed x) {c : Constructor}
    (hc : c.options.strict = false) : Agree c (x.run c) (x.run (c.setStrict true)) := by
  induction h generalizing c with
  | pure a => exact Or.inl ⟨rfl, rfl⟩
  | @bind _ _ x f hx hf ihx ihf =>
    have hxl := hx.later c
    have hagree := ihx hc
    rw [Step.run_bind, Step.run_bind]
    rcases hl : x.run c with ⟨e | a, c'⟩ <;> rw [hl] at hxl hagree
    · rcases hagree with ⟨he, hs⟩ | ⟨f, hs, hp⟩
      · rw [hs]
        exact Or.inl ⟨he, rfl⟩
      · rcases hs' : x.run (c.setStrict true) with ⟨e' | a', d⟩ <;> rw [hs'] at hs hp <;> cases hs
        exact Or.inr ⟨f, rfl, hp⟩
    · rcases hagree with ⟨he, hs⟩ | ⟨f, hs, hp⟩
      · rw [hs]
        exact (ihf a (by rw [hxl.options, hc])).of_errors_eq he hxl.tokenIndex
      · rcases hs' : x.run (c.setStrict true) with ⟨e' | a', d⟩ <;> rw [hs'] at hs hp <;> cases hs
        exact Or.inr ⟨f, rfl, hp.later ((hf a).later c')⟩
  | @ask _ f _ hstrict ih =>
    rw [Step.run_get_bind, Step.run_get_bind, hstrict]
    exact ih c hc
  | @change g hg =>
    rw [Step.run_modify, Step.run_modify, hg.setStrict]
    exact Or.inl ⟨congrArg (·.2.2) (hg.record c), rfl⟩
  | appendNew parent _ =>
    rw [appendNew_run, appendNew_run]
    exact Or.inl ⟨rfl, rfl⟩
  | parseError kind =>
    rw [parseError_run, parseError_run, hc]
    refine Or.inr ⟨.parse (c.errorOf kind), rfl, c.errorOf kind, [], rfl, Array.toList_push,
      Array.toList_push, rfl, Tree.Within.refl _⟩
  | unsupported token => exact Or.inl ⟨rfl, rfl⟩
  | violated v => exact Or.inl ⟨rfl, rfl⟩
  | @ensure x g hx hg ht ih =>
    have hagree := ih hc
    rw [Step.run_bind, Step.run_bind, Step.run_tryCatch, Step.run_tryCatch]
    rcases hl : x.run c with ⟨e | a, c'⟩ <;> rw [hl] at hagree
    all_goals
      rcases hagree with ⟨he, hs⟩ | ⟨f, hs, hp⟩
      · rw [hs]
        exact Or.inl ⟨(congrArg (·.2.2) (hg.record c')).trans he, congrArg _ (hg.setStrict c' true)⟩
      · rcases hs' : x.run (c.setStrict true) with ⟨e' | a', d⟩ <;> rw [hs'] at hs hp <;> cases hs
        exact Or.inr ⟨f, rfl, (hp.later (hg.later c')).change hg ht⟩

/-! ## one token -/

namespace Constructor
variable {c : Constructor}

/-- what is left of a constructor after any number of tokens -/
structure Grows (c d : Constructor) : Prop where
  options : d.options = c.options
  tree : c.tree.Within d.tree
  errors : ∃ added, d.errors.toList = c.errors.toList ++ added

theorem Grows.refl (c : Constructor) : c.Grows c :=
  ⟨rfl, Tree.Within.refl _, [], (List.append_nil _).symm⟩

theorem Grows.trans {d f : Constructor} (h : c.Grows d) (h' : d.Grows f) : c.Grows f where
  options := h'.options.trans h.options
  tree := h.tree.trans h'.tree
  errors := by
    obtain ⟨a, ha⟩ := h.errors
    obtain ⟨b, hb⟩ := h'.errors
    exact ⟨a ++ b, by rw [hb, ha, List.append_assoc]⟩

theorem process_grows (c : Constructor) (token : Token) : c.Grows (c.process token).2 := by
  cases h : c.skips token with
  | true =>
    rw [process_of_skips h]
    exact ⟨rfl, Tree.Within.refl _, [], (List.append_nil _).symm⟩
  | false =>
    rw [process_of_not_skips h]
    have hl := (Composed.processToken token).later (c.begun token)
    obtain ⟨added, ha, _⟩ := hl.errors
    exact ⟨hl.options, hl.tree, added, ha⟩

theorem process_tokenIndex (c : Constructor) (token : Token) :
    (c.process token).2.tokenIndex = c.tokenIndex + 1 := by
  cases h : c.skips token with
  | true => rw [process_of_skips h]
  | false =>
    rw [process_of_not_skips h]
    have hl := (Composed.processToken token).later (c.begun token)
    exact congrArg (· + 1) hl.tokenIndex

theorem process_agree (hc : c.options.strict = false) (token : Token) :
    Agree c (c.process token) ((c.setStrict true).process token) := by
  cases h : c.skips token with
  | true =>
    rw [process_of_skips h, process_of_skips (c := c.setStrict true) h]
    exact Or.inl ⟨rfl, rfl⟩
  | false =>
    have hb : (c.setStrict true).begun token = (c.begun token).setStrict true := rfl
    rw [process_of_not_skips h, process_of_not_skips (c := c.setStrict true) h, hb]
    have ha := (Composed.processToken token).agree (c := c.begun token) hc
    rcases ha with ⟨he, hs⟩ | ⟨f, hf, hp⟩
    · rw [hs]
      exact Or.inl ⟨he, rfl⟩
    · exact Or.inr ⟨f, hf, hp⟩

theorem takeRequest_setStrict (c : Constructor) (strict : Bool) :
    (c.setStrict strict).takeRequest = (c.takeRequest.1, c.takeRequest.2.setStrict strict) := by
  have hsame : (c.setStrict strict).requestedState = c.requestedState := rfl
  unfold takeRequest
  rw [hsame]
  cases c.requestedState <;> rfl

theorem takeRequest_fields (c : Constructor) :
    c.takeRequest.2.options = c.options ∧ c.takeRequest.2.tokenIndex = c.tokenIndex ∧
      c.takeRequest.2.tree = c.tree ∧ c.takeRequest.2.errors = c.errors := by
  unfold takeRequest
  cases c.requestedState <;> exact ⟨rfl, rfl, rfl, rfl⟩

/-! ## many tokens -/

theorem next_grows (c : Constructor) (token : Token) : c.Grows (c.next token) := by
  obtain ⟨ho, _, ht, he⟩ := takeRequest_fields (c.process token).2
  refine (c.process_grows token).trans ⟨ho, by rw [next, ht]; exact Tree.Within.refl _, [], ?_⟩
  rw [next, he, List.append_nil]

theorem next_tokenIndex (c : Constructor) (token : Token) :
    (c.next token).tokenIndex = c.tokenIndex + 1 := by
  rw [next, (takeRequest_fields _).2.1, process_tokenIndex]

theorem run_grows (c : Constructor) (tokens : List Token) :
    c.Grows (c.run tokens).constructor :=
  run_rel Grows.refl Grows.trans (fun token _ => next_grows _ token) c tokens

/-- a strict run, answering `s`, beside a lenient one, answering `l`, both begun at `c` with `count`
things to process: they agree as long as nothing is recorded, and else the strict one ends with what
the first error is about -/
def RunsAgree (c : Constructor) (tokens : List Token) (count : Nat) (l s : Run) : Prop :=
  (l.constructor.errors = c.errors ∧ s = { l with constructor := l.constructor.setStrict true }) ∨
    ∃ e rest place, l.constructor.errors.toList = c.errors.toList ++ e :: rest ∧
      s.outcome = .error (.parse e) ∧ s.constructor.errors.toList = c.errors.toList ++ [e] ∧
      e.tokenIndex = c.tokenIndex + place ∧ place < count ∧
      s.constructor.tokenIndex = e.tokenIndex + 1 ∧ s.remaining = tokens.drop (place + 1) ∧
      s.constructor.tree.Within l.constructor.tree

/-- a strict run that ends with this token, where the lenient one may go on -/
theorem runsAgree_of_parted {c : Constructor} {token : Token} {rest : List Token} {f : Failure}
    {l : Run} (hs : c.stopped = false) (ho : ((c.setStrict true).process token).1 = .error f)
    (hp : Parted c (c.process token).2 f ((c.setStrict true).process token).2)
    (hl : (c.next token).Grows l.constructor) :
    RunsAgree c (token :: rest) (token :: rest).length l
      ((c.setStrict true).run (token :: rest)) := by
  obtain ⟨e, more, rfl, hle, hse, hi, ht⟩ := hp
  obtain ⟨-, -, htl, hel⟩ := takeRequest_fields (c.process token).2
  obtain ⟨-, -, hts, hes⟩ := takeRequest_fields ((c.setStrict true).process token).2
  obtain ⟨added, ha⟩ := hl.errors
  rw [run_cons_error (c := c.setStrict true) hs ho]
  refine Or.inr ⟨e, more ++ added, 0, ?_, rfl, ?_, hi, Nat.succ_pos _, ?_, rfl, ?_⟩
  · rw [ha, next, hel, hle, List.append_assoc, List.cons_append]
  · show (next _ _).errors.toList = _
    rw [next, hes, hse]
  · show (next _ _).tokenIndex = _
    rw [next_tokenIndex, hi]
    rfl
  · have hw : ((c.setStrict true).next token).tree.Within (c.next token).tree := by
      rw [next, next, hts, htl]
      exact ht
    exact hw.trans hl.tree

theorem run_agree {c : Constructor} (hc : c.options.strict = false) (tokens : List Token) :
    RunsAgree c tokens tokens.length (c.run tokens) ((c.setStrict true).run tokens) := by
  induction tokens generalizing c with
  | nil => exact Or.inl ⟨rfl, rfl⟩
  | cons token rest ih =>
    cases hs : c.stopped with
    | true =>
      rw [run_of_stopped hs, run_of_stopped (c := c.setStrict true) hs]
      exact Or.inl ⟨rfl, rfl⟩
    | false =>
      rcases process_agree hc token with ⟨he, hp⟩ | ⟨f, hf, hp⟩
      · have hnext : (c.setStrict true).next token = (c.next token).setStrict true := by
          rw [next, hp, takeRequest_setStrict, next]
        have hreq : (c.setStrict true).requestsOf token = c.requestsOf token := by
          rw [requestsOf, hp, takeRequest_setStrict, requestsOf]
        have hne : (c.next token).errors = c.errors := by
          rw [next, (takeRequest_fields _).2.2.2, he]
        have hni := c.next_tokenIndex token
        cases ho : (c.process token).1 with
        | error f =>
          rw [run_cons_error hs ho,
            run_cons_error (c := c.setStrict true) hs (by rw [hp]; exact ho), hnext, hreq]
          exact Or.inl ⟨hne, rfl⟩
        | ok _ =>
          rw [run_cons_ok hs ho, run_cons_ok (c := c.setStrict true) hs (by rw [hp]; exact ho),
            hnext, hreq]
          rcases ih (c := c.next token) (by rw [(c.next_grows token).options, hc]) with
            ⟨hle, hrun⟩ | ⟨e, more, place, hle, hso, hse, hi, hlt, hsi, hrem, ht⟩
          · rw [hrun]
            exact Or.inl ⟨hle.trans hne, rfl⟩
          · rw [hne] at hle hse
            rw [hni] at hi
            exact Or.inr ⟨e, more, place + 1, hle, hso, hse, by omega, Nat.succ_lt_succ hlt, hsi,
              hrem, ht⟩
      · refine runsAgree_of_parted hs hf hp ?_
        cases ho : (c.process token).1 with
        | error f =>
          rw [run_cons_error hs ho]
          exact Grows.refl _
        | ok _ =>
          rw [run_cons_ok hs ho]
          exact run_grows _ _

/-! ## whole documents -/

/-- takes the tokens and then, if none failed and it is wanted, ends the input -/
def build (c : Constructor) (tokens : List Token) (ends : Bool) : Run :=
  let r := c.run tokens
  match r.outcome with
  | .error _ => r
  | .ok () =>
    if ends then { r with outcome := r.constructor.finish.1, constructor := r.constructor.finish.2 }
    else r

/-- a run that went well and was not stopped has taken every token -/
theorem run_tokenIndex {c : Constructor} {tokens : List Token}
    (ho : (c.run tokens).outcome = .ok ())
    (hs : (c.run tokens).constructor.stopped = false) :
    (c.run tokens).remaining = [] ∧
      (c.run tokens).constructor.tokenIndex = c.tokenIndex + tokens.length := by
  induction tokens generalizing c with
  | nil => exact ⟨rfl, rfl⟩
  | cons token rest ih =>
    cases h : c.stopped with
    | true =>
      rw [run_of_stopped h] at hs
      exact absurd (h.symm.trans hs) Bool.noConfusion
    | false =>
      cases hp : (c.process token).1 with
      | error f =>
        rw [run_cons_error h hp] at ho
        cases ho
      | ok _ =>
        rw [run_cons_ok h hp] at ho hs ⊢
        obtain ⟨hr, hi⟩ := ih ho hs
        refine ⟨hr, hi.trans ?_⟩
        rw [next_tokenIndex, List.length_cons]
        omega

theorem finish_grows (c : Constructor) : c.Grows c.finish.2 :=
  finish_rel Grows.refl (fun _ => process_grows _ _) c

theorem build_of_error {c : Constructor} {tokens : List Token} {f : Failure} (ends : Bool)
    (h : (c.run tokens).outcome = .error f) : c.build tokens ends = c.run tokens := by
  unfold build
  dsimp only
  rw [h]

theorem build_of_ok {c : Constructor} {tokens : List Token} (h : (c.run tokens).outcome = .ok ()) :
    c.build tokens true = { c.run tokens with
      outcome := (c.run tokens).constructor.finish.1
      constructor := (c.run tokens).constructor.finish.2 } := by
  unfold build
  dsimp only
  rw [h]
  rfl

theorem build_false (c : Constructor) (tokens : List Token) :
    c.build tokens false = c.run tokens := by
  unfold build
  dsimp only
  split <;> rfl

theorem build_grows (c : Constructor) (tokens : List Token) (ends : Bool) :
    (c.run tokens).constructor.Grows (c.build tokens ends).constructor := by
  cases ends with
  | false =>
    rw [build_false]
    exact Grows.refl _
  | true =>
    cases ho : (c.run tokens).outcome with
    | error f =>
      rw [build_of_error true ho]
      exact Grows.refl _
    | ok _ =>
      rw [build_of_ok ho]
      exact finish_grows _

/-- the end of the input after tokens on which both runs agree -/
theorem finish_agree {c : Constructor} (hc : c.options.strict = false) {tokens : List Token}
    (he : (c.run tokens).constructor.errors = c.errors)
    (hs : (c.setStrict true).run tokens =
      { c.run tokens with constructor := (c.run tokens).constructor.setStrict true })
    (ho : (c.run tokens).outcome = .ok ()) :
    RunsAgree c tokens (tokens.length + 1) (c.build tokens true)
      ((c.setStrict true).build tokens true) := by
  rw [build_of_ok ho, build_of_ok (c := c.setStrict true) (by rw [hs]; exact ho), hs]
  have hd : (c.run tokens).constructor.options.strict = false := by
    rw [(run_grows c tokens).options, hc]
  unfold finish
  cases hstop : (c.run tokens).constructor.stopped with
  | true =>
    rw [if_pos rfl, if_pos (by exact hstop)]
    exact Or.inl ⟨he, rfl⟩
  | false =>
    rw [if_neg Bool.false_ne_true, if_neg (by rw [← Bool.not_eq_true] at hstop; exact hstop)]
    rcases process_agree hd .endOfFile with ⟨hpe, hp⟩ | ⟨f, hf, e, more, rfl, hle, hse, hi, ht⟩
    · rw [hp]
      exact Or.inl ⟨hpe.trans he, rfl⟩
    · obtain ⟨hrem, hix⟩ := run_tokenIndex ho hstop
      rw [he] at hle hse
      refine Or.inr ⟨e, more, tokens.length, hle, hf, hse, hi.trans hix, Nat.lt_succ_self _, ?_, ?_,
        ht⟩
      · exact (process_tokenIndex _ _).trans (by rw [hi]; rfl)
      · rw [List.drop_eq_nil_of_le (by omega)]
        exact hrem

theorem build_agree {c : Constructor} (hc : c.options.strict = false) (tokens : List Token)
    (ends : Bool) :
    RunsAgree c tokens (tokens.length + ends.toNat) (c.build tokens ends)
      ((c.setStrict true).build tokens ends) := by
  rcases run_agree hc tokens with ⟨he, hs⟩ | ⟨e, more, place, hle, hso, hse, hi, hlt, hsi, hrem, ht⟩
  · cases ends with
    | false =>
      rw [build_false, build_false]
      exact Or.inl ⟨he, hs⟩
    | true =>
      cases ho : (c.run tokens).outcome with
      | error f =>
        rw [build_of_error true ho,
          build_of_error (c := c.setStrict true) true (by rw [hs]; exact ho)]
        exact Or.inl ⟨he, hs⟩
      | ok _ => exact finish_agree hc he hs ho
  · have hg := build_grows c tokens ends
    obtain ⟨added, ha⟩ := hg.errors
    rw [build_of_error ends hso]
    refine Or.inr ⟨e, more ++ added, place, ?_, hso, hse, hi, by omega, hsi, hrem, ht.trans hg.tree⟩
    rw [ha, hle, List.append_assoc, List.cons_append]

end Constructor

/-- **Strict and lenient construction agree up to the first parse error.**  Where the lenient one
records none, the strict one does the same in everything.  Else it fails with the first error that
the lenient one records, has taken the tokens up to the one of that error (the end of the input
counts as one more), and has built a part of the lenient document. -/
theorem build_strict (scripting iframeSrcdoc : Bool) (tokens : List Token) (ends : Bool) :
    let l := (Constructor.new ⟨false, scripting, iframeSrcdoc⟩).build tokens ends
    let s := (Constructor.new ⟨true, scripting, iframeSrcdoc⟩).build tokens ends
    match l.constructor.errors.toList with
    | [] => s = { l with constructor := l.constructor.setStrict true }
    | e :: _ =>
      s.outcome = .error (.parse e) ∧ s.constructor.errors = #[e] ∧
        e.tokenIndex < tokens.length + ends.toNat ∧
        s.constructor.tokenIndex = e.tokenIndex + 1 ∧
        s.remaining = tokens.drop (e.tokenIndex + 1) ∧
        ∀ id n, s.constructor.tree.get? id = some n →
          ∃ m, l.constructor.tree.get? id = some m ∧ m.parent = n.parent ∧ m.kind = n.kind := by
  have h := Constructor.build_agree (c := .new ⟨false, scripting, iframeSrcdoc⟩) rfl tokens ends
  dsimp only
  rcases h with ⟨he, hs⟩ | ⟨e, more, place, hle, hso, hse, hi, hlt, hsi, hrem, ht⟩
  · rw [he]
    exact hs
  · rw [hle]
    have hi' : e.tokenIndex = place := hi.trans (Nat.zero_add place)
    rw [← hi'] at hlt hrem
    refine ⟨hso, Array.toList_inj.mp hse, hlt, hsi, hrem, fun id n hn => ?_⟩
    obtain ⟨m, hm, hp, hk, _⟩ := ht id n hn
    exact ⟨m, hm, hp, hk⟩

end HtmlTree
