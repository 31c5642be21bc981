import HtmlTree.Construct.Run

/-!
# Running a step

A step is run on a constructor and answers with its outcome and the constructor after it, also where
it failed.  Here is what running does to the ways in which steps are put together, and what a
constructor does with one token and with many; every statement about a rule goes back to these
equations.

* `run_bind`, `run_tryCatch`     one step after another, and a step whose failure is caught;
* `exists_of_run_bind`           two steps that succeed;
* `run_get_bind`, `run_modify`   looking at the constructor and changing it;
* `parseError_run`, `appendNew_run`, `checkSelfClosing_run`   reporting, and a new node;
* `process_of_skips`, `process_of_not_skips`   a token;
* `run_cons_ok`, `run_cons_error`   a list of tokens, whose first one succeeds or fails;
* `run_rel`, `finish_rel`   what a run is made of, for whatever holds of each of its tokens.
-/

namespace HtmlTree

namespace Step
variable {α β : Type} (c : Constructor)

theorem run_get_bind (f : Constructor → Step α) : (get >>= f).run c = (f c).run c := rfl

theorem run_modify (g : Constructor → Constructor) : (modify g : Step Unit).run c = (.ok (), g c) :=
  rfl

theorem run_bind (x : Step α) (f : α → Step β) :
    (x >>= f).run c = match x.run c with
      | (.ok a, c') => (f a).run c'
      | (.error e, c') => (.error e, c') := by
  rw [ExceptT.run_bind]
  show (StateT.bind x.run _) c = _
  unfold StateT.bind
  rcases x.run c with ⟨_ | _, c'⟩ <;> rfl

theorem run_bind_ok {x : Step α} {f : α → Step β} {c c' : Constructor} {a : α}
    (h : x.run c = (.ok a, c')) : (x >>= f).run c = (f a).run c' := by
  rw [run_bind, h]

theorem run_bind_error {x : Step α} {f : α → Step β} {c c' : Constructor} {e : Failure}
    (h : x.run c = (.error e, c')) : (x >>= f).run c = (.error e, c') := by
  rw [run_bind, h]

theorem eq_of_run_pure {a b : α} {c d : Constructor}
    (h : (pure a : Step α).run c = (.ok b, d)) : b = a ∧ d = c := by
  obtain ⟨hb, hd⟩ := Prod.mk.inj h
  exact ⟨(Except.ok.inj hb).symm, hd.symm⟩

/-- two steps one after the other succeed where both do -/
theorem exists_of_run_bind {x : Step α} {f : α → Step β} {c e : Constructor} {b : β}
    (h : (x >>= f).run c = (.ok b, e)) :
    ∃ a d, x.run c = (.ok a, d) ∧ (f a).run d = (.ok b, e) := by
  rw [run_bind] at h
  rcases hx : x.run c with ⟨_ | a, d⟩ <;> rw [hx] at h
  · cases (Prod.mk.inj h).1
  · exact ⟨a, d, rfl, h⟩

theorem run_tryCatch (x : Step α) (handle : Failure → Step α) :
    (tryCatch x handle : Step α).run c = match x.run c with
      | (.ok a, c') => (.ok a, c')
      | (.error e, c') => (handle e).run c' := by
  rw [ExceptT.run_tryCatch]
  show (StateT.bind x.run _) c = _
  unfold StateT.bind
  rcases x.run c with ⟨_ | _, c'⟩ <;> rfl

/-- a change that is made also where the step before it failed; where both succeed the step did -/
theorem exists_of_run_ensure {x : Step Unit} {g : Constructor → Constructor} {c e : Constructor}
    (h : (do
      tryCatch x fun e => do
        modify g
        throw e
      modify g : Step Unit).run c = (.ok (), e)) :
    ∃ d, x.run c = (.ok (), d) ∧ e = g d := by
  rw [run_bind, run_tryCatch] at h
  rcases hx : x.run c with ⟨_ | _, d⟩ <;> rw [hx] at h
  · cases (Prod.mk.inj h).1
  · exact ⟨d, rfl, (Prod.mk.inj h).2.symm⟩

end Step

/-! ## reports and new nodes -/

/-- the constructor after a parse error was recorded -/
def Constructor.recorded (c : Constructor) (e : ParseError) : Constructor :=
  { c with errors := c.errors.push e, journal := c.journal.add (.parseError e) }

/-- a parse error of this kind, here and now -/
def Constructor.errorOf (c : Constructor) (kind : ParseErrorKind) : ParseError :=
  ⟨kind, c.mode, c.tokenIndex⟩

theorem parseError_run (kind : ParseErrorKind) (c : Constructor) :
    (parseError kind).run c =
      (if c.options.strict then .error (.parse (c.errorOf kind)) else .ok (),
        c.recorded (c.errorOf kind)) := by
  show (if c.options.strict then throw _ else pure _ : Step Unit).run _ = _
  split <;> rfl

theorem appendNew_run (parent : NodeId) (d : NodeData) (c : Constructor) :
    (appendNew parent d).run c =
      let r := (c.tree.alloc d).2.appendChild parent ⟨c.tree.size⟩
      (match r.1 with
        | .ok _ => .ok ⟨c.tree.size⟩
        | .error e => .error (.structural e), { c with tree := r.2 }) := by
  unfold appendNew
  rw [Step.run_get_bind]
  dsimp only [Tree.alloc]
  rcases Tree.appendChild _ parent _ with ⟨_ | _, t⟩ <;> rfl

/-- only the check behind all rules reports a self-closing flag -/
theorem checkSelfClosing_run (token : Token) (c : Constructor) :
    (checkSelfClosing token).run c =
      if token.isSelfClosingStartTag && !c.selfClosingUsed then
        (parseError .nonVoidSelfClosingTag).run c
      else (.ok (), c) := by
  unfold checkSelfClosing
  rw [Step.run_get_bind]
  split <;> rfl

/-! ## tokens -/

namespace Constructor
variable {c : Constructor}

/-- the constructor that the rules for a token begin with -/
def begun (c : Constructor) (token : Token) : Constructor :=
  { c with
    journal := c.journal.add (.token c.mode token)
    skipLineFeed := false
    selfClosingUsed := false }

/-- the constructor after a token has been counted -/
def counted (c : Constructor) : Constructor := { c with tokenIndex := c.tokenIndex + 1 }

/-- the line feed that is passed over -/
def skips (c : Constructor) (token : Token) : Bool := c.skipLineFeed && token == .character '\n'

theorem process_of_skips {token : Token} (h : c.skips token = true) :
    c.process token = (.ok (), { c with
      journal := c.journal.add (.token c.mode token)
      skipLineFeed := false
      tokenIndex := c.tokenIndex + 1 }) := by
  unfold process
  rw [show (c.skipLineFeed && token == .character '\n') = true from h]
  rfl

theorem process_of_not_skips {token : Token} (h : c.skips token = false) :
    c.process token =
      let r := (processToken token).run (c.begun token)
      (r.1, r.2.counted) := by
  unfold process
  rw [show (c.skipLineFeed && token == .character '\n') = false from h]
  rfl

/-! ## many tokens -/

theorem run_of_stopped (h : c.stopped = true) (tokens : List Token) :
    c.run tokens = ⟨.ok (), c, [], tokens⟩ := by
  cases tokens with
  | nil => rfl
  | cons token rest =>
    unfold run
    rw [if_pos h]

/-- the constructor when the next token is taken -/
def next (c : Constructor) (token : Token) : Constructor := (c.process token).2.takeRequest.2

/-- the requests that a token leaves -/
def requestsOf (c : Constructor) (token : Token) : List TokenizerState :=
  (c.process token).2.takeRequest.1

theorem run_cons_ok {token : Token} {rest : List Token} (h : c.stopped = false)
    (ho : (c.process token).1 = .ok ()) :
    c.run (token :: rest) =
      let r := (c.next token).run rest
      { r with requests := c.requestsOf token ++ r.requests } := by
  rw [run, if_neg (by simp [h])]
  unfold next requestsOf
  rcases hp : c.process token with ⟨_ | _, d⟩
  · rw [hp] at ho
    cases ho
  · rfl

theorem run_cons_error {token : Token} {rest : List Token} {f : Failure} (h : c.stopped = false)
    (ho : (c.process token).1 = .error f) :
    c.run (token :: rest) = ⟨.error f, c.next token, c.requestsOf token, rest⟩ := by
  rw [run, if_neg (by simp [h])]
  unfold next requestsOf
  rcases hp : c.process token with ⟨_ | _, d⟩
  · rw [hp] at ho
    cases ho
    rfl
  · rw [hp] at ho
    cases ho

/-- what holds from one token to the next holds of a run -/
theorem run_rel {R : Constructor → Constructor → Prop} (hrefl : ∀ a, R a a)
    (htrans : ∀ {a b d}, R a b → R b d → R a d)
    (hnext : ∀ {a : Constructor} (token), a.stopped = false → R a (a.next token))
    (c : Constructor) (tokens : List Token) : R c (c.run tokens).constructor := by
  induction tokens generalizing c with
  | nil => exact hrefl c
  | cons token rest ih =>
    cases hs : c.stopped with
    | true =>
      rw [run_of_stopped hs]
      exact hrefl c
    | false =>
      cases ho : (c.process token).1 with
      | error f =>
        rw [run_cons_error hs ho]
        exact hnext token hs
      | ok _ =>
        rw [run_cons_ok hs ho]
        exact htrans (hnext token hs) (ih (c.next token))

theorem finish_rel {R : Constructor → Constructor → Prop} (hrefl : ∀ a, R a a)
    (hprocess : ∀ {a : Constructor}, a.stopped = false → R a (a.process .endOfFile).2)
    (c : Constructor) : R c c.finish.2 := by
  unfold finish
  split
  · exact hrefl c
  · exact hprocess (Bool.eq_false_iff.mpr ‹_›)

end Constructor

end HtmlTree
