import HtmlTree.Proofs.Move
import HtmlTree.Proofs.Step

/-!
# Where a step leads

A step is described by what it makes of a core, both where it succeeds and where it fails.  Of a
simple step this is one core (`Does`).  Of a rule it is a sequence of moves, and a failure that may
be expected (`Leads`).  Both are composed along the steps of a rule.

* `Ends`               what holds after a step, in success and in failure;
* `Does`               the step succeeds, with this answer and this core;
* `Failure.Expected`   unsupported input, or a parse error in strict mode;
* `Leads`              the step makes moves, also where it fails, and fails only as expected;
* `Tries`              the same where success is described in full;
* `Anew`               what is left where a token is to be processed anew.
-/

namespace HtmlTree

variable {α β : Type} {x : Step α} {f : α → Step β} {k k' k'' : Core} {a : α} {b : β}
  {Q : α → Core → Prop} {R : β → Core → Prop} {E : Failure → Core → Prop} {byBody : Bool}
  {token : Token}

/-! ## success and failure -/

/-- after the step, from any constructor with this core, `Q` holds of its answer and the core, or
where it fails `E` of the failure and the core -/
def Ends (x : Step α) (k : Core) (Q : α → Core → Prop) (E : Failure → Core → Prop) : Prop :=
  ∀ c : Constructor, c.core = k →
    match x.run c with
    | (.ok a, c') => Q a c'.core
    | (.error e, c') => E e c'.core

namespace Ends

theorem mono {Q' : α → Core → Prop} {E' : Failure → Core → Prop} (h : Ends x k Q E)
    (hq : ∀ a k', Q a k' → Q' a k') (he : ∀ e k', E e k' → E' e k') : Ends x k Q' E' := by
  intro c hc
  have hx := h c hc
  rcases hr : x.run c with ⟨_ | a, c'⟩ <;> rw [hr] at hx
  · exact he _ _ hx
  · exact hq _ _ hx

/-- two things that hold after a step hold together -/
theorem and {Q' : α → Core → Prop} {E' : Failure → Core → Prop} (h : Ends x k Q E)
    (h' : Ends x k Q' E') :
    Ends x k (fun a j => Q a j ∧ Q' a j) fun e j => E e j ∧ E' e j := by
  intro c hc
  have hx := h c hc
  have hx' := h' c hc
  rcases hr : x.run c with ⟨_ | _, c'⟩ <;> rw [hr] at hx hx' <;> exact ⟨hx, hx'⟩

theorem value (h : Q a k) : Ends (pure a) k Q E := by
  rintro c rfl
  exact h

theorem change {g : Constructor → Constructor} {Q : Unit → Core → Prop}
    (h : ∀ c, c.core = k → Q () (g c).core) : Ends (modify g) k Q E := fun c hc => h c hc

/-- looking at the constructor -/
theorem ask {f : Constructor → Step α} (h : ∀ c, c.core = k → Ends (f c) k Q E) :
    Ends (get >>= f) k Q E := fun c hc => by
  rw [Step.run_get_bind]
  exact h c hc c hc

theorem bind {P : α → Core → Prop} (hx : Ends x k P E)
    (hf : ∀ a k', P a k' → Ends (f a) k' R E) : Ends (x >>= f) k R E := by
  intro c hc
  have hp := hx c hc
  rw [Step.run_bind]
  rcases hr : x.run c with ⟨_ | a, c'⟩ <;> rw [hr] at hp
  · exact hp
  · exact hf a _ hp c' rfl

/-- of any step something trivial holds -/
theorem any (x : Step α) (k : Core) : Ends x k (fun _ _ => True) fun _ _ => True := by
  intro c _
  rcases x.run c with ⟨_ | _, c'⟩ <;> exact trivial

/-- a report leaves the core as it is, and is a failure in strict mode only -/
theorem parseError {Q : Unit → Core → Prop} (kind : ParseErrorKind) (h : Q () k)
    (he : ∀ p, k.options.strict = true → E (.parse p) k) :
    Ends (HtmlTree.parseError kind) k Q E := by
  rintro c rfl
  rw [parseError_run]
  by_cases hs : c.options.strict = true
  · rw [if_pos hs]
    exact he _ hs
  · rw [if_neg hs]
    exact h

/-- a report with others after it -/
theorem parseErrorThen {f : Unit → Step β} (kind : ParseErrorKind) (hf : Ends (f ()) k R E)
    (he : ∀ p, k.options.strict = true → E (.parse p) k) :
    Ends (HtmlTree.parseError kind >>= f) k R E :=
  bind (parseError (Q := fun _ j => j = k) kind rfl he) fun _ _ hj => by
    rw [hj]
    exact hf

/-- the rules of the mode that the constructor is in -/
theorem ofMode {Q : Verdict → Core → Prop} {m : Mode} (hk : k.mode = m)
    (hx : Ends (modeRules m token) k Q E) : Ends (currentModeRules token) k Q E :=
  ask fun c hc => by
    rw [show c.mode = m from (congrArg Core.mode hc).trans hk]
    exact hx

end Ends

/-! ## steps with one outcome -/

/-- the step succeeds, answers `a` and leaves the core `k'` -/
def Does (x : Step α) (k : Core) (a : α) (k' : Core) : Prop :=
  Ends x k (fun b j => b = a ∧ j = k') fun _ _ => False

namespace Does

/-- a step with one outcome, and others after it -/
theorem andThen (hx : Does x k a k') (hf : Ends (f a) k' R E) : Ends (x >>= f) k R E :=
  Ends.bind (Ends.mono hx (fun _ _ h => h) fun _ _ h => h.elim) fun _ _ h => by
    obtain ⟨rfl, rfl⟩ := h
    exact hf

theorem bind (hx : Does x k a k') (hf : Does (f a) k' b k'') : Does (x >>= f) k b k'' :=
  hx.andThen hf

theorem value (a : α) (k : Core) : Does (pure a) k a k := Ends.value ⟨rfl, rfl⟩

theorem change {g : Constructor → Constructor} (h : ∀ c, c.core = k → (g c).core = k') :
    Does (modify g) k () k' := Ends.change fun c hc => ⟨rfl, h c hc⟩

/-- a change outside the core -/
theorem quiet {g : Constructor → Constructor} (h : ∀ c, (g c).core = c.core) (k : Core) :
    Does (modify g) k () k := change fun c hc => (h c).trans hc

theorem ask {f : Constructor → Step α} (h : ∀ c, c.core = k → Does (f c) k a k') :
    Does (get >>= f) k a k' := Ends.ask h

end Does

/-! ## rules -/

/-- the failures that construction reports: input that it has no rules for, and parse errors where
the first one is a failure -/
def Failure.Expected (token : Token) (k : Core) : Failure → Prop
  | .unsupportedInput mode t => mode = k.mode ∧ token.Stands t
  | .parse _ => k.options.strict = true
  | .structural _ => False
  | .invariantViolation _ => False

/-- the step makes moves that the token may cause; it succeeds with `Q` or fails as expected -/
def Leads (byBody : Bool) (token : Token) (x : Step α) (k : Core) (Q : α → Core → Prop) : Prop :=
  Ends x k (fun a k' => Moves byBody token k k' ∧ Q a k') fun e k' =>
    Moves byBody token k k' ∧ e.Expected token k'

/-- the step succeeds with `Q`, or fails as expected after moves that are not for the rules of the
body alone -/
def Tries (token : Token) (x : Step α) (k : Core) (Q : α → Core → Prop) : Prop :=
  Ends x k Q fun e k' => Moves false token k k' ∧ e.Expected token k'

namespace Leads

theorem mono {Q' : α → Core → Prop} (h : Leads byBody token x k Q)
    (hq : ∀ a k', Moves byBody token k k' → Q a k' → Q' a k') : Leads byBody token x k Q' :=
  Ends.mono h (fun a k' ⟨hm, hqa⟩ => ⟨hm, hq a k' hm hqa⟩) fun _ _ he => he

/-- what the step leaves does not matter -/
theorem forget (h : Leads byBody token x k Q) : Leads byBody token x k fun _ _ => True :=
  h.mono fun _ _ _ _ => trivial

theorem value (h : Q a k) : Leads byBody token (pure a) k Q := Ends.value ⟨.refl _, h⟩

theorem bind (hx : Leads byBody token x k Q)
    (hf : ∀ a k', Moves byBody token k k' → Q a k' → Leads byBody token (f a) k' R) :
    Leads byBody token (x >>= f) k R :=
  Ends.bind hx (E := fun e k' => Moves byBody token k k' ∧ e.Expected token k') fun a k' ⟨hm, hq⟩ =>
    Ends.mono (hf a k' hm hq) (fun _ _ ⟨hm', hr⟩ => ⟨hm.trans hm', hr⟩)
      fun _ _ ⟨hm', he⟩ => ⟨hm.trans hm', he⟩

/-- a step that only tries, where its success is a move -/
theorem ofTries {P : α → Core → Prop} (h : Tries token x k P)
    (hp : ∀ a k', P a k' → Moves byBody token k k' ∧ Q a k') : Leads byBody token x k Q :=
  Ends.mono h hp fun _ _ he => ⟨he.1.ofPlain, he.2⟩

theorem ask {f : Constructor → Step α} (h : ∀ c, c.core = k → Leads byBody token (f c) k Q) :
    Leads byBody token (get >>= f) k Q := Ends.ask h

/-- a step with one outcome that is a move -/
theorem doing (hx : Does x k a k') (hm : Moves byBody token k k') (hq : Q a k') :
    Leads byBody token x k Q :=
  Ends.mono hx (fun _ _ h => by
    obtain ⟨rfl, rfl⟩ := h
    exact ⟨hm, hq⟩) fun _ _ h => h.elim

/-- such a step with others after it -/
theorem doThen (hx : Does x k a k') (hm : Moves byBody token k k')
    (hf : Leads byBody token (f a) k' R) : Leads byBody token (x >>= f) k R :=
  (doing hx hm (Q := fun b j => b = a ∧ j = k') ⟨rfl, rfl⟩).bind fun _ _ _ h => by
    obtain ⟨rfl, rfl⟩ := h
    exact hf

theorem ite {p : Prop} [Decidable p] {y : Step α} (hx : p → Leads byBody token x k Q)
    (hy : ¬p → Leads byBody token y k Q) : Leads byBody token (if p then x else y) k Q := by
  split
  · exact hx ‹_›
  · exact hy ‹_›

theorem finished {x : Step Unit} {Q : Unit → Core → Prop} (h : Leads byBody token x k Q) :
    Leads byBody token (finished x) k fun v k' => v = .done ∧ Q () k' :=
  h.bind fun _ _ _ hq => value ⟨rfl, hq⟩

/-! ### runs -/

/-- moves are made whether the step fails or not -/
theorem moves {c : Constructor} (h : Leads byBody token x c.core Q) :
    Moves byBody token c.core (x.run c).2.core := by
  have hrun := h c rfl
  rcases hr : x.run c with ⟨_ | _, d⟩ <;> rw [hr] at hrun <;> exact hrun.1

theorem answer {c d : Constructor} (h : Leads byBody token x c.core Q)
    (hr : x.run c = (.ok a, d)) : Q a d.core := by
  have hrun := h c rfl
  rw [hr] at hrun
  exact hrun.2

/-! ### reports -/

theorem parseError {Q : Unit → Core → Prop} (kind : ParseErrorKind) (h : Q () k) :
    Leads byBody token (parseError kind) k Q :=
  Ends.parseError kind ⟨.refl _, h⟩ fun _ hs => ⟨.refl _, hs⟩

theorem parseErrorThen {f : Unit → Step β} (kind : ParseErrorKind)
    (hf : Leads byBody token (f ()) k R) :
    Leads byBody token (HtmlTree.parseError kind >>= f) k R :=
  Ends.parseErrorThen kind hf fun _ hs => ⟨.refl _, hs⟩

theorem unsupported : Leads byBody token (unsupported token : Step α) k Q := by
  rintro c rfl
  exact ⟨.refl _, rfl, Or.inl rfl⟩

/-- a parse error under a condition -/
theorem complain {p : Prop} [Decidable p] {Q : Unit → Core → Prop} (kind : ParseErrorKind)
    (h : Q () k) : Leads byBody token (if p then HtmlTree.parseError kind else pure ()) k Q :=
  ite (fun _ => parseError kind h) fun _ => value h

/-- a parse error under a condition, with others after it -/
theorem complainThen {p : Prop} [Decidable p] {y : Step β} (kind : ParseErrorKind)
    (h : Leads byBody token y k R) :
    Leads byBody token (if p then HtmlTree.parseError kind >>= fun _ => y else y) k R :=
  ite (fun _ => parseErrorThen kind h) fun _ => h

theorem expectCurrent {Q : Unit → Core → Prop} (names : List String) (kind : ParseErrorKind)
    (h : Q () k) : Leads byBody token (expectCurrent names kind) k Q :=
  ask fun _ _ => complain kind h

end Leads

namespace Tries

theorem mono {Q' : α → Core → Prop} (h : Tries token x k Q)
    (hq : ∀ a k', Q a k' → Q' a k') : Tries token x k Q' :=
  Ends.mono h hq fun _ _ he => he

theorem ofLeads (h : Leads false token x k Q) : Tries token x k Q :=
  Ends.mono h (fun _ _ hq => hq.2) fun _ _ he => he

theorem ask {f : Constructor → Step α} (h : ∀ c, c.core = k → Tries token (f c) k Q) :
    Tries token (get >>= f) k Q := Ends.ask h

theorem ite {p : Prop} [Decidable p] {y : Step α} (hx : p → Tries token x k Q)
    (hy : ¬p → Tries token y k Q) : Tries token (if p then x else y) k Q := by
  split
  · exact hx ‹_›
  · exact hy ‹_›

/-- a step with one outcome, which is a move of any rules, with others after it -/
theorem doThen (hx : Does x k a k') (hm : Move false token k k') (hf : Tries token (f a) k' R) :
    Tries token (x >>= f) k R :=
  hx.andThen <| Ends.mono hf (fun _ _ h => h) fun _ _ he => ⟨.trans (.one hm) he.1, he.2⟩

/-- a last step with one outcome -/
theorem last (hx : Leads false token x k Q) (hf : ∀ a k', Q a k' → Does (f a) k' b k'') :
    Tries token (x >>= f) k fun c j => c = b ∧ j = k'' :=
  Ends.bind (Ends.mono hx (fun _ _ h => h.2) fun _ _ he => he) fun a j hj =>
    Ends.mono (hf a j hj) (fun _ _ h => h) fun _ _ h => h.elim

end Tries

/-! ## basic steps -/

/-- a core in a grown document with this element as its current node -/
structure Core.At (k : Core) (place : NodeId) : Prop where
  grown : k.tree.Grown
  current : k.entries.head? = some place
  element : (k.tree.label? place).isSome = true

theorem Core.Sound.at (hs : k.Sound) {place : NodeId} (h : k.entries.head? = some place) :
    k.At place :=
  ⟨hs.bears.grown, h, hs.current h⟩

theorem Tree.accepts_of_label? {t : Tree} {place : NodeId} {d : NodeData}
    (h : (t.label? place).isSome = true) (hd : d.isContent = true) : t.Accepts place d :=
  Or.inl ⟨(t.element?_isSome place).trans h, hd⟩

namespace Does
variable {place id : NodeId}

theorem switchTo (m : Mode) (k : Core) : Does (switchTo m) k () { k with mode := m } :=
  change <| by
    rintro c rfl
    rfl

theorem framesetNotOk (k : Core) : Does framesetNotOk k () k := quiet (fun _ => rfl) k

theorem useSelfClosing (k : Core) : Does useSelfClosing k () k := quiet (fun _ => rfl) k

theorem requestState (state : TokenizerState) (k : Core) : Does (requestState state) k () k :=
  quiet (fun _ => rfl) k

theorem skipNextLineFeed (k : Core) : Does skipNextLineFeed k () k := quiet (fun _ => rfl) k

theorem enterText (state : TokenizerState) (k : Core) : Does (enterText state) k () k.forText :=
  change <| by
    rintro c rfl
    rfl

theorem stopParsing (k : Core) :
    Does stopParsing k () { k with entries := [], stopped := true } :=
  change <| by
    rintro c rfl
    rfl

theorem pushElement (id : NodeId) (k : Core) :
    Does (pushElement id) k () { k with entries := id :: k.entries } :=
  change <| by
    rintro c rfl
    rfl

theorem popElement (k : Core) : Does popElement k () { k with entries := k.entries.tail } :=
  change <| by
    rintro c rfl
    rfl

theorem currentNode (h : k.entries.head? = some id) : Does currentNode k id k := by
  refine ask fun c hc => ?_
  have hid : c.openElements.current? = some id := by
    rw [← hc] at h
    exact h
  rw [hid]
  exact value id k

/-- **No append is refused** at a place that accepts the node. -/
theorem appendNew {d : NodeData} (hg : k.tree.Grown) (h : k.tree.Accepts place d) :
    Does (appendNew place d) k ⟨k.tree.size⟩ (k.append place d) := by
  rintro c rfl
  have happ : (c.tree.alloc d).2.appendChild place ⟨c.tree.size⟩ =
      (.ok ⟨c.tree.size⟩, c.tree.attach place d) := Tree.appendChild_alloc hg h
  rw [appendNew_run]
  dsimp only
  rw [happ]
  exact ⟨rfl, rfl⟩

theorem insertElement (e : Element) (h : k.At place) :
    Does (insertElement e) k ⟨k.tree.size⟩ (k.opened place e) :=
  (currentNode h.current).bind <|
    (appendNew h.grown (Tree.accepts_of_label? h.element rfl)).bind <|
      (pushElement _ _).bind (value _ _)

theorem insertHtml (tag : StartTag) (h : k.At place) :
    Does (insertHtml tag) k ⟨k.tree.size⟩ (k.opened place (.ofTag tag.name tag.attributes .html)) :=
  insertElement _ h

theorem insertImplied (name : String) (h : k.At place) :
    Does (insertImplied name) k ⟨k.tree.size⟩ (k.opened place (.bare name .html)) :=
  insertElement _ h

theorem insertVoid (tag : StartTag) (h : k.At place) :
    Does (insertVoid tag) k () (k.append place (.element (.ofTag tag.name tag.attributes .html))) :=
  (insertHtml tag h).bind <| (popElement _).bind (useSelfClosing _)

theorem insertTextOnly (tag : StartTag) (state : TokenizerState) (h : k.At place) :
    Does (insertTextOnly tag state) k ()
      (k.opened place (.ofTag tag.name tag.attributes .html)).forText :=
  (insertHtml tag h).bind (enterText state _)

theorem insertCommentIn (data : String) (hg : k.tree.Grown)
    (h : k.tree.Accepts place (.comment ⟨data⟩)) :
    Does (insertCommentIn place data) k () (k.append place (.comment ⟨data⟩)) :=
  (appendNew hg h).bind (value _ _)

theorem mergeAttributes (given : List TagAttribute) (k : Core) :
    Does (mergeAttributes id given) k () { k with tree := k.tree.modifyData id (.merge given) } :=
  change <| by
    rintro c rfl
    rfl

end Does

namespace Leads

/-- a character goes into the current node -/
theorem insertText (ch : Char) {place : NodeId} {Q : Unit → Core → Prop}
    (ht : token.isCharacter = true) (hch : k.TakesText ch) (h : k.At place)
    (hq : ∀ t, Q () { k with tree := t }) : Leads byBody token (insertText ch) k Q := by
  refine doThen (.currentNode h.current) (.refl _) (ask fun c hc => ite (fun _ => ?_) fun _ => ?_)
  · exact value (hq k.tree)
  · subst hc
    split
    · rename_i last hl
      obtain ⟨hlast, hkind⟩ := Option.filter_eq_some_iff.mp hl
      refine doing (Does.change fun c' hc' => ?_) (.one (.lengthen ch ht h.current hlast hkind hch))
        (hq _)
      rw [← hc']
      rfl
    · rename_i hl
      have haccepts := Tree.accepts_of_label? (d := .text ⟨String.singleton ch⟩) h.element rfl
      have hlast : ∀ id ∈ c.tree.lastChild? place, c.tree.isKind .text id = false :=
        fun id hid => Bool.eq_false_iff.mpr (Option.filter_eq_none_iff.mp hl id hid)
      exact doThen (Does.appendNew h.grown haccepts) (.one (.text ch ht h.current hch hlast))
        (value (hq _))

end Leads

/-! ## verdicts -/

/-- where the step asks for a token to be processed anew, `P` holds of the token and the core -/
def Anew (P : Token → Core → Prop) (x : Step Verdict) (k : Core) : Prop :=
  Ends x k (fun v k' => ∀ t, v = .reprocess t → P t k') fun _ _ => True

namespace Anew
variable {P : Token → Core → Prop} {x y : Step Verdict}

theorem done : Anew P (pure .done) k := Ends.value fun _ h => Verdict.noConfusion h

theorem again {t : Token} (h : P t k) : Anew P (pure (.reprocess t)) k := Ends.value fun _ ht => by
  cases ht
  exact h

theorem bind {x : Step α} {f : α → Step Verdict} (hx : Ends x k Q fun _ _ => True)
    (hf : ∀ a j, Q a j → Anew P (f a) j) : Anew P (x >>= f) k := Ends.bind hx hf

/-- only the last step matters -/
theorem last {x : Step α} {f : α → Step Verdict} (hf : ∀ a j, Anew P (f a) j) :
    Anew P (x >>= f) k := bind (Ends.any x k) fun a j _ => hf a j

theorem finished (x : Step Unit) : Anew P (finished x) k := last fun _ _ => done

theorem unsupported (t : Token) : Anew P (HtmlTree.unsupported t) k := fun _ _ => trivial

theorem ite {p : Prop} [Decidable p] (hx : Anew P x k) (hy : Anew P y k) :
    Anew P (if p then x else y) k := by
  split
  · exact hx
  · exact hy

theorem ask {f : Constructor → Step Verdict} (h : ∀ c, c.core = k → Anew P (f c) k) :
    Anew P (get >>= f) k := Ends.ask h

theorem parseErrorThen {f : Unit → Step Verdict} (kind : ParseErrorKind)
    (hf : Anew P (f ()) k) : Anew P (parseError kind >>= f) k :=
  Ends.parseErrorThen kind hf fun _ _ => trivial

/-- a step with one outcome that asks for a token anew -/
theorem doing {t : Token} (hx : Does x k (.reprocess t) k') (h : P t k') : Anew P x k :=
  Ends.mono hx (fun _ _ hv u hu => by
    obtain ⟨rfl, rfl⟩ := hv
    cases hu
    exact h) fun _ _ h => h.elim

end Anew

/-- the rounds that a token needs at most when it comes in this mode, if it is not held up in the
body -/
def Mode.rounds : Mode → Nat
  | initial => 6
  | beforeHtml | text => 5
  | beforeHead | inHeadNoscript => 4
  | inHead => 3
  | afterHead | afterBody | afterAfterBody => 2
  | _ => 1

/-- tokens that the rules of the body process anew -/
def Token.lingers : Token → Bool
  | .startTag tag => tag.name == "image"
  | .endTag name => name == "html"
  | _ => false

/-- the rounds that a token needs at most; the end of the document ends after the body -/
def roundsOf (m : Mode) (token : Token) : Nat :=
  if m = .afterBody ∧ token = .endTag "html" then 1 else m.rounds + token.lingers.toNat

/-- nothing is left to be done, or less than before -/
def Settled (token : Token) (k : Core) : Verdict → Core → Prop
  | .done, _ => True
  | .reprocess t, k' =>
    token.Stands t ∧ k'.stopped = false ∧ roundsOf k'.mode t < roundsOf k.mode token

theorem roundsOf_le (m : Mode) (token : Token) :
    roundsOf m token ≤ m.rounds + token.lingers.toNat := by
  have hpos : 1 ≤ m.rounds := by cases m <;> decide
  unfold roundsOf
  split <;> omega

theorem roundsOf_pos (m : Mode) (token : Token) : 0 < roundsOf m token := by
  have hpos : 1 ≤ m.rounds := by cases m <;> decide
  unfold roundsOf
  split <;> omega

theorem roundsOf_le_maxRounds (m : Mode) (token : Token) : roundsOf m token ≤ maxRounds := by
  have hm : m.rounds ≤ 6 := by cases m <;> decide
  have hl := Bool.toNat_le token.lingers
  have h := roundsOf_le m token
  unfold maxRounds
  omega

theorem roundsOf_lt {m m' : Mode} (hm : m ≠ .afterBody) (h : m'.rounds < m.rounds)
    (token : Token) : roundsOf m' token < roundsOf m token := by
  have hle := roundsOf_le m' token
  rw [show roundsOf m token = m.rounds + token.lingers.toNat from if_neg fun he => hm he.1]
  omega

/-- the same token in a mode that needs fewer rounds -/
theorem settled_reprocess (m m' : Mode) (hm : m ≠ .afterBody) (h : m'.rounds < m.rounds)
    (hk : k.mode = m) (hk' : k'.mode = m') (hs : k'.stopped = false) :
    Settled token k (.reprocess token) k' :=
  ⟨Or.inl rfl, hs, by rw [hk, hk']; exact roundsOf_lt hm h token⟩

theorem Leads.settled {x : Step Unit} {Q : Unit → Core → Prop} (h : Leads byBody token x k Q) :
    Leads byBody token (HtmlTree.finished x) k (Settled token k) :=
  h.finished.mono fun v _ _ hv => by
    rw [hv.1]
    trivial

theorem Leads.parseError_settled (kind : ParseErrorKind) :
    Leads byBody token (HtmlTree.finished (HtmlTree.parseError kind)) k (Settled token k) :=
  (Leads.parseError kind (Q := fun _ _ => True) trivial).settled

/-- a sound core in this mode, with tokens still to come -/
structure Core.In (k : Core) (m : Mode) : Prop where
  sound : k.Sound
  mode : k.mode = m
  active : k.stopped = false

theorem Core.In.isBody {m : Mode} (h : k.In m) (hm : m.isBody = true) : k.mode.isBody = true := by
  rw [h.mode, hm]

/-- text goes anywhere from the body on -/
theorem Core.In.takesText {m : Mode} (h : k.In m) (hm : m.isBody = true) (ch : Char) :
    k.TakesText ch := Or.inr (Or.inl (h.isBody hm))

theorem Core.In.fits {m : Mode} (h : k.In m) :
    k.tree.Fits k.entries m k.originalMode k.head := by
  have hf := h.sound.fits h.active
  rw [h.mode] at hf
  exact hf

theorem Core.In.stack {m : Mode} (h : k.In m) (hm : m ≠ .text) : k.tree.StackOf k.entries m :=
  h.fits.stack hm

end HtmlTree
