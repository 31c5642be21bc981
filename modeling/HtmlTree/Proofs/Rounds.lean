import HtmlTree.Proofs.ForeignRules

/-!
# The rounds of a token

Text-only elements and the end of the document are the last modes.  With them every mode has its
rules, and a round of a token makes moves and settles the token or leaves less to be done.  So the
rounds that a token may take are enough, whatever the state.

* `textRules_leads`, `afterBodyRules_leads`, `afterAfterBodyRules_leads`;
* `modeRules_leads`, `dispatch_leads`   the rules of every mode, and one round;
* `processWithin_leads`   all rounds;
* `Ends.processToken`, `Ends.process`   what is left of a token where something is left of its rounds;
* `process_leads`   a token and what is done before and after it.
-/

namespace HtmlTree

variable {k k' : Core} {byBody : Bool} {token t : Token} {m : Mode} {α : Type} {x : Step α}
  {Q : α → Core → Prop}

/-! ## text -/

/-- the mode that is returned to begins before the body or in it -/
theorem Mode.rounds_of_hostsText (h : m.hostsText = true) : m.rounds < Mode.text.rounds := by
  cases m <;> cases h <;> decide

theorem leaveText_does (ho : k.originalMode = some m) :
    Does leaveText k () { k with entries := k.entries.tail, originalMode := none, mode := m } := by
  refine (Does.popElement k).bind (.ask fun c hc => ?_)
  rw [show c.originalMode = some m from (congrArg Core.originalMode hc).trans ho]
  refine .change fun d hd => ?_
  exact congrArg (fun j : Core => { j with originalMode := none, mode := m }) hd

/-- a text-only element is closed and there is a mode to return to -/
theorem leaveText_leads (h : k.In .text) :
    Leads byBody token leaveText k fun _ k' => k'.mode.hostsText = true ∧ k'.stopped = false := by
  obtain ⟨id, outside, m, he, ho, hm, _, _⟩ := h.fits.text rfl
  exact .doing (leaveText_does ho) (.one (.leaveText h.mode ho hm)) ⟨hm, h.active⟩

theorem endTextInput_leads (h : k.In .text) :
    Leads byBody .endOfFile endTextInput k (Settled .endOfFile k) := by
  refine .parseErrorThen _ ((leaveText_leads h).bind fun _ j _ hj => .value ?_)
  exact settled_reprocess .text j.mode (by decide) (Mode.rounds_of_hostsText hj.1) h.mode rfl hj.2

theorem textRules_leads (h : k.In .text) :
    Leads byBody token (textRules token) k (Settled token k) := by
  obtain ⟨place, hp⟩ := h.exists_at (by decide) (by decide)
  cases token with
  | character ch =>
    have htext : k.TakesText ch := Or.inl h.mode
    exact Leads.settled (Q := fun _ _ => True) (.insertText ch rfl htext hp fun _ => trivial)
  | endOfFile => exact endTextInput_leads h
  | endTag name => exact (leaveText_leads h).settled
  | startTag tag => exact .unsupported
  | comment data => exact .unsupported
  | doctype d => exact .unsupported

/-! ## after the body -/

theorem backToBody_leads (h : k.In m) (hm : m.isBody = true)
    (hlt : roundsOf .inBody token < roundsOf m token) :
    Leads byBody token (backToBody token) k (Settled token k) := by
  refine .parseErrorThen _ (.doThen (.switchTo .inBody k) (.one (.goto ?_ rfl)) (.value ?_))
  · rw [h.mode, hm]
  · refine ⟨Or.inl rfl, h.active, ?_⟩
    rw [h.mode]
    exact hlt

/-- there is a document element for a comment after the body -/
theorem lateComment_leads {data : String} (h : k.In .afterBody) :
    Leads byBody (.comment data) (lateComment data) k fun _ _ => True := by
  refine .ask fun c hc => ?_
  subst hc
  split
  · exact insertCommentIn_leads h (by decide) (Or.inr (Or.inl ⟨h.mode, ‹_›⟩))
  · rename_i hnone
    have hnil : c.core.entries = [] := List.getLast?_eq_none_iff.mp hnone
    exact absurd hnil (h.body rfl).ne_nil

theorem afterBodyRules_leads (h : k.In .afterBody) :
    Leads byBody token (afterBodyRules token) k (Settled token k) := by
  obtain ⟨place, hp⟩ := h.exists_at (by decide) (by decide)
  have hback : token ≠ .endTag "html" →
      Leads byBody token (backToBody token) k (Settled token k) := fun hne => by
    have hle := roundsOf_le .inBody token
    refine backToBody_leads h rfl ?_
    rw [show roundsOf .afterBody token = 2 + token.lingers.toNat from if_neg fun he => hne he.2]
    exact Nat.lt_of_le_of_lt hle (Nat.add_lt_add_right (by decide) _)
  unfold afterBodyRules
  split
  · refine .ite (fun _ => ?_) fun _ => hback Token.noConfusion
    refine Leads.settled (Q := fun _ _ => True) ?_
    exact .insertText _ rfl (h.takesText rfl _) hp fun _ => trivial
  · exact (lateComment_leads h).settled
  · exact .parseError_settled _
  · refine .ite (fun hn => ?_) fun _ => hback Token.noConfusion
    exact (repeatedHtml_leads h (by decide) hn).settled
  · refine .ite (fun _ => ?_) fun hne => hback fun he => hne (by cases he; rfl)
    refine Leads.settled (Q := fun _ _ => True) (.doing (.switchTo _ k) (.one ?_) trivial)
    exact .goto (h.isBody rfl) rfl
  · exact (stopParsing_leads (h.isBody rfl)).settled

theorem afterAfterBodyRules_leads (h : k.In .afterAfterBody) :
    Leads byBody token (afterAfterBodyRules token) k (Settled token k) := by
  obtain ⟨place, hp⟩ := h.exists_at (by decide) (by decide)
  have hback : Leads byBody token (backToBody token) k (Settled token k) :=
    backToBody_leads h rfl (roundsOf_lt (by decide) (by decide) token)
  unfold afterAfterBodyRules
  split
  · refine .ite (fun _ => ?_) fun _ => hback
    refine Leads.settled (Q := fun _ _ => True) ?_
    exact .insertText _ rfl (h.takesText rfl _) hp fun _ => trivial
  · exact (insertCommentIn_leads h (by decide) (Or.inr (Or.inr ⟨Or.inr (Or.inr h.mode), rfl⟩))).settled
  · exact .parseError_settled _
  · exact .ite (fun hn => (repeatedHtml_leads h (by decide) hn).settled) fun _ => hback
  · exact hback
  · exact (stopParsing_leads (h.isBody rfl)).settled

/-! ## one round -/

/-- **What the rules of a mode lead to.**  The modes without rules are never come to. -/
theorem modeRules_leads (hm : k.Meets m token) (hb : m = .inBody → byBody = true) :
    Leads byBody token (modeRules m token) k (Settled token k) := by
  have h := hm.toIn
  cases m with
  | initial => exact initialRules_leads h
  | beforeHtml => exact beforeHtmlRules_leads h
  | beforeHead => exact beforeHeadRules_leads h
  | inHead => exact inHeadRules_leads h
  | inHeadNoscript => exact inHeadNoscriptRules_leads h
  | afterHead => exact afterHeadRules_leads h
  | inBody =>
    rw [hb rfl]
    exact inBodyRules_leads hm
  | text => exact textRules_leads h
  | afterBody => exact afterBodyRules_leads h
  | afterAfterBody => exact afterAfterBodyRules_leads h
  | _ => exact (h.stack (by decide)).elim

theorem currentModeRules_leads (h : k.Meets m token) (hb : m = .inBody → byBody = true) :
    Leads byBody token (currentModeRules token) k (Settled token k) :=
  Ends.ofMode h.mode (modeRules_leads h hb)

theorem dispatch_leads (h : k.In m) :
    Leads true token (dispatch token) k (Settled token k) := by
  refine (foreignStage_leads h).bind fun v j _ hj => ?_
  cases v with
  | done => exact .value trivial
  | toMode =>
    have hin := hj rfl
    refine (currentModeRules_leads hin fun _ => rfl).mono fun v j' _ hv => ?_
    cases v with
    | done => trivial
    | reprocess t =>
      rw [Settled, hin.mode, ← h.mode] at hv
      exact hv

/-! ## all rounds -/

theorem Leads.stands (h : token.Stands t) (hx : Leads byBody t x k Q) :
    Leads byBody token x k Q := by
  have hmoves : ∀ j, Moves byBody t k j → Moves byBody token k j := fun j =>
    Relation.ReflTransGen.mono (fun _ _ => Move.stands id h) k j
  refine Ends.mono hx (fun _ _ hq => ⟨hmoves _ hq.1, hq.2⟩) fun e j he => ⟨hmoves j he.1, ?_⟩
  cases e with
  | unsupportedInput mode u => exact ⟨he.2.1, h.trans he.2.2⟩
  | parse => exact he.2
  | _ => exact he.2.elim

/-- **The rounds of a token are never used up**, and it fails only as expected. -/
theorem processWithin_leads (n : Nat) (h : k.In m) (hn : roundsOf m token ≤ n) :
    Leads true token (processWithin n token) k fun _ _ => True := by
  induction n generalizing k m token with
  | zero => exact absurd hn (Nat.not_le.mpr (roundsOf_pos m token))
  | succ n ih =>
    refine (dispatch_leads h).bind fun v j hm hv => ?_
    cases v with
    | done => exact .value trivial
    | reprocess t =>
      obtain ⟨hst, hstop, hlt⟩ := hv
      rw [h.mode] at hlt
      refine .stands hst (ih ⟨hm.sound h.sound, rfl, hstop⟩ ?_)
      omega

theorem checkSelfClosing_core (token : Token) (c : Constructor) :
    ((checkSelfClosing token).run c).2.core = c.core := by
  rw [checkSelfClosing_run]
  split
  · rw [parseError_run]
    rfl
  · rfl

theorem processToken_leads (h : k.In m) :
    Leads true token (processToken token) k fun _ _ => True :=
  (processWithin_leads maxRounds h (roundsOf_le_maxRounds m token)).bind fun _ _ _ _ =>
    .ask fun _ _ => .complain _ trivial

/-! ## before and after the rounds -/

/-- what the rounds leave is left by the token, which may still fail for its self-closing flag -/
theorem Ends.processToken {P : Core → Prop} {E : Failure → Core → Prop}
    (h : Ends (processWithin maxRounds token) k (fun _ j => P j) E)
    (he : ∀ p j, P j → E (.parse p) j) :
    Ends (HtmlTree.processToken token) k (fun _ j => P j) E := by
  refine .bind h fun _ j hj => .ask fun _ _ => ?_
  split
  · exact .parseError _ hj fun p _ => he p j hj
  · exact .value hj

/-- a token without the flag, of one round -/
theorem Does.processToken (ht : token.isSelfClosingStartTag = false)
    (hx : Does (dispatch token) k .done k') : Does (HtmlTree.processToken token) k () k' := by
  refine Does.bind (Does.bind hx (.value () k')) (.ask fun c _ => ?_)
  rw [ht]
  exact .value () k'

/-- a token that is not passed over -/
theorem Ends.process {c : Constructor} {Q : Unit → Core → Prop} {E : Failure → Core → Prop}
    (h : Ends (HtmlTree.processToken token) c.core Q E) (hs : c.skips token = false) :
    match (c.process token).1 with
    | .ok a => Q a (c.process token).2.core
    | .error e => E e (c.process token).2.core := by
  have hrun := h (c.begun token) rfl
  rw [Constructor.process_of_not_skips hs]
  rcases hr : (HtmlTree.processToken token).run (c.begun token) with ⟨_ | _, d⟩ <;>
    rw [hr] at hrun <;> exact hrun

theorem Does.process {c : Constructor} (h : Does (HtmlTree.processToken token) c.core () k')
    (hs : c.skips token = false) :
    (c.process token).1 = .ok () ∧ (c.process token).2.core = k' := by
  have hrun := Ends.process h hs
  cases hr : (c.process token).1 <;> rw [hr] at hrun
  · exact hrun.elim
  · exact ⟨rfl, hrun.2⟩

namespace Constructor

/-- **What becomes of a token**, whether it fails or not. -/
theorem process_leads {c : Constructor} (h : c.core.In m) (token : Token) :
    Moves true token c.core (c.process token).2.core ∧
      ∀ e, (c.process token).1 = .error e → e.Expected token (c.process token).2.core := by
  cases hs : c.skips token with
  | true =>
    rw [process_of_skips hs]
    exact ⟨.refl _, fun e he => nomatch he⟩
  | false =>
    have hleads : Leads true token (processToken token) c.core _ := processToken_leads h
    have hrun := Ends.process hleads hs
    cases hr : (c.process token).1 <;> rw [hr] at hrun
    · refine ⟨hrun.1, fun e he => ?_⟩
      cases he
      exact hrun.2
    · exact ⟨hrun.1, fun e he => nomatch he⟩

end Constructor

end HtmlTree
