import HtmlTree.Proofs.Refusals

/-!
# The line feed that is passed over

Behind the start tags of preformatted text and of text areas a line feed is passed over.  Only the
rules of the body ask for it, as the last thing that they do, so the next token comes in the body or
in text.

* `Written.skipLineFeed`     the rules that do not ask for it;
* `Asked`                    a round that asks for it has dealt with its token;
* `process_skipLineFeed`     **where it is asked for**, `after_feedsAfterTag` in a session.
-/

namespace HtmlTree

variable {α : Type} {x : Step α} {k : Core} {c d : Constructor} {token : Token} {tag : StartTag}
  {m : Mode} {r : Bool}

theorem Written.skipLineFeed (h : Written token r false x) (c : Constructor) :
    (x.run c).2.skipLineFeed = c.skipLineFeed :=
  h.rel (R := fun c d => d.skipLineFeed = c.skipLineFeed) (fun _ => rfl)
    (fun hab hbc => hbc.trans hab) (fun hg c => hg.skipLineFeed c)
    (fun hs => absurd hs Bool.noConfusion)
    (fun _ _ _ _ => by rw [appendNew_run]) (fun _ _ _ => rfl) (fun _ _ => rfl) c

theorem checkSelfClosing_skipLineFeed (token : Token) (c : Constructor) :
    ((checkSelfClosing token).run c).2.skipLineFeed = c.skipLineFeed := by
  rw [checkSelfClosing_run]
  split
  · rw [parseError_run]
    rfl
  · rfl

/-- the tags that ask for it -/
theorem Token.name_of_skipsLineFeed (h : token.skipsLineFeed = true) :
    ∃ tag, token = .startTag tag ∧ tag.name ∈ ["pre", "listing", "textarea"] := by
  cases token with
  | startTag tag =>
    refine ⟨tag, rfl, ?_⟩
    rcases skipsLineFeed_startTag.mp h with hr | hr
    · exact mem_of_rule _ hr (by decide) (by decide)
    · exact mem_of_rule _ hr (by decide) (by decide)
  | _ => cases h

/-- where a token comes for which a line feed may have to be passed over -/
def Mode.followsTag (m : Mode) : Prop := m = .inBody ∨ m = .text

/-! ## the rules that ask for it -/

theorem insertHtml_mode (tag : StartTag) (k : Core) :
    Ends (insertHtml tag) k (fun _ j => j.mode = k.mode) fun _ _ => True := by
  have hcurrent : Ends currentNode k (fun _ j => j = k) fun _ _ => True := by
    refine Ends.ask fun c _ => ?_
    split
    · exact Ends.value rfl
    · exact fun _ _ => trivial
  refine Ends.bind hcurrent ?_
  rintro place k rfl
  have happend : Ends (appendNew place (.element (.ofTag tag.name tag.attributes .html))) k
      (fun _ j => j.mode = k.mode) fun _ _ => True := by
    rintro c rfl
    rw [appendNew_run]
    dsimp only
    rcases (c.tree.alloc _).2.appendChild place ⟨c.tree.size⟩ with ⟨_ | _, _⟩ <;>
      first | rfl | trivial
  refine Ends.bind happend fun id j hj => ?_
  refine Ends.bind (P := fun _ i => i.mode = k.mode) (Ends.change fun c hc => ?_)
    fun _ _ hi => Ends.value hi
  exact (congrArg Core.mode hc).trans hj

theorem startBlock_mode (tag : StartTag) (k : Core) :
    Ends (startBlock tag) k (fun _ j => j.mode = k.mode) fun _ _ => True := by
  have hclose : Closes (.startTag tag) (closeOpenParagraph (.startTag tag)) k :=
    .closeOpenParagraph k
  refine Ends.bind (Ends.mono hclose (fun _ _ hj => hj.mode) fun _ _ _ => trivial) fun _ j hj => ?_
  refine Ends.bind (insertHtml_mode tag j) fun _ i hi => Ends.value ?_
  exact hi.trans hj

theorem insertTextOnly_mode (tag : StartTag) (state : TokenizerState) (k : Core) :
    Ends (insertTextOnly tag state) k (fun _ j => j.mode = .text) fun _ _ => True :=
  Ends.bind (Ends.any _ k) fun _ _ _ => Ends.change fun _ _ => rfl

/-- after a round the line feed is to be passed over if it was before, or else the token is one that
asks for it, and the round has dealt with it and left a mode in which the next one follows a tag -/
def Asked (token : Token) (c : Constructor) (r : Except Failure Verdict × Constructor) : Prop :=
  r.2.skipLineFeed = true → c.skipLineFeed = true ∨
    token.skipsLineFeed = true ∧ r.1 = .ok .done ∧ r.2.mode.followsTag

theorem Asked.same {r : Except Failure Verdict × Constructor}
    (h : r.2.skipLineFeed = c.skipLineFeed) : Asked token c r := fun hr => Or.inl (h.symm.trans hr)

theorem asked_of_last {x : Step Unit} (hs : token.skipsLineFeed = true)
    (hw : Written token r false x)
    (hm : Ends x c.core (fun _ j => j.mode.followsTag) fun _ _ => True) :
    Asked token c ((finished (do
      x
      skipNextLineFeed
      framesetNotOk)).run c) := by
  have hflag := hw.skipLineFeed c
  have hmode := hm c rfl
  unfold finished
  rcases hr : x.run c with ⟨e | _, d⟩ <;> rw [hr] at hflag hmode
  · rw [Step.run_bind_error (Step.run_bind_error hr)]
    exact .same hflag
  · have hlast : (do
        x
        skipNextLineFeed
        framesetNotOk : Step Unit).run c =
          (.ok (), { d with skipLineFeed := true, framesetOk := false }) := Step.run_bind_ok hr
    rw [Step.run_bind_ok hlast]
    exact fun _ => Or.inr ⟨hs, rfl, hmode⟩

theorem inBodyRules_asked (hm : c.mode = .inBody) :
    Asked token c ((inBodyRules token).run c) := by
  by_cases hs : token.skipsLineFeed = true
  · cases token with
    | startTag tag =>
      show Asked _ c (((BodyStart.ofName tag.name).apply tag).run c)
      rcases Token.skipsLineFeed_startTag.mp hs with hrule | hrule <;> rw [hrule]
      · exact asked_of_last hs (Written.startBlock tag) (Ends.mono (startBlock_mode tag _)
          (fun _ _ hj => Or.inl (hj.trans hm)) fun _ _ h => h)
      · exact asked_of_last hs (Written.insertTextOnly (r := false) tag .rcdata
          (BodyStart.mem_askingNames hrule (by decide)))
          (Ends.mono (insertTextOnly_mode tag _ _) (fun _ _ hj => Or.inr hj) fun _ _ h => h)
    | _ => cases hs
  · exact .same ((Written.inBodyRules token fun h => absurd h hs).skipLineFeed c)

/-! ## rounds -/

theorem dispatch_asked (token : Token) (c : Constructor) :
    Asked token c ((dispatch token).run c) := by
  have hw : Written token false false (foreignStage token) := .foreignStage token
  have hflag := hw.skipLineFeed c
  unfold dispatch
  rcases hr : (foreignStage token).run c with ⟨e | v, d⟩ <;> rw [hr] at hflag
  · rw [Step.run_bind_error hr]
    exact .same hflag
  · rw [Step.run_bind_ok hr]
    cases v with
    | done => exact .same hflag
    | toMode =>
      show Asked token c ((modeRules d.mode token).run d)
      by_cases hm : d.mode = .inBody
      · have hbody : Asked token d ((inBodyRules token).run d) := inBodyRules_asked hm
        rw [hm]
        intro h
        rw [← hflag]
        exact hbody h
      · refine .same (Eq.trans ?_ hflag)
        exact (Written.modeRules d.mode token fun h => absurd h hm).skipLineFeed d

theorem Token.Stands.skipsLineFeed {t : Token} (h : token.Stands t)
    (ht : t.skipsLineFeed = true) : token.skipsLineFeed = true := by
  rcases h with rfl | ⟨tag, _, _, rfl⟩
  · exact ht
  · exact absurd ht (show (BodyStart.ofName "img" == .preformatted ||
      BodyStart.ofName "img" == .textarea) ≠ true by decide)

theorem processWithin_asked (n : Nat) (h : c.core.In m)
    (hflag : ((processWithin n token).run c).2.skipLineFeed = true) :
    c.skipLineFeed = true ∨
      token.skipsLineFeed = true ∧ ((processWithin n token).run c).2.mode.followsTag := by
  induction n generalizing c m token with
  | zero => exact Or.inl hflag
  | succ n ih =>
    have hleads : Leads true token (dispatch token) c.core _ := dispatch_leads h
    have hrun := hleads c rfl
    have hasked := dispatch_asked token c
    unfold processWithin at hflag ⊢
    rcases hr : (dispatch token).run c with ⟨e | v, d⟩ <;> rw [hr] at hrun hasked
    · rw [Step.run_bind_error hr] at hflag ⊢
      rcases hasked hflag with hc | ⟨_, he, _⟩
      · exact Or.inl hc
      · cases he
    · rw [Step.run_bind_ok hr] at hflag ⊢
      cases v with
      | done =>
        rcases hasked hflag with hc | ⟨ht, _, hm⟩
        · exact Or.inl hc
        · exact Or.inr ⟨ht, hm⟩
      | reprocess t =>
        obtain ⟨hm, hst, hstop, _⟩ := hrun
        rcases ih (m := d.core.mode) ⟨hm.sound h.sound, rfl, hstop⟩ hflag with hd | ⟨ht, hmode⟩
        · rcases hasked hd with hc | ⟨_, he, _⟩
          · exact Or.inl hc
          · cases he
        · exact Or.inr ⟨hst.skipsLineFeed ht, hmode⟩

namespace Constructor

/-- **Where a line feed is passed over** the token before was a start tag that asks for it, dealt
with in the body. -/
theorem process_skipLineFeed (h : c.core.Sound) (hs : c.stopped = false)
    (hflag : (c.process token).2.skipLineFeed = true) :
    token.skipsLineFeed = true ∧ (c.process token).2.mode.followsTag := by
  cases hskip : c.skips token with
  | true =>
    rw [process_of_skips hskip] at hflag
    cases hflag
  | false =>
    have hrun : ∀ d, ((processWithin maxRounds token).run (c.begun token)).2 = d →
        ((processToken token).run (c.begun token)).2.skipLineFeed = d.skipLineFeed ∧
          ((processToken token).run (c.begun token)).2.mode = d.mode := by
      rintro d rfl
      unfold processToken
      rw [Step.run_bind]
      rcases (processWithin maxRounds token).run (c.begun token) with ⟨_ | _, d⟩
      · exact ⟨rfl, rfl⟩
      · exact ⟨checkSelfClosing_skipLineFeed token d,
          congrArg Core.mode (checkSelfClosing_core token d)⟩
    obtain ⟨hsame, hmode⟩ := hrun _ rfl
    rw [process_of_not_skips hskip] at hflag ⊢
    show _ ∧ ((processToken token).run (c.begun token)).2.mode.followsTag
    rw [hmode]
    rcases processWithin_asked maxRounds (c := c.begun token) (in_mode h hs)
      (hsame.symm.trans hflag) with hbegun | hasked
    · cases hbegun
    · exact hasked

/-! ## sessions -/

/-- a line feed is passed over only in the body and in text -/
structure FeedsAfterTag (c : Constructor) : Prop where
  sound : c.core.Sound
  follows : c.skipLineFeed = true → c.mode.followsTag

theorem FeedsAfterTag.process (h : c.FeedsAfterTag) (hs : c.stopped = false) (token : Token) :
    (c.process token).2.FeedsAfterTag :=
  ⟨(process_reports h.sound hs token).sound, fun hflag =>
    (process_skipLineFeed h.sound hs hflag).2⟩

theorem FeedsAfterTag.takeRequest (h : c.FeedsAfterTag) : c.takeRequest.2.FeedsAfterTag := by
  unfold Constructor.takeRequest
  cases c.requestedState
  · exact h
  · exact ⟨h.sound, h.follows⟩

theorem FeedsAfterTag.call (h : c.FeedsAfterTag) (call : Call) : (c.call call).2.FeedsAfterTag := by
  cases call with
  | run tokens =>
    exact run_rel (R := fun a b => a.FeedsAfterTag → b.FeedsAfterTag) (fun _ ha => ha)
      (fun hab hbd ha => hbd (hab ha)) (fun token hs ha => (ha.process hs token).takeRequest)
      c tokens h
  | finish =>
    exact finish_rel (R := fun a b => a.FeedsAfterTag → b.FeedsAfterTag) (fun _ ha => ha)
      (fun hs ha => ha.process hs .endOfFile) c h

theorem after_feedsAfterTag (options : Options) (calls : List Call) :
    ((Constructor.new options).after calls).FeedsAfterTag := by
  have hafter : ∀ (calls : List Call) (c : Constructor), c.FeedsAfterTag →
      (c.after calls).FeedsAfterTag := by
    intro calls
    induction calls with
    | nil => exact fun _ h => h
    | cons call calls ih => exact fun c h => ih _ (h.call call)
  exact hafter calls _ ⟨new_sound options, nofun⟩

end Constructor

end HtmlTree
