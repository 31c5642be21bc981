import HtmlTree.Proofs.Announcements

/-!
# Text-only elements

Between two tokens no request is left over, so that a request is that of the token just taken.  In
text every character is taken and an end tag of any name ends the element: the mode goes back to
that saved at its start tag, and the stack to the element around it.

* `Constructor.after_asksNothing`   no request is left between calls;
* `Constructor.LeavesText`          a run that has left a text-only element again;
* `run_leavesText`                  characters and an end tag leave it;
* `text_only_announced`             **text-only elements are announced and end with an end tag**.
-/

namespace HtmlTree

variable {k : Core} {c : Constructor} {token : Token} {m : Mode}

/-! ## no request is left over -/

namespace Constructor

theorem takeRequest_requestedState (c : Constructor) : c.takeRequest.2.requestedState = none := by
  unfold takeRequest
  cases hr : c.requestedState with
  | none => exact hr
  | some _ => rfl

theorem takeRequest_requests (c : Constructor) : c.takeRequest.1 = c.requestedState.toList := by
  unfold takeRequest
  cases c.requestedState <;> rfl

/-- a token that asks for nothing leaves the request as it is -/
theorem process_requestedState (h : c.core.Sound) (hs : c.stopped = false)
    (ht : token.asksForState = false) : (c.process token).2.requestedState = c.requestedState := by
  rcases process_tells h hs token with hq | ⟨hask, _⟩
  · exact hq.requestedState
  · exact absurd (ht.symm.trans hask) Bool.noConfusion

theorem call_requestedState (h : c.core.Sound) (hc : c.requestedState = none) (call : Call) :
    (c.call call).2.requestedState = none := by
  cases call with
  | run tokens =>
    exact run_rel (R := fun a b => a.requestedState = none → b.requestedState = none)
      (fun _ ha => ha) (fun hab hbd ha => hbd (hab ha))
      (fun token _ _ => takeRequest_requestedState _) c tokens hc
  | finish =>
    exact finish_rel (R := fun a b => a.core.Sound → a.requestedState = none →
        b.requestedState = none) (fun _ _ ha => ha)
      (fun hs h ha => (process_requestedState h hs rfl).trans ha) c h hc

/-- **No request is left between calls.** -/
theorem after_requestedState (options : Options) (calls : List Call) :
    ((new options).after calls).requestedState = none := by
  have hafter : ∀ (calls : List Call) (c : Constructor), c.core.Sound → c.requestedState = none →
      (c.after calls).requestedState = none := by
    intro calls
    induction calls with
    | nil => exact fun _ _ hc => hc
    | cons call calls ih =>
      intro c h hc
      exact ih _ (call_reports h call).sound (call_requestedState h hc call)
  exact hafter calls _ (new_sound options) rfl

end Constructor

/-! ## a token in text -/

theorem textCharacter_does (h : k.In .text) (ch : Char) :
    ∃ tree, Does (processToken (.character ch)) k () { k with tree } := by
  obtain ⟨place, hp⟩ := h.exists_at (by decide) (by decide)
  have hrules : Does (textRules (.character ch)) k .done _ :=
    (Does.insertText ch hp).bind (.value _ _)
  exact ⟨_, .processToken rfl (dispatch_of_html h (h.not_foreign rfl) hrules)⟩

theorem textEnd_does (h : k.In .text) (ho : k.originalMode = some m) (name : String) :
    Does (processToken (.endTag name)) k ()
      { k with entries := k.entries.tail, originalMode := none, mode := m } := by
  have hrules : Does (textRules (.endTag name)) k .done _ := (leaveText_does ho).bind (.value _ _)
  exact .processToken rfl (dispatch_of_html h (h.not_foreign rfl) hrules)

/-! ## a run in text -/

namespace Constructor

/-- a character in text is taken, and nothing changes but the text -/
theorem process_textCharacter (h : c.core.In .text) (ch : Char) :
    (c.process (.character ch)).1 = .ok () ∧
      ∃ tree, (c.process (.character ch)).2.core = { c.core with tree } := by
  cases hskip : c.skips (.character ch) with
  | true =>
    rw [process_of_skips hskip]
    exact ⟨rfl, c.tree, rfl⟩
  | false =>
    obtain ⟨tree, hdoes⟩ := textCharacter_does h ch
    obtain ⟨hok, hcore⟩ := hdoes.process hskip
    exact ⟨hok, tree, hcore⟩

theorem process_textEnd (h : c.core.In .text) (ho : c.originalMode = some m) (name : String) :
    (c.process (.endTag name)).1 = .ok () ∧ (c.process (.endTag name)).2.core =
      { c.core with entries := c.core.entries.tail, originalMode := none, mode := m } :=
  (textEnd_does h ho name).process (Bool.and_false _)

/-- a run that took all its tokens, asked for nothing, and went back to the mode `m` and to the
element around the one that was open -/
structure LeavesText (c : Constructor) (m : Mode) (r : Run) : Prop where
  outcome : r.outcome = .ok ()
  requests : r.requests = []
  remaining : r.remaining = []
  mode : r.constructor.mode = m
  entries : r.constructor.openElements.entries = c.openElements.entries.tail
  originalMode : r.constructor.originalMode = none
  requestedState : r.constructor.requestedState = none

/-- a run whose first token asks for nothing goes on with the others -/
theorem run_cons_quiet {rest : List Token} (h : c.core.Sound) (hs : c.stopped = false)
    (hc : c.requestedState = none) (ht : token.asksForState = false)
    (ho : (c.process token).1 = .ok ()) : c.run (token :: rest) = (c.next token).run rest := by
  have hnone : c.requestsOf token = [] := by
    rw [requestsOf, takeRequest_requests, process_requestedState h hs ht, hc]
    rfl
  rw [run_cons_ok hs ho, hnone]
  rfl

/-- **Characters and an end tag of any name leave a text-only element.** -/
theorem run_leavesText (h : c.core.In .text) (hc : c.requestedState = none)
    (ho : c.originalMode = some m) (chars : List Char) (name : String) :
    c.LeavesText m (c.run (chars.map Token.character ++ [.endTag name])) := by
  induction chars generalizing c with
  | nil =>
    obtain ⟨hok, hcore⟩ := process_textEnd h ho name
    rw [← next_core] at hcore
    show c.LeavesText m (c.run [.endTag name])
    rw [run_cons_quiet h.sound h.active hc rfl hok]
    exact ⟨rfl, rfl, rfl, congrArg Core.mode hcore, congrArg Core.entries hcore,
      congrArg Core.originalMode hcore, takeRequest_requestedState _⟩
  | cons ch chars ih =>
    obtain ⟨hok, tree, hcore⟩ := process_textCharacter h ch
    have hsound := (process_reports h.sound h.active (.character ch)).sound
    rw [← next_core] at hcore hsound
    have hin : (c.next (.character ch)).core.In .text := by
      refine ⟨hsound, ?_, ?_⟩
      · rw [hcore]
        exact h.mode
      · rw [hcore]
        exact h.active
    have hrest := ih hin (takeRequest_requestedState _)
      ((congrArg Core.originalMode hcore).trans ho)
    have hentries : (c.next (.character ch)).openElements.entries = c.openElements.entries :=
      congrArg Core.entries hcore
    show c.LeavesText m (c.run (.character ch :: (chars.map Token.character ++ [.endTag name])))
    rw [run_cons_quiet h.sound h.active hc rfl hok]
    exact { hrest with entries := hrest.entries.trans (congrArg List.tail hentries) }

end Constructor

/-! ## the result -/

theorem Core.In.exists_originalMode (h : k.In .text) : ∃ m, k.originalMode = some m := by
  obtain ⟨_, _, m, _, ho, _⟩ := h.fits.text rfl
  exact ⟨m, ho⟩

/-- **Text-only elements are announced, and end with an end tag.**  A token, whether it fails or not,
either asks for no tokenizer state, and then it made no element whose content has one, or for that of
the only such element that it made.  If this is not a `plaintext` element, it is the current node and
the mode is that for text, which no token enters otherwise.  The request is passed on before the next
token is taken, also after a failure, and is not left for that one.  From there any characters and an
end tag of any name are taken without a failure and without a request; they bring back the mode that
was saved and the stack without the element. -/
theorem text_only_announced (options : Options) (calls : List Call) (token : Token)
    (hs : ((Constructor.new options).after calls).stopped = false) :
    let c := (Constructor.new options).after calls
    let d := (c.process token).2
    let t := c.next token
    (d.requestedState = none →
      (∀ id state, c.tree.size ≤ id.index →
        d.tree.contentState? options.scripting id ≠ some state) ∧
      (d.mode = .text → c.mode = .text)) ∧
    (∀ s, d.requestedState = some s → ∃ id, c.tree.size ≤ id.index ∧
      (∀ other state, c.tree.size ≤ other.index →
        (d.tree.contentState? options.scripting other = some state ↔ other = id ∧ state = s)) ∧
      (s ≠ .plaintext → d.mode = .text ∧ d.openElements.current? = some id) ∧
      (s = .plaintext → d.mode = .text → c.mode = .text)) ∧
    (∀ rest,
      ((c.process token).1 = .ok () → c.run (token :: rest) =
        { t.run rest with requests := d.requestedState.toList ++ (t.run rest).requests }) ∧
      ∀ f, (c.process token).1 = .error f →
        c.run (token :: rest) = ⟨.error f, t, d.requestedState.toList, rest⟩) ∧
    t.requestedState = none ∧
    ∀ s, d.requestedState = some s → s ≠ .plaintext → ∃ m, t.originalMode = some m ∧
      ∀ (chars : List Char) (name : String),
        t.LeavesText m (t.run (chars.map Token.character ++ [.endTag name])) := by
  intro c d t
  have h : c.core.Sound := Constructor.after_sound options calls
  have ho : c.core.options = options := Constructor.after_options options calls
  have hc : c.requestedState = none := Constructor.after_requestedState options calls
  have htells := Constructor.process_tells h hs token
  have hrequests : c.requestsOf token = d.requestedState.toList :=
    Constructor.takeRequest_requests _
  -- without a request the token was quiet, and with one it told of an element
  have hquiet : d.requestedState = none → c.Quiet d := fun hnone => by
    refine htells.resolve_right fun ⟨_, s, id, ht⟩ => ?_
    exact nomatch hnone.symm.trans ht.requestedState
  have htold : ∀ s, d.requestedState = some s →
      token.asksForState = true ∧ ∃ id, c.core.Announces s id d.core := fun s hreq => by
    rcases htells with hq | ⟨hask, state, id, ht⟩
    · exact nomatch hreq.symm.trans (hq.requestedState.trans hc)
    · obtain rfl : state = s := Option.some.inj (ht.requestedState.symm.trans hreq)
      exact ⟨hask, id, ht.announces⟩
  have hold : ∀ id state, c.tree.size ≤ id.index →
      c.core.tree.contentState? c.core.options.scripting id ≠ some state := fun id state hid hst =>
    absurd (Tree.index_lt_of_contentState? hst) (Nat.not_lt.mpr hid)
  refine ⟨fun hnone => ?_, fun s hreq => ?_, fun rest => ⟨fun hok => ?_, fun f hf => ?_⟩,
    Constructor.takeRequest_requestedState _, fun s hreq hne => ?_⟩
  · rw [← ho]
    have hq := (hquiet hnone).silent
    exact ⟨fun id state hid hst => hold id state hid (hq.elements id state hst), hq.text⟩
  · obtain ⟨_, id, ha⟩ := htold s hreq
    rw [← ho]
    refine ⟨id, ha.new, fun other state hid => ⟨fun hst => ?_, ?_⟩, ha.textOnly, ha.plaintext⟩
    · have hother := (ha.only other state hst).resolve_right (hold other state hid)
      have hstate := ha.element
      rw [← hother] at hstate
      exact ⟨hother, Option.some.inj (hst.symm.trans hstate)⟩
    · rintro ⟨rfl, rfl⟩
      exact ha.element
  · rw [Constructor.run_cons_ok hs hok, hrequests]
  · rw [Constructor.run_cons_error hs hf, hrequests]
  · obtain ⟨hask, id, ha⟩ := htold s hreq
    have hend : token ≠ .endOfFile := fun he => by
      rw [he] at hask
      cases hask
    have hcore : t.core = d.core := c.next_core token
    have hin : t.core.In .text := by
      rw [hcore]
      exact ⟨(Constructor.process_reports h hs token).sound, (ha.textOnly hne).1,
        Constructor.process_active h hs hend⟩
    obtain ⟨m, hm⟩ := hin.exists_originalMode
    exact ⟨m, hm, fun chars name => Constructor.run_leavesText hin
      (Constructor.takeRequest_requestedState _) hm chars name⟩

/-- a title of one tag is an error in strict mode, and announced all the same; the end tag of another
name ends it -/
theorem text_only_announced_strict :
    let c := (Constructor.new ⟨true, false, false⟩).after
      [.run [.doctype ⟨some "html", none, none, false⟩, .startTagNamed "head"]]
    let title : Token := .startTag ⟨"title", true, []⟩
    c.stopped = false ∧
      (c.process title).1 = .error (.parse ⟨.nonVoidSelfClosingTag, .text, 2⟩) ∧
      (c.process title).2.requestedState = some .rcdata ∧
      ∃ m, (c.next title).originalMode = some m ∧ ∀ (chars : List Char) (name : String),
        (c.next title).LeavesText m
          ((c.next title).run (chars.map Token.character ++ [.endTag name])) :=
  ⟨by decide +kernel, by decide +kernel, by decide +kernel,
    (text_only_announced ⟨true, false, false⟩ _ _ (by decide +kernel)).2.2.2.2 .rcdata
      (by decide +kernel) (by decide)⟩

end HtmlTree
