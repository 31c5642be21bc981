import HtmlTree.Proofs.ActiveEntries
import HtmlTree.Proofs.Session

/-!
# The list of active formatting elements

Beside the stack of open elements a list of active formatting elements may be kept: what the rules
of the body insert is added to it, and end tags of formatting elements and of elements that seal off
take from it.  Its purpose is to say which formatting elements have to be opened again.  Here it is
kept beside a session, without any influence on it, and is always the part of the stack that these
elements make up.  So nothing ever has to be opened again.

* `BodyRound`, `BodyRound.record`   the rules of the body applied to a token, and what it does to
                                    the list;
* `Constructor.bodyRounds`          these rounds in a session, one after another;
* `Constructor.activeList`          the list after a session;
* `record_inBodyRules`              a round keeps list and stack in step;
* `activeList_eq`                   **list and stack agree, and nothing has to be opened again**.
-/

namespace HtmlTree

/-! ## the list -/

namespace ActiveEntry

def isMarker : ActiveEntry → Bool
  | marker _ => true
  | element _ => false

/-- the list without the entries of these elements -/
def takeOut (list : List ActiveEntry) (ids : List NodeId) : List ActiveEntry :=
  list.filter fun entry => !(ids.map element).contains entry

/-- the list up to before its last marker; the latest entry stands first -/
def cutBack (list : List ActiveEntry) : List ActiveEntry :=
  (list.dropWhile fun entry => !entry.isMarker).tail

end ActiveEntry

/-- the rules of the body applied to a token -/
structure BodyRound where
  token : Token
  before : Constructor
  after : Constructor

namespace BodyRound

/-- the open elements with this name that are not open any more -/
def closed (r : BodyRound) (name : String) : List NodeId :=
  r.before.openElements.entries.filter fun id =>
    r.before.tree.isHtml name id && !r.after.openElements.entries.contains id

/-- the list, its latest entry first, after a round: the elements that were inserted come to it; the
end tag of a formatting element takes out the element that it closed, and that of an element that
seals off all up to the latest marker, if it closed one -/
def record (list : List ActiveEntry) (r : BodyRound) : List ActiveEntry :=
  let list := r.before.tree.insertedEntries r.after.tree ++ list
  match r.token with
  | .endTag name =>
    if name ∈ formattingNames then ActiveEntry.takeOut list (r.closed name)
    else if name ∈ sealNames ∧ r.closed name ≠ [] then ActiveEntry.cutBack list
    else list
  | _ => list

end BodyRound

/-! ## the rounds of a session -/

/-- the round of the body, if the token comes to the rules of the body now -/
def roundOfBody (token : Token) (c : Constructor) : List BodyRound :=
  match (foreignStage token).run c with
  | (.ok .toMode, d) =>
    if d.mode = .inBody then [⟨token, d, ((inBodyRules token).run d).2⟩] else []
  | _ => []

/-- the rounds of the body among all rounds of a token -/
def roundsOfBody : (rounds : Nat) → Token → Constructor → List BodyRound
  | 0, _, _ => []
  | rounds + 1, token, c =>
    roundOfBody token c ++
      match (dispatch token).run c with
      | (.ok (.reprocess t), d) => roundsOfBody rounds t d
      | _ => []

namespace Constructor

/-- the rounds of the body for a token -/
def tokenRounds (c : Constructor) (token : Token) : List BodyRound :=
  if c.skips token then [] else roundsOfBody maxRounds token (c.begun token)

/-- the rounds of the body for a list of tokens, up to the one that fails -/
def runRounds (c : Constructor) : List Token → List BodyRound
  | [] => []
  | token :: rest =>
    if c.stopped then []
    else
      c.tokenRounds token ++
        match (c.process token).1 with
        | .ok () => (c.next token).runRounds rest
        | .error _ => []

def callRounds (c : Constructor) : Call → List BodyRound
  | .run tokens => c.runRounds tokens
  | .finish => if c.stopped then [] else c.tokenRounds .endOfFile

/-- the rounds of the body in a session -/
def bodyRounds (c : Constructor) : List Call → List BodyRound
  | [] => []
  | call :: calls => c.callRounds call ++ (c.call call).2.bodyRounds calls

/-- the list of active formatting elements after a session -/
def activeList (c : Constructor) (calls : List Call) : List ActiveEntry :=
  (c.bodyRounds calls).foldl BodyRound.record []

end Constructor

/-- no formatting element has to be opened again: the latest entry, if there is one, is a marker or
the entry of an open element -/
def NothingToReopen (list : List ActiveEntry) (entries : List NodeId) : Prop :=
  ∀ entry ∈ list.head?, match entry with
    | .marker _ => True
    | .element id => id ∈ entries

/-! ## one round -/

variable {α : Type} {c d : Constructor} {token : Token} {name : String} {list : List ActiveEntry}
  {id : NodeId} {ids rest inside outside : List NodeId} {byBody : Bool} {m : Mode}

theorem Token.exists_of_closesActive (h : token.closesActive = true) :
    ∃ name, token = .endTag name ∧ name ∈ formattingNames ++ sealNames := by
  cases token <;> first | exact ⟨_, rfl, List.contains_iff_mem.mp h⟩ | cases h

theorem finished_run (x : Step Unit) (c : Constructor) :
    ((finished x).run c).2 = (x.run c).2 := by
  unfold finished
  rw [Step.run_bind]
  rcases x.run c with ⟨_ | _, d⟩ <;> rfl

theorem Tries.run {x : Step α} {Q : α → Core → Prop} (h : Tries token x c.core Q) :
    (∃ a, Q a (x.run c).2.core) ∨ Moves false token c.core (x.run c).2.core := by
  have hx := h c rfl
  rcases hr : x.run c with ⟨_ | a, d⟩ <;> rw [hr] at hx
  · exact Or.inr hx.1
  · exact Or.inl ⟨a, hx⟩

namespace ActiveEntry

theorem takeOut_of_not_mem (h : ∀ id ∈ ids, element id ∉ list) : takeOut list ids = list := by
  refine List.filter_eq_self.mpr fun entry he => ?_
  rw [Bool.not_eq_true', List.contains_eq_mem, decide_eq_false_iff_not, List.mem_map]
  rintro ⟨id, hid, rfl⟩
  exact h id hid he

theorem takeOut_cons_of_mem (h : id ∈ ids) :
    takeOut (element id :: list) ids = takeOut list ids := by
  unfold takeOut
  rw [List.filter_cons_of_neg (by simp [h])]

/-- of the entries before a marker and the marker itself nothing is left -/
theorem cutBack_split (before : List ActiveEntry) (h : ∀ entry ∈ before, entry.isMarker = false) :
    cutBack (before ++ marker id :: list) = list := by
  unfold cutBack
  rw [List.dropWhile_append_of_pos fun entry he => by rw [h entry he]; rfl,
    List.dropWhile_cons_of_neg Bool.false_ne_true]
  rfl

end ActiveEntry

namespace BodyRound

theorem mem_closed {r : BodyRound} : id ∈ r.closed name ↔
    id ∈ r.before.core.entries ∧ r.before.core.tree.isHtml name id = true ∧
      id ∉ r.after.core.entries := by
  unfold closed
  rw [List.mem_filter, Bool.and_eq_true, Bool.not_eq_true', List.contains_eq_mem,
    decide_eq_false_iff_not]
  exact Iff.rfl

theorem record_of_not_closesActive (h : token.closesActive = false) :
    record list ⟨token, c, d⟩ = c.core.tree.insertedEntries d.core.tree ++ list := by
  unfold record
  split
  · rename_i name ht
    have hname : name ∉ formattingNames ++ sealNames := by
      rw [show token = .endTag name from ht, Token.closesActive, List.contains_eq_mem,
        decide_eq_false_iff_not] at h
      exact h
    rw [if_neg fun hn => hname (List.mem_append_left _ hn),
      if_neg fun hn => hname (List.mem_append_right _ hn.1)]
    rfl
  · rfl

theorem record_formatting (hn : name ∈ formattingNames)
    (hi : c.core.tree.insertedEntries d.core.tree = []) :
    record list ⟨.endTag name, c, d⟩ =
      ActiveEntry.takeOut list (closed ⟨.endTag name, c, d⟩ name) := by
  show (if name ∈ formattingNames then ActiveEntry.takeOut (_ ++ list) _ else _) = _
  rw [if_pos hn, show c.tree.insertedEntries d.tree = [] from hi, List.nil_append]

theorem record_seal (hn : name ∈ sealNames) (hi : c.core.tree.insertedEntries d.core.tree = []) :
    record list ⟨.endTag name, c, d⟩ =
      if closed ⟨.endTag name, c, d⟩ name ≠ [] then ActiveEntry.cutBack list else list := by
  have hnot : ∀ n ∈ sealNames, n ∉ formattingNames := by decide
  show (if name ∈ formattingNames then _ else if name ∈ sealNames ∧ _ then _ else _ ++ list) = _
  rw [if_neg (hnot name hn), show c.tree.insertedEntries d.tree = [] from hi, List.nil_append]
  simp only [hn, true_and]

/-- where no entry comes or goes the list stays -/
theorem record_of_active_eq (hi : c.core.tree.insertedEntries d.core.tree = [])
    (ha : d.core.active = c.core.active) : record c.core.active ⟨token, c, d⟩ = c.core.active := by
  cases hc : token.closesActive with
  | false => rw [record_of_not_closesActive hc, hi, List.nil_append]
  | true =>
    obtain ⟨name, rfl, hn⟩ := Token.exists_of_closesActive hc
    rcases List.mem_append.mp hn with hn | hn
    · rw [record_formatting hn hi]
      refine ActiveEntry.takeOut_of_not_mem fun id hid hmem => ?_
      rw [← ha] at hmem
      exact (mem_closed.mp hid).2.2 (Tree.mem_of_element_mem hmem)
    · rw [record_seal hn hi, if_neg (not_not_intro ?_)]
      refine List.eq_nil_iff_forall_not_mem.mpr fun id hid => ?_
      obtain ⟨hmem, hname, hno⟩ := mem_closed.mp hid
      have hmarker := Tree.activeOf?_of_seal (Tree.isHtmlOneOf_of_isHtml hname hn)
      have hact : ActiveEntry.marker id ∈ c.core.active :=
        List.mem_filterMap.mpr ⟨id, hmem, hmarker⟩
      rw [← ha] at hact
      exact hno (Tree.mem_of_marker_mem hact).1

end BodyRound

/-- an open element is open once -/
theorem Core.Sound.not_mem_outside {k : Core} (hs : k.Sound)
    (he : k.entries = inside ++ id :: outside) : id ∉ outside := by
  have hsorted := hs.bears.sorted
  rw [he] at hsorted
  have hid := (List.pairwise_cons.mp (List.pairwise_append.mp hsorted).2.1).1
  exact fun hmem => Nat.lt_irrefl _ (hid id hmem)

theorem inBodyRules_of_formatting (hn : name ∈ formattingNames) :
    inBodyRules (.endTag name) = finished (closeFormatting name (.endTag name)) := by
  have hrule : ∀ n ∈ formattingNames, BodyEnd.ofName n = .formatting := by decide
  show (BodyEnd.ofName name).apply name = _
  rw [hrule name hn]
  rfl

theorem inBodyRules_of_seal (hn : name ∈ sealNames) :
    inBodyRules (.endTag name) = finished (closeInScope name .default false (.endTag name)) := by
  have hrule : ∀ n ∈ sealNames, BodyEnd.ofName n = .marker := by decide
  show (BodyEnd.ofName name).apply name = _
  rw [hrule name hn]
  rfl

/-- a step that tried and failed leaves the list as it is -/
theorem Moves.record (hm : Moves false token c.core d.core) (hs : c.core.Sound)
    (hstop : d.core.stopped = false) :
    BodyRound.record c.core.active ⟨token, c, d⟩ = d.core.active := by
  have ha := hm.active_plain hs hstop
  rw [BodyRound.record_of_active_eq hm.inserted_plain ha, ha]

/-- the end tag of a formatting element takes its entry out, which is the latest one -/
theorem record_popped (hs : c.core.Sound) (hn : name ∈ formattingNames)
    (he : c.core.entries = id :: rest) (hid : c.core.tree.isHtml name id = true)
    (hd : d.core = { c.core with entries := rest }) :
    BodyRound.record c.core.active ⟨.endTag name, c, d⟩ = d.core.active := by
  have hno : id ∉ rest := hs.not_mem_outside (show c.core.entries = [] ++ id :: rest from he)
  have hclosed : id ∈ BodyRound.closed ⟨.endTag name, c, d⟩ name :=
    BodyRound.mem_closed.mpr ⟨by rw [he]; exact List.mem_cons_self, hid, by rw [hd]; exact hno⟩
  have hentry := Tree.activeOf?_of_formatting (Tree.isHtmlOneOf_of_isHtml hid hn)
  have hbefore : c.core.active = .element id :: c.core.tree.activeEntries rest := by
    unfold Core.active
    rw [he, Tree.activeEntries_cons, hentry]
    rfl
  have hafter : d.core.active = c.core.tree.activeEntries rest := by rw [hd]; rfl
  rw [BodyRound.record_formatting hn (by rw [hd]; exact Tree.insertedEntries_self rfl), hbefore,
    hafter, ActiveEntry.takeOut_cons_of_mem hclosed]
  refine ActiveEntry.takeOut_of_not_mem fun x hx hmem => ?_
  have hgone := (BodyRound.mem_closed.mp hx).2.2
  rw [hd] at hgone
  exact hgone (Tree.mem_of_element_mem hmem)

/-- the end tag of an element that seals off cuts the list back to its marker -/
theorem record_unsealed (hs : c.core.Sound) (hn : name ∈ sealNames)
    (hf : Found c.core [name] inside id outside)
    (hin : ∀ x ∈ inside, c.core.tree.isHtmlOneOf sealNames x = false)
    (hd : d.core = { c.core with entries := outside }) :
    BodyRound.record c.core.active ⟨.endTag name, c, d⟩ = d.core.active := by
  have hid := hf.named
  rw [Tree.isHtmlOneOf_singleton] at hid
  have hclosed : BodyRound.closed ⟨.endTag name, c, d⟩ name ≠ [] := by
    refine List.ne_nil_of_mem (BodyRound.mem_closed.mpr ⟨?_, hid, ?_⟩)
    · rw [hf.split]
      exact List.mem_append_right _ List.mem_cons_self
    · rw [hd]
      exact hs.not_mem_outside hf.split
  have hentry := Tree.activeOf?_of_seal (Tree.isHtmlOneOf_of_isHtml hid hn)
  have hbefore : c.core.active = c.core.tree.activeEntries inside ++
      .marker id :: c.core.tree.activeEntries outside := by
    unfold Core.active
    rw [hf.split, Tree.activeEntries_append, Tree.activeEntries_cons, hentry]
    rfl
  have hafter : d.core.active = c.core.tree.activeEntries outside := by rw [hd]; rfl
  rw [BodyRound.record_seal hn (by rw [hd]; exact Tree.insertedEntries_self rfl), if_pos hclosed,
    hbefore, hafter]
  refine ActiveEntry.cutBack_split _ fun entry he => ?_
  cases entry with
  | element => rfl
  | marker x =>
    obtain ⟨hx, hseal⟩ := Tree.mem_of_marker_mem he
    rw [hin x hx] at hseal
    cases hseal

/-- **A round of the body keeps the list in step with the stack.** -/
theorem record_inBodyRules (h : c.core.Meets .inBody token)
    (hstop : ((inBodyRules token).run c).2.stopped = false) :
    BodyRound.record c.core.active ⟨token, c, ((inBodyRules token).run c).2⟩ =
      ((inBodyRules token).run c).2.core.active := by
  have hbody : c.core.mode.isBody = true := h.isBody rfl
  cases hc : token.closesActive with
  | false =>
    have hrules : Leads true token (inBodyRules token) c.core _ := inBodyRules_leads h
    have hadds := hrules.moves.addsOnly h.sound hstop (Or.inr hc)
    rw [BodyRound.record_of_not_closesActive hc, ← hadds]
  | true =>
    obtain ⟨name, rfl, hn⟩ := Token.exists_of_closesActive hc
    rcases List.mem_append.mp hn with hn | hn
    · rw [inBodyRules_of_formatting hn, finished_run] at hstop ⊢
      rcases (closeFormatting_tries name c.core).run with ⟨_, hq⟩ | hm
      · rcases hq with hsame | ⟨id, rest, he, hid, hd⟩
        · exact Moves.record (by rw [hsame]; exact .refl _) h.sound hstop
        · exact record_popped h.sound hn he hid hd
      · exact hm.record h.sound hstop
    · rw [inBodyRules_of_seal hn, finished_run] at hstop ⊢
      rcases (closeSeal_tries hbody hn).run with ⟨_, hq⟩ | hm
      · rcases hq with hsame | ⟨inside, id, outside, hf, hin, hd⟩
        · exact Moves.record (by rw [hsame]; exact .refl _) h.sound hstop
        · exact record_unsealed h.sound hn hf hin hd
      · exact hm.record h.sound hstop

/-! ## all rounds of a token -/

/-- **A round keeps the list in step with the stack**, whatever rules it is for. -/
theorem roundOfBody_active (h : c.core.In m) (hstop : ((dispatch token).run c).2.stopped = false) :
    (roundOfBody token c).foldl BodyRound.record c.core.active =
      ((dispatch token).run c).2.core.active := by
  have hstage : Leads false token (foreignStage token) c.core _ := foreignStage_leads h
  have hst := hstage c rfl
  unfold dispatch at hstop ⊢
  unfold roundOfBody
  rcases hr : (foreignStage token).run c with ⟨e | v, d⟩ <;> rw [hr] at hst
  · rw [Step.run_bind_error hr] at hstop ⊢
    exact (hst.1.active_plain h.sound hstop).symm
  · rw [Step.run_bind_ok hr] at hstop ⊢
    cases v with
    | done => exact (hst.1.active_plain h.sound hstop).symm
    | toMode =>
      have hd : d.core.Meets m token := hst.2 rfl
      have hactive : d.core.active = c.core.active := hst.1.active_plain h.sound hd.active
      replace hstop : ((modeRules d.mode token).run d).2.stopped = false := hstop
      show List.foldl _ _ (if d.mode = .inBody then _ else _) =
        ((modeRules d.mode token).run d).2.core.active
      rw [← hactive]
      by_cases hm : d.mode = .inBody
      · rw [hm] at hstop ⊢
        rw [if_pos rfl]
        exact record_inBodyRules ⟨⟨hd.sound, hm, hd.active⟩, hd.receives⟩ hstop
      · have hrules : Leads false token (modeRules d.mode token) d.core _ :=
          modeRules_leads ⟨⟨hd.sound, rfl, hd.active⟩, hd.receives⟩ fun he => absurd he hm
        rw [if_neg hm]
        exact (hrules.moves.active_plain hd.sound hstop).symm

theorem roundsOfBody_active (n : Nat) (h : c.core.In m)
    (hstop : ((processWithin n token).run c).2.stopped = false) :
    (roundsOfBody n token c).foldl BodyRound.record c.core.active =
      ((processWithin n token).run c).2.core.active := by
  induction n generalizing c m token with
  | zero => rfl
  | succ n ih =>
    have hdispatch : Leads true token (dispatch token) c.core _ := dispatch_leads h
    have hd := hdispatch c rfl
    have hround : ((dispatch token).run c).2.stopped = false → _ := roundOfBody_active h
    unfold processWithin at hstop ⊢
    unfold roundsOfBody
    rcases hr : (dispatch token).run c with ⟨e | v, d⟩ <;> rw [hr] at hd hround
    · rw [Step.run_bind_error hr] at hstop ⊢
      rw [List.append_nil]
      exact hround hstop
    · rw [Step.run_bind_ok hr] at hstop ⊢
      cases v with
      | done =>
        rw [List.append_nil]
        exact hround hstop
      | reprocess t =>
        obtain ⟨hm, _, hactive, _⟩ := hd
        rw [List.foldl_append, hround hactive]
        exact ih ⟨hm.sound h.sound, rfl, hactive⟩ hstop

namespace Constructor

theorem tokenRounds_active (h : c.core.In m) (hstop : (c.process token).2.stopped = false) :
    (c.tokenRounds token).foldl BodyRound.record c.core.active =
      (c.process token).2.core.active := by
  unfold tokenRounds
  cases hs : c.skips token with
  | true =>
    rw [process_of_skips hs]
    rfl
  | false =>
    have hrun : ((processToken token).run (c.begun token)).2.core =
        ((processWithin maxRounds token).run (c.begun token)).2.core := by
      unfold processToken
      rw [Step.run_bind]
      rcases (processWithin maxRounds token).run (c.begun token) with ⟨_ | _, d⟩
      · rfl
      · exact checkSelfClosing_core token d
    have hcore : (c.process token).2.core =
        ((processWithin maxRounds token).run (c.begun token)).2.core := by
      rw [process_of_not_skips hs]
      exact hrun
    rw [hcore]
    exact roundsOfBody_active maxRounds (c := c.begun token) h
      ((congrArg Core.stopped hcore).symm.trans hstop)

/-! ## sessions -/

/-- a constructor that has stopped does nothing any more -/
theorem call_of_stopped (h : c.stopped = true) (call : Call) : (c.call call).2 = c := by
  cases call with
  | run tokens =>
    show (c.run tokens).constructor = c
    rw [run_of_stopped h]
  | finish =>
    show c.finish.2 = c
    unfold finish
    rw [if_pos h]

theorem after_of_stopped (h : c.stopped = true) (calls : List Call) : c.after calls = c := by
  induction calls with
  | nil => rfl
  | cons call calls ih => rw [after_cons, call_of_stopped h, ih]

/-- a constructor that has not stopped after a run had not before it -/
theorem active_of_run {tokens : List Token}
    (hstop : (c.run tokens).constructor.stopped = false) : c.stopped = false := by
  cases hs : c.stopped with
  | false => rfl
  | true =>
    rw [run_of_stopped hs] at hstop
    exact hs.symm.trans hstop

theorem active_of_after {calls : List Call} (hstop : (c.after calls).stopped = false) :
    c.stopped = false := by
  cases hs : c.stopped with
  | false => rfl
  | true =>
    rw [after_of_stopped hs] at hstop
    exact hs.symm.trans hstop

theorem runRounds_active (h : c.core.Sound) (tokens : List Token)
    (hstop : (c.run tokens).constructor.stopped = false) :
    (c.runRounds tokens).foldl BodyRound.record c.core.active =
      (c.run tokens).constructor.core.active := by
  induction tokens generalizing c with
  | nil => rfl
  | cons token rest ih =>
    have hs : c.stopped = false := active_of_run hstop
    have hcore := c.next_core token
    have hnext : (c.next token).stopped = false →
        (c.tokenRounds token).foldl BodyRound.record c.core.active =
          (c.next token).core.active := by
      intro hn
      rw [hcore]
      exact tokenRounds_active (in_mode h hs) ((congrArg Core.stopped hcore).symm.trans hn)
    unfold runRounds
    rw [if_neg (by simp [hs]), List.foldl_append]
    cases ho : (c.process token).1 with
    | error e =>
      rw [run_cons_error hs ho] at hstop ⊢
      exact hnext hstop
    | ok _ =>
      rw [run_cons_ok hs ho] at hstop ⊢
      rw [hnext (active_of_run hstop)]
      exact ih (by rw [hcore]; exact (process_reports h hs token).sound) hstop

theorem callRounds_active (h : c.core.Sound) (call : Call)
    (hstop : (c.call call).2.stopped = false) :
    (c.callRounds call).foldl BodyRound.record c.core.active = (c.call call).2.core.active := by
  cases call with
  | run tokens => exact runRounds_active h tokens hstop
  | finish =>
    have hfinish : c.call .finish = c.finish := rfl
    rw [hfinish] at hstop ⊢
    show List.foldl _ _ (if c.stopped then [] else c.tokenRounds .endOfFile) = _
    unfold finish at hstop ⊢
    split
    · rfl
    · rename_i hs
      rw [if_neg hs] at hstop
      exact tokenRounds_active (in_mode h (Bool.eq_false_iff.mpr hs)) hstop

theorem bodyRounds_active (h : c.core.Sound) (calls : List Call)
    (hstop : (c.after calls).stopped = false) :
    (c.bodyRounds calls).foldl BodyRound.record c.core.active = (c.after calls).core.active := by
  induction calls generalizing c with
  | nil => rfl
  | cons call calls ih =>
    rw [after_cons] at hstop ⊢
    have hcall : (c.call call).2.stopped = false := active_of_after hstop
    unfold bodyRounds
    rw [List.foldl_append, callRounds_active h call hcall]
    exact ih (call_reports h call).sound hstop

end Constructor

/-- the latest entry of a stack is that of an open element -/
theorem nothingToReopen (t : Tree) (entries : List NodeId) :
    NothingToReopen (t.activeEntries entries) entries := by
  intro entry he
  have hmem := List.mem_of_mem_head? he
  cases entry with
  | marker => trivial
  | element id => exact Tree.mem_of_element_mem hmem

/-- **The list of active formatting elements is the part of the stack** that formatting elements and
elements that seal off make up, in the same order, whatever calls there were and whether they failed
or not; so no formatting element ever has to be opened again. -/
theorem activeList_eq (options : Options) (calls : List Call)
    (h : ((Constructor.new options).after calls).stopped = false) :
    let c := (Constructor.new options).after calls
    let list := (Constructor.new options).activeList calls
    list = c.tree.activeEntries c.openElements.entries ∧
      NothingToReopen list c.openElements.entries := by
  have hlist : (Constructor.new options).activeList calls =
      ((Constructor.new options).after calls).core.active :=
    Constructor.bodyRounds_active (Constructor.new_sound options) calls h
  refine ⟨hlist, ?_⟩
  rw [hlist]
  exact nothingToReopen _ _

/-- an object takes its marker and what is inside it out of the list at its end tag -/
theorem activeList_unsealed :
    let calls := [Call.run [.startTagNamed "b", .startTagNamed "object", .startTagNamed "i"],
      .run [.endTag "object", .startTagNamed "u", .startTagNamed "marquee"]]
    let c := (Constructor.new .default).after calls
    let list := (Constructor.new .default).activeList calls
    c.stopped = false ∧ list = [.marker ⟨8⟩, .element ⟨7⟩, .element ⟨4⟩] ∧
      list = c.tree.activeEntries c.openElements.entries ∧
      NothingToReopen list c.openElements.entries :=
  ⟨by decide +kernel, by decide +kernel, activeList_eq .default _ (by decide +kernel)⟩

end HtmlTree
