import HtmlTree.Proofs.Characters
import HtmlTree.Proofs.Growth

/-!
# The doctype and the mode of a document

One token settles them: the first that is neither blank nor comment.  Up to it the document has no
doctype and no quirks, and all that comes behind it finds the initial mode left, so that nothing
changes any more.

* `Text.SameButCase`          texts that differ in the case of their letters only;
* `DoctypeToken.mode_congr`   the mode does not depend on the case of the identifiers;
* `Tree.doctypes`             the doctypes of a document;
* `Core.KeepsDoctype`         what every move behind the initial mode keeps;
* `Token.settles`, `processToken_settles`   the token that settles them, and what it does;
* `doctype_settled_once`      **the doctype and the mode after any calls**.
-/

namespace HtmlTree

/-! ## letters without their case -/

namespace Text

/-- the same character, or the capital and the small letter of one kind -/
def SameLetter (a b : Char) : Prop :=
  a = b ∨ (a.isUpper = true ∧ b.toNat = a.toNat + 32) ∨ (b.isUpper = true ∧ a.toNat = b.toNat + 32)

/-- texts that differ in the case of their ASCII letters only -/
def SameButCase (s t : String) : Prop := List.Forall₂ SameLetter s.toList t.toList

theorem isUpper_iff (a : Char) : a.isUpper = true ↔ 65 ≤ a.toNat ∧ a.toNat ≤ 90 := by
  show decide (65 ≤ a.val ∧ a.val ≤ 90) = true ↔ _
  rw [decide_eq_true_iff, UInt32.le_iff_toNat_le, UInt32.le_iff_toNat_le]
  exact Iff.rfl

theorem toNat_toLower (a : Char) :
    a.toLower.toNat = if a.isUpper then a.toNat + 32 else a.toNat := by
  by_cases h : a.isUpper = true
  · have hlower : a.toLower.val = a.val + ('a'.val - 'A'.val) :=
      congrArg Char.val (dif_pos (of_decide_eq_true h))
    have hstep : ('a'.val - 'A'.val).toNat = 32 := rfl
    obtain ⟨_, hz⟩ := (isUpper_iff a).mp h
    have hval : a.val.toNat ≤ 90 := hz
    rw [if_pos h]
    show a.toLower.val.toNat = a.val.toNat + 32
    rw [hlower, UInt32.toNat_add]
    omega
  · have hsame : a.toLower = a := dif_neg fun hcap => h (decide_eq_true hcap)
    rw [if_neg h, hsame]

theorem SameLetter.toLower {a b : Char} (h : SameLetter a b) : a.toLower = b.toLower := by
  rw [← Char.toNat_inj, toNat_toLower, toNat_toLower]
  -- a small letter is no capital
  rcases h with rfl | ⟨hcap, hsmall⟩ | ⟨hcap, hsmall⟩
  · rfl
  · have hb : ¬ b.isUpper = true := by
      rw [isUpper_iff] at hcap ⊢
      omega
    rw [if_pos hcap, if_neg hb, hsmall]
  · have ha : ¬ a.isUpper = true := by
      rw [isUpper_iff] at hcap ⊢
      omega
    rw [if_neg ha, if_pos hcap, hsmall]

theorem SameButCase.lower {s t : String} (h : SameButCase s t) : lower s = lower t := by
  have hmap : ∀ {as bs : List Char}, List.Forall₂ SameLetter as bs →
      as.map Char.toLower = bs.map Char.toLower := by
    intro as bs hall
    induction hall with
    | nil => rfl
    | cons hab _ ih => rw [List.map_cons, List.map_cons, hab.toLower, ih]
  unfold Text.lower
  rw [hmap h]

end Text

/-- **The mode does not depend on the case of the identifiers**, only on whether there are any and on
their letters. -/
theorem DoctypeToken.mode_congr {a b : DoctypeToken} (hname : a.name = b.name)
    (hforce : a.forceQuirks = b.forceQuirks)
    (hpublic : Option.Rel Text.SameButCase a.publicId b.publicId)
    (hsystem : Option.Rel Text.SameButCase a.systemId b.systemId) : a.mode = b.mode := by
  have hkey : ∀ {p q : Option String}, Option.Rel Text.SameButCase p q →
      p.map Text.lower = q.map Text.lower ∧ p.isNone = q.isNone := by
    intro p q h
    cases h with
    | none => exact ⟨rfl, rfl⟩
    | some h => exact ⟨congrArg some h.lower, rfl⟩
  have hpub : a.publicKey? = b.publicKey? := (hkey hpublic).1
  have hsys : a.systemKey? = b.systemKey? := (hkey hsystem).1
  unfold mode publicBegins
  rw [hname, hforce, hpub, hsys, (hkey hsystem).2]

/-! ## the doctypes of a document -/

namespace Tree
variable {t : Tree} {place id : NodeId} {d : NodeData}

/-- the doctypes among the children of the document, with their handles -/
def doctypes (t : Tree) : List (NodeId × Doctype) :=
  (t.children .root).filterMap fun id => (t.doctypeAt? id).map (id, ·)

theorem doctypeAt?_attach_old (h : id.index < t.size) :
    (t.attach place d).doctypeAt? id = t.doctypeAt? id := by
  unfold doctypeAt?
  rw [get?_attach_old h]
  cases t.get? id <;> rfl

theorem doctypeAt?_attach_new (t : Tree) (place : NodeId) (d : NodeData) :
    (t.attach place d).doctypeAt? ⟨t.size⟩ = d.doctype? := by
  unfold doctypeAt?
  rw [get?_attach_new]
  rfl

/-- A new node is a further doctype if it is one and a child of the document. -/
theorem doctypes_attach (hg : t.Grown) (hp : place.index < t.size) (d : NodeData) :
    (t.attach place d).doctypes = t.doctypes ++
      if NodeId.root = place then (d.doctype?.map (⟨t.size⟩, ·)).toList else [] := by
  have hold : (t.children .root).filterMap
      (fun id => ((t.attach place d).doctypeAt? id).map (id, ·)) = t.doctypes := by
    apply List.filterMap_congr
    intro id hid
    rw [doctypeAt?_attach_old (hg.child_lt hid)]
  unfold doctypes at hold ⊢
  rw [children_attach hp, List.filterMap_append, hold]
  split
  · rw [List.filterMap_cons, doctypeAt?_attach_new]
    cases d.doctype? <;> rfl
  · rfl

theorem doctypes_modifyData {f : NodeData → NodeData} (hf : ∀ d, (f d).doctype? = d.doctype?)
    (t : Tree) (id : NodeId) : (t.modifyData id f).doctypes = t.doctypes := by
  have hat : ∀ other, (t.modifyData id f).doctypeAt? other = t.doctypeAt? other := by
    intro other
    unfold doctypeAt? modifyData
    rw [get?_modify]
    split
    · cases t.get? other with
      | none => rfl
      | some n => exact hf n.data
    · rfl
  unfold doctypes
  rw [children_modifyData]
  simp only [hat]

end Tree

/-! ## behind the initial mode -/

namespace Core
variable {k j i : Core}

/-- the initial mode is over, and neither the doctype nor the mode of the document changes -/
structure KeepsDoctype (k j : Core) : Prop where
  settled : j.mode ≠ .initial
  doctypes : j.tree.doctypes = k.tree.doctypes
  documentMode : j.tree.mode = k.tree.mode

theorem KeepsDoctype.trans (h : k.KeepsDoctype j) (h' : j.KeepsDoctype i) : k.KeepsDoctype i :=
  ⟨h'.settled, h'.doctypes.trans h.doctypes, h'.documentMode.trans h.documentMode⟩

end Core

variable {byBody : Bool} {token : Token} {k k' : Core}

theorem Mode.hostsText_ne_initial {m : Mode} (h : m.hostsText = true) : m ≠ .initial :=
  (Mode.hostsText_facts h).2.1

/-- **No move behind the initial mode touches the doctype** or the mode of the document. -/
theorem Move.keepsDoctype (hm : Move byBody token k k') (hs : k.Sound)
    (hk : k.mode ≠ .initial) : k.KeepsDoctype k' := by
  have hg := hs.bears.grown
  -- a node other than a doctype is put where the move may put it
  have happend : ∀ {place : NodeId} {d : NodeData}, place.index < k.tree.size →
      d.doctype? = none → (k.tree.attach place d).doctypes = k.tree.doctypes := by
    intro place d hp hd
    rw [Tree.doctypes_attach hg hp, hd]
    split <;> exact List.append_nil _
  have hcurrent : ∀ {place : NodeId}, k.entries.head? = some place → place.index < k.tree.size :=
    fun hp => Tree.index_lt_of_label? (hs.current hp)
  have htakes : ∀ {place : NodeId}, k.TakesElement place → place.index < k.tree.size :=
    fun hp => Tree.index_lt_of_label? (hs.takesElement hp)
  cases hm with
  | doctype _ _ hi | noDoctype _ hi => exact absurd hi hk
  | openHtml => exact ⟨Mode.noConfusion, happend hg.root_lt rfl, rfl⟩
  | openHead _ hp | openNoscript _ hp | openBody _ hp =>
    exact ⟨Mode.noConfusion, happend (hcurrent hp) rfl, rfl⟩
  | closeNoscript | closeHead => exact ⟨Mode.noConfusion, rfl, rfl⟩
  | comment _ hp => exact ⟨hk, happend (hs.takesComment_lt hp) rfl, rfl⟩
  | text ch _ hp => exact ⟨hk, happend (hcurrent hp) rfl, rfl⟩
  | lengthen ch =>
    refine ⟨hk, Tree.doctypes_modifyData (fun d => ?_) _ _, rfl⟩
    cases d <;> rfl
  | merge given =>
    refine ⟨hk, Tree.doctypes_modifyData (fun d => ?_) _ _, rfl⟩
    cases d <;> rfl
  | leaf hp => exact ⟨hk, happend (htakes hp) rfl, rfl⟩
  | element _ _ hp => exact ⟨hk, happend (hcurrent hp) rfl, rfl⟩
  | textOnly _ hp => exact ⟨Mode.noConfusion, happend (htakes hp) rfl, rfl⟩
  | leaveText _ _ hm => exact ⟨Mode.hostsText_ne_initial hm, rfl, rfl⟩
  | drop | closeFormatting | closeSeal | removeForm | setForm | stop => exact ⟨hk, rfl, rfl⟩
  | goto _ hm => exact ⟨(Mode.isBody_facts hm).2.1, rfl, rfl⟩

/-- what holds of every move holds of any number of them -/
theorem Core.Becomes.keepsDoctype (h : k.Becomes k') (hs : k.Sound) (hk : k.mode ≠ .initial) :
    k.KeepsDoctype k' := by
  induction h with
  | refl => exact ⟨hk, rfl, rfl⟩
  | tail hj hm ih =>
    obtain ⟨_, hm⟩ := hm
    exact ih.trans (hm.keepsDoctype (Core.Becomes.sound hj hs) ih.settled)

theorem Moves.becomes (h : Moves true token k k') : k.Becomes k' :=
  Relation.ReflTransGen.mono (fun _ _ hm => ⟨token, hm⟩) _ _ h

/-! ## the token that settles -/

namespace Token

/-- all tokens but blanks and comments -/
def settles : Token → Bool
  | character ch => !Text.isBlank ch
  | comment _ => false
  | _ => true

/-- the doctype that the document takes from the token that settles it -/
def doctype? : Token → Option Doctype
  | doctype d => some ⟨d.name.getD "", d.publicId.getD "", d.systemId.getD ""⟩
  | _ => none

/-- the mode that the document takes from the token that settles it -/
def documentMode : Token → DocumentMode
  | doctype d => d.mode
  | _ => .quirks

end Token

/-- the initial mode is over; the doctype is that of the token and the mode too, but for the document
of an `iframe` given by its source -/
structure Core.SettledBy (k : Core) (token : Token) (j : Core) : Prop where
  settled : j.mode ≠ .initial
  doctypes : j.tree.doctypes.map (·.2) = k.tree.doctypes.map (·.2) ++ token.doctype?.toList
  documentMode : j.tree.mode =
    if k.options.iframeSrcdoc then k.tree.mode else token.documentMode

theorem Core.SettledBy.andKeeps {j i : Core} (h : k.SettledBy token j) (h' : j.KeepsDoctype i) :
    k.SettledBy token i where
  settled := h'.settled
  doctypes := by rw [h'.doctypes, h.doctypes]
  documentMode := by rw [h'.documentMode, h.documentMode]

/-- without strictness a parse error is no more than a report -/
theorem Ends.lenient {α : Type} {y : Step α} {Q : α → Core → Prop} {E : Failure → Core → Prop}
    (hl : k.options.strict = false) (kind : ParseErrorKind) (h : Ends y k Q E) :
    Ends (HtmlTree.parseError kind >>= fun _ => y) k Q E :=
  .parseErrorThen kind h fun _ hs => absurd (hl.symm.trans hs) Bool.noConfusion

theorem Ends.ofDoes {α : Type} {x : Step α} {a : α} {j : Core} {Q : α → Core → Prop}
    {E : Failure → Core → Prop} (hx : Does x k a j) (hq : Q a j) : Ends x k Q E :=
  Ends.mono hx (fun _ _ h => by
    obtain ⟨rfl, rfl⟩ := h
    exact hq) fun _ _ h => h.elim

section
variable {d : DoctypeToken}

theorem takeDoctype_settles (h : k.In .initial) (hl : k.options.strict = false) :
    Ends (takeDoctype d) k (fun _ j => k.SettledBy (.doctype d) j) fun _ _ => False := by
  let doctype : Doctype := ⟨d.name.getD "", d.publicId.getD "", d.systemId.getD ""⟩
  have hg := h.sound.bears.grown
  have hroot : k.tree.Accepts .root (.documentType doctype) :=
    Or.inr ⟨rfl, h.sound.noDoctype h.mode, h.sound.noElement (Or.inl h.mode)⟩
  let documentMode := if k.options.iframeSrcdoc then k.tree.mode else d.mode
  have hsettled : k.SettledBy (.doctype d) { k with
      tree := (k.tree.attach .root (.documentType doctype)).setMode documentMode
      mode := .beforeHtml } := by
    refine ⟨Mode.noConfusion, ?_, rfl⟩
    show ((k.tree.attach .root (.documentType doctype)).doctypes).map (·.2) = _
    rw [Tree.doctypes_attach hg hg.root_lt, if_pos rfl, List.map_append]
    rfl
  unfold takeDoctype
  split
  · refine .lenient hl _ (.ofDoes (a := ()) ?_ hsettled)
    exact (Does.appendNew hg hroot).bind ((setMode_does d.mode _).bind (.switchTo _ _))
  · refine .ofDoes (a := ()) ?_ hsettled
    exact (Does.appendNew hg hroot).bind ((setMode_does d.mode _).bind (.switchTo _ _))

theorem missDoctype_settles (hd : token.doctype? = none) (hm : token.documentMode = .quirks)
    (hl : k.options.strict = false) :
    Ends (missDoctype token) k (fun v j => v = .reprocess token ∧ j.mode = .beforeHtml ∧
      j.stopped = k.stopped ∧ k.SettledBy token j) fun _ _ => False := by
  have hsettled : ∀ m, (m = if k.options.iframeSrcdoc then k.tree.mode else .quirks) →
      k.SettledBy token { k with tree := k.tree.setMode m, mode := .beforeHtml } := by
    intro m hmode
    refine ⟨Mode.noConfusion, ?_, by rw [hm]; exact hmode⟩
    show k.tree.doctypes.map (·.2) = _
    rw [hd]
    exact (List.append_nil _).symm
  have hleft : ∀ m, (m = if k.options.iframeSrcdoc then k.tree.mode else .quirks) →
      Ends (switchTo .beforeHtml >>= fun _ => pure (Verdict.reprocess token)) { k with tree := k.tree.setMode m }
        (fun v j => v = .reprocess token ∧ j.mode = .beforeHtml ∧ j.stopped = k.stopped ∧
          k.SettledBy token j) fun _ _ => False := by
    intro m hmode
    exact .ofDoes ((Does.switchTo .beforeHtml _).bind (.value _ _)) ⟨rfl, rfl, rfl, hsettled m hmode⟩
  refine .ask fun c hc => ?_
  have hoptions : c.options = k.options := congrArg Core.options hc
  rw [hoptions]
  split
  · rename_i hsrcdoc
    rw [Bool.not_eq_true'] at hsrcdoc
    refine .lenient hl _ ((setQuirks_does k).andThen (hleft _ ?_))
    rw [hsrcdoc]
    rfl
  · rename_i hsrcdoc
    rw [Bool.not_eq_true', Bool.not_eq_false] at hsrcdoc
    refine hleft k.tree.mode ?_
    rw [hsrcdoc]
    rfl

end

/-! ## all rounds of a token -/

/-- The first round of the token that settles leaves the initial mode. -/
theorem dispatch_settles (h : k.In .initial) (hl : k.options.strict = false)
    (ht : token.settles = true) :
    Ends (dispatch token) k (fun v j => k.SettledBy token j ∧
      (v = .done ∨ v = .reprocess token ∧ j.In .beforeHtml ∧ roundsOf .beforeHtml token < maxRounds))
      fun _ j => k.SettledBy token j := by
  have hmiss : token.doctype? = none → token.documentMode = .quirks →
      Ends (missDoctype token) k (fun v j => k.SettledBy token j ∧
        (v = .done ∨ v = .reprocess token ∧ j.mode = .beforeHtml)) fun _ _ => False := by
    intro hd hm
    refine Ends.mono (missDoctype_settles hd hm hl) ?_ fun _ _ hfalse => hfalse
    rintro v j ⟨hv, hj, _, hs⟩
    exact ⟨hs, Or.inr ⟨hv, hj⟩⟩
  have hfirst : Ends (initialRules token) k (fun v j => k.SettledBy token j ∧
      (v = .done ∨ v = .reprocess token ∧ j.mode = .beforeHtml)) fun _ _ => False := by
    cases token with
    | character ch =>
      have hblank : ¬ Text.isBlank ch = true := by
        rwa [Token.settles, Bool.not_eq_true', ← Bool.not_eq_true] at ht
      show Ends (if Text.isBlank ch then _ else _) k _ _
      rw [if_neg hblank]
      exact hmiss rfl rfl
    | comment data => cases ht
    | doctype d =>
      refine Ends.bind (takeDoctype_settles h hl) fun _ j hj => ?_
      exact .value ⟨hj, Or.inl rfl⟩
    | startTag _ | endTag _ | endOfFile => exact hmiss rfl rfl
  refine Ends.mono ((dispatch_of_html h (h.not_foreign rfl) hfirst).and (dispatch_leads h)) ?_ ?_
  · rintro v j ⟨⟨hs, hv⟩, hmoves, hsettled⟩
    refine ⟨hs, hv.imp_right ?_⟩
    rintro ⟨rfl, hj⟩
    obtain ⟨_, hstop, hlt⟩ := hsettled
    rw [hj, h.mode] at hlt
    exact ⟨rfl, ⟨hmoves.sound h.sound, hj, hstop⟩,
      Nat.lt_of_lt_of_le hlt (roundsOf_le_maxRounds _ _)⟩
  · rintro _ _ ⟨hfalse, _⟩
    exact hfalse.elim

/-- **What the token that settles does.**  Its first round leaves the initial mode, and no other
round touches the doctype any more, whether it succeeds or not. -/
theorem processToken_settles (h : k.In .initial) (hl : k.options.strict = false)
    (ht : token.settles = true) :
    Ends (processToken token) k (fun _ j => k.SettledBy token j) fun _ j => k.SettledBy token j := by
  have hrounds : Ends (processWithin maxRounds token) k (fun _ j => k.SettledBy token j)
      fun _ j => k.SettledBy token j := by
    refine Ends.bind (dispatch_settles h hl ht) fun v j hv => ?_
    obtain ⟨hs, rfl | ⟨rfl, hin, hlt⟩⟩ := hv
    · exact .value hs
    · have hkeeps : ∀ i, Moves true token j i → k.SettledBy token i := fun i hi =>
        hs.andKeeps (hi.becomes.keepsDoctype hin.sound hs.settled)
      refine Ends.mono (processWithin_leads (maxRounds - 1) hin (by omega)) ?_ ?_
      · exact fun _ i hi => hkeeps i hi.1
      · exact fun _ i hi => hkeeps i hi.1
  exact Ends.processToken hrounds fun _ _ hj => hj

/-- Any other token is dealt with in the initial mode. -/
theorem processToken_aside (h : k.In .initial) (ht : token.settles = false) :
    Ends (processToken token) k (fun _ j => j.In .initial ∧ j.options = k.options ∧
      j.tree.doctypes = k.tree.doctypes ∧ j.tree.mode = k.tree.mode) fun _ _ => False := by
  have hg := h.sound.bears.grown
  obtain ⟨t, hrules, hdoctypes, hmode⟩ : ∃ t, Does (initialRules token) k .done { k with tree := t } ∧
      t.doctypes = k.tree.doctypes ∧ t.mode = k.tree.mode := by
    cases token with
    | character ch =>
      have hblank : Text.isBlank ch = true := by
        rwa [Token.settles, Bool.not_eq_false'] at ht
      refine ⟨k.tree, ?_, rfl, rfl⟩
      show Does (if Text.isBlank ch then _ else _) k _ _
      rw [if_pos hblank]
      exact .value _ _
    | comment data =>
      have haccepts : k.tree.Accepts .root (.comment ⟨data⟩) := Or.inr ⟨rfl, trivial⟩
      refine ⟨_, (Does.insertCommentIn data hg haccepts).bind (.value _ _), ?_, rfl⟩
      rw [Tree.doctypes_attach hg hg.root_lt, if_pos rfl]
      exact List.append_nil _
    | doctype | startTag | endTag | endOfFile => cases ht
  have hplain : token.isSelfClosingStartTag = false := by
    cases token <;> first | rfl | cases ht
  have hdoes : Does (processToken token) k () { k with tree := t } :=
    .processToken hplain (dispatch_of_html h (h.not_foreign rfl) hrules)
  refine Ends.mono (Ends.and hdoes (processToken_leads h)) ?_ fun _ _ hfalse => hfalse.1.elim
  rintro _ j ⟨⟨_, rfl⟩, hmoves, _⟩
  exact ⟨⟨hmoves.sound h.sound, h.mode, h.active⟩, rfl, hdoctypes, hmode⟩

/-! ## sessions -/

/-- the tokens that a call offers -/
def Call.tokens : Call → List Token
  | .run tokens => tokens
  | .finish => [.endOfFile]

/-- the document has the doctype and the mode that the token gives which settled them, if any did -/
def Core.DoctypeOf (k : Core) : Option Token → Prop
  | none => k.In .initial ∧ k.tree.doctypes = [] ∧ k.tree.mode = .noQuirks
  | some t => k.mode ≠ .initial ∧ k.tree.doctypes.map (·.2) = t.doctype?.toList ∧
      k.tree.mode = if k.options.iframeSrcdoc then .noQuirks else t.documentMode

theorem Core.KeepsDoctype.doctypeOf {j : Core} {t : Token} (h : k.KeepsDoctype j)
    (ho : j.options = k.options) (hk : k.DoctypeOf (some t)) : j.DoctypeOf (some t) := by
  obtain ⟨_, hdoctypes, hmode⟩ := hk
  refine ⟨h.settled, ?_, ?_⟩
  · rw [h.doctypes, hdoctypes]
  · rw [h.documentMode, ho, hmode]

theorem Core.SettledBy.doctypeOf {j : Core} (h : k.SettledBy token j) (ho : j.options = k.options)
    (hk : k.DoctypeOf none) : j.DoctypeOf (some token) := by
  obtain ⟨_, hdoctypes, hmode⟩ := hk
  refine ⟨h.settled, ?_, ?_⟩
  · rw [h.doctypes, hdoctypes]
    rfl
  · rw [h.documentMode, ho, hmode]

namespace Constructor
variable {c : Constructor} {seen : Option Token}

/-- **What a token does to the doctype and the mode**, after those that were taken before it. -/
theorem process_doctypeOf (hs : c.core.Sound) (hstop : c.stopped = false)
    (hl : c.options.strict = false) (h : c.core.DoctypeOf seen) (token : Token) :
    (c.process token).2.core.DoctypeOf (seen.or ([token].find? Token.settles)) ∧
      (seen = none → token.settles = false → (c.process token).1 = .ok ()) := by
  have hoptions : (c.process token).2.core.options = c.core.options :=
    (process_reports hs hstop token).options
  cases seen with
  | some t =>
    have hkeeps := (process_becomes hs hstop token).keepsDoctype hs h.1
    exact ⟨hkeeps.doctypeOf hoptions h, fun hnone => nomatch hnone⟩
  | none =>
    cases hskip : c.skips token with
    | true =>
      have hlf : token = .character '\n' := eq_of_beq (Bool.and_eq_true_iff.mp hskip).2
      rw [process_of_skips hskip, hlf]
      exact ⟨h, fun _ _ => rfl⟩
    | false =>
      have hin : c.core.In .initial := h.1
      cases ht : token.settles with
      | true =>
        have hrun := (processToken_settles hin hl ht).process hskip
        rw [List.find?_cons_of_pos ht]
        refine ⟨?_, fun _ hfalse => nomatch hfalse⟩
        refine Core.SettledBy.doctypeOf ?_ hoptions h
        cases hr : (c.process token).1 <;> rw [hr] at hrun <;> exact hrun
      | false =>
        have hrun := (processToken_aside hin ht).process hskip
        rw [List.find?_cons_of_neg (by rw [ht]; exact Bool.false_ne_true)]
        cases hr : (c.process token).1 <;> rw [hr] at hrun
        · exact hrun.elim
        · obtain ⟨hd, _, hdoctypes, hmode⟩ := hrun
          refine ⟨⟨hd, hdoctypes.trans h.2.1, hmode.trans h.2.2⟩, fun _ _ => rfl⟩

theorem run_doctypeOf (hs : c.core.Sound) (hl : c.options.strict = false)
    (h : c.core.DoctypeOf seen) (tokens : List Token) :
    (c.run tokens).constructor.core.DoctypeOf (seen.or (tokens.find? Token.settles)) := by
  induction tokens generalizing c seen with
  | nil =>
    rw [List.find?_nil, Option.or_none]
    exact h
  | cons token rest ih =>
    cases hstop : c.stopped with
    | true =>
      -- nothing stops the construction before a token has settled the doctype
      obtain ⟨t, rfl⟩ : ∃ t, seen = some t := by
        cases seen with
        | some t => exact ⟨t, rfl⟩
        | none => exact absurd (h.1.active.symm.trans hstop) Bool.noConfusion
      rw [run_of_stopped hstop, Option.some_or]
      exact h
    | false =>
      obtain ⟨hprocess, hok⟩ := process_doctypeOf hs hstop hl h token
      rw [← next_core] at hprocess
      have hreports := process_reports hs hstop token
      have hfind : (token :: rest).find? Token.settles =
          ([token].find? Token.settles).or (rest.find? Token.settles) := by
        rw [← List.find?_append]
        rfl
      cases ho : (c.process token).1 with
      | error f =>
        rw [run_cons_error hstop ho]
        -- the token that failed is not one of those that come before the doctype
        have hsome : (seen.or ([token].find? Token.settles)).isSome = true := by
          cases hseen : seen with
          | some t => rfl
          | none =>
            cases ht : token.settles with
            | true => rw [List.find?_cons_of_pos ht]; rfl
            | false => exact absurd (ho.symm.trans (hok hseen ht)) nofun
        obtain ⟨t, ht⟩ := Option.isSome_iff_exists.mp hsome
        rw [hfind, ← Option.or_assoc, ht, Option.some_or, ← ht]
        exact hprocess
      | ok _ =>
        rw [run_cons_ok hstop ho, hfind, ← Option.or_assoc]
        refine ih ?_ ?_ hprocess
        · rw [next_core]
          exact hreports.sound
        · have hoptions : (c.next token).core.options = (c.process token).2.core.options :=
            congrArg Core.options (c.next_core token)
          rw [show (c.next token).options = c.options from hoptions.trans hreports.options]
          exact hl

theorem call_doctypeOf (hs : c.core.Sound) (hl : c.options.strict = false)
    (h : c.core.DoctypeOf seen) (call : Call) :
    (c.call call).2.core.DoctypeOf (seen.or (call.tokens.find? Token.settles)) := by
  cases call with
  | run tokens => exact run_doctypeOf hs hl h tokens
  | finish =>
    show c.finish.2.core.DoctypeOf (seen.or ([Token.endOfFile].find? Token.settles))
    unfold finish
    split
    · rename_i hstop
      cases seen with
      | some t => exact h
      | none => exact absurd (h.1.active.symm.trans hstop) Bool.noConfusion
    · exact (process_doctypeOf hs (Bool.eq_false_iff.mpr ‹_›) hl h .endOfFile).1

theorem after_doctypeOf (hs : c.core.Sound) (hl : c.options.strict = false)
    (h : c.core.DoctypeOf seen) (calls : List Call) :
    (c.after calls).core.DoctypeOf
      (seen.or ((calls.flatMap Call.tokens).find? Token.settles)) := by
  induction calls generalizing c seen with
  | nil =>
    rw [List.flatMap_nil, List.find?_nil, Option.or_none]
    exact h
  | cons call calls ih =>
    have hreports := call_reports hs call
    rw [after_cons, List.flatMap_cons, List.find?_append, ← Option.or_assoc]
    refine ih hreports.sound ?_ (call_doctypeOf hs hl h call)
    rw [hreports.options, hl]

end Constructor

/-- **The doctype and the mode are settled once**, by the first token that is neither blank nor
comment.  Before it there is no doctype, and no quirks.  If it is a doctype, the document has this
one only, with empty texts for what it lacks, and takes its mode from it; if not, it never has a
doctype, and has quirks.  The document of an `iframe` given by its source never has quirks.  Nothing
that comes later changes any of it.  And the case of the identifiers does not matter. -/
theorem doctype_settled_once (options : Options) (calls : List Call)
    (hl : options.strict = false) :
    let c := (Constructor.new options).after calls
    let settling := (calls.flatMap Call.tokens).find? Token.settles
    (match settling with
      | none => c.tree.doctypes = [] ∧ c.tree.mode = .noQuirks
      | some (.doctype d) =>
        c.tree.doctypes.map (·.2) =
          [⟨d.name.getD "", d.publicId.getD "", d.systemId.getD ""⟩] ∧
        c.tree.mode = if options.iframeSrcdoc then .noQuirks else d.mode
      | some _ =>
        c.tree.doctypes = [] ∧ c.tree.mode = if options.iframeSrcdoc then .noQuirks else .quirks) ∧
    (∀ more, settling.isSome = true →
      (c.after more).tree.doctypes = c.tree.doctypes ∧ (c.after more).tree.mode = c.tree.mode) ∧
    ∀ a b : DoctypeToken, a.name = b.name → a.forceQuirks = b.forceQuirks →
      Option.Rel Text.SameButCase a.publicId b.publicId →
      Option.Rel Text.SameButCase a.systemId b.systemId → a.mode = b.mode := by
  intro c settling
  have hnew : (Constructor.new options).core.DoctypeOf none :=
    ⟨⟨Constructor.new_sound options, rfl, rfl⟩, rfl, rfl⟩
  have hsound : c.core.Sound := Constructor.after_sound options calls
  have hoptions : c.core.options = options := Constructor.after_options options calls
  have hof : c.core.DoctypeOf settling :=
    Constructor.after_doctypeOf (Constructor.new_sound options) hl hnew calls
  refine ⟨?_, fun more hsome => ?_, fun a b => DoctypeToken.mode_congr⟩
  · revert hof
    cases settling with
    | none => exact fun hof => hof.2
    | some t =>
      rintro ⟨_, hdoctypes, hmode⟩
      rw [hoptions] at hmode
      cases t with
      | doctype d => exact ⟨hdoctypes, hmode⟩
      | _ => exact ⟨List.map_eq_nil_iff.mp hdoctypes, hmode⟩
  · obtain ⟨t, ht⟩ := Option.isSome_iff_exists.mp hsome
    rw [ht] at hof
    have hkeeps := (Constructor.after_becomes hsound more).keepsDoctype hsound hof.1
    exact ⟨hkeeps.doctypes, hkeeps.documentMode⟩

/-- a comment before the doctype, which is an old one, and another doctype behind it -/
theorem doctype_settled_once_old :
    let d : DoctypeToken := ⟨some "html", some "HTML", none, false⟩
    let calls : List Call := [.run [.comment "a", .doctype d, .doctypeNamed "b"], .finish]
    let c := (Constructor.new .default).after calls
    Options.default.strict = false ∧
      (calls.flatMap Call.tokens).find? Token.settles = some (.doctype d) ∧
      c.tree.doctypes.map (·.2) = [⟨"html", "HTML", ""⟩] ∧
      c.tree.mode = d.mode ∧ d.mode = .quirks := by
  intro d calls c
  have hsettling : (calls.flatMap Call.tokens).find? Token.settles = some (.doctype d) := rfl
  have h := (doctype_settled_once .default calls rfl).1
  rw [hsettling] at h
  have hquirks : d.mode = .quirks := by decide +kernel
  clear_value calls
  exact ⟨rfl, hsettling, h.1, h.2.trans (if_neg Bool.false_ne_true), hquirks⟩

end HtmlTree
