import HtmlTree.Proofs.LineFeeds
import HtmlTree.Proofs.Texts

/-!
# Characters and comments

What becomes of a character is decided by the mode in which it comes and by the current node, even
where it goes on through other modes before it is dealt with: none of them is a mode for text, and
in none of them the current node is foreign.

* `Core.typed?`          the character that is put into a text for a character, if any;
* `Core.Reads`           what a round does with a character, `dispatch_reads`;
* `Core.Read`            what all rounds do with it, `processWithin_reads`;
* `dispatch_comment`     a comment is dealt with in one round;
* `character_read`       **every character is passed over, dropped or put into a text, just one of
                         these, and every comment becomes a node**.
-/

namespace HtmlTree

variable {k i j : Core} {ch ch' : Char} {data : String} {m : Mode} {place id : NodeId}
  {token : Token} {x : Step Verdict}

/-! ## foreign content -/

/-- the current node is a foreign element that does not take the token as HTML -/
def Core.isForeign (k : Core) (token : Token) : Bool :=
  (k.entries.head?.bind k.tree.element?).any fun e =>
    !(decide (e.ns = .html) || e.takesAsHtml token)

theorem Constructor.foreignNamespace?_isSome (c : Constructor) (token : Token) :
    (c.foreignNamespace? token).isSome = c.core.isForeign token := by
  have hcur : c.core.entries.head?.bind c.core.tree.element? = c.currentElement? := rfl
  unfold foreignNamespace? Core.isForeign
  rw [hcur]
  cases c.currentElement? with
  | none => rfl
  | some e =>
    show (if _ then _ else _ : Option Namespace).isSome =
      !(decide (e.ns = .html) || e.takesAsHtml token)
    cases decide (e.ns = .html) || e.takesAsHtml token <;> rfl

/-- foreign content begins in the body -/
theorem Core.In.not_foreign (h : k.In m) (hm : m.isBody = false) : k.isForeign token = false := by
  rw [← Bool.not_eq_true]
  intro hforeign
  unfold isForeign at hforeign
  cases he : k.entries.head?.bind k.tree.element? with
  | none =>
    rw [he] at hforeign
    cases hforeign
  | some e =>
    obtain ⟨id, hid, hel⟩ := Option.bind_eq_some_iff.mp he
    rw [he, Option.any_some, Bool.not_eq_true', Bool.or_eq_false_iff] at hforeign
    have hns : k.tree.elementSatisfies (·.ns == .html) id = false := by
      unfold Tree.elementSatisfies
      rw [hel, Option.any_some]
      exact beq_false_of_ne (of_decide_eq_false hforeign.1)
    rw [h.isBody_of_foreign hid hns] at hm
    cases hm

/-- an HTML element is the current node -/
theorem Core.not_foreign_of_html {name : String} (hid : k.entries.head? = some id)
    (h : k.tree.isHtml name id = true) : k.isForeign token = false := by
  obtain ⟨e, he, hns, _⟩ := Tree.exists_of_isHtml h
  unfold Core.isForeign
  rw [hid, Option.bind_some, he, Option.any_some, decide_eq_true hns]
  rfl

section
variable {Q : ForeignVerdict → Core → Prop} {E : Failure → Core → Prop}

theorem foreignStage_of_html (hf : k.isForeign token = false) :
    Does (foreignStage token) k .toMode k := by
  refine .ask fun c hc => ?_
  subst hc
  rw [← c.foreignNamespace?_isSome, Option.isSome_eq_false_iff, Option.isNone_iff_eq_none] at hf
  rw [hf]
  exact .value _ _

theorem foreignStage_of_foreign (hs : k.Sound) (hf : k.isForeign token = true)
    (hx : ∀ ns place, k.At place → Ends (foreignRules ns token) k Q E) :
    Ends (foreignStage token) k Q E := by
  refine Ends.ask fun c hc => ?_
  subst hc
  rw [← c.foreignNamespace?_isSome] at hf
  obtain ⟨ns, hns⟩ := Option.isSome_iff_exists.mp hf
  obtain ⟨place, _, hp, _⟩ := foreignNamespace?_eq_some hns
  rw [hns]
  exact hx ns place (hs.at hp)

/-- where nothing is foreign a round goes by the rules of the mode -/
theorem dispatch_of_html {R : Verdict → Core → Prop} (h : k.In m) (hf : k.isForeign token = false)
    (hx : Ends (modeRules m token) k R E) : Ends (dispatch token) k R E :=
  (foreignStage_of_html hf).andThen (Ends.ofMode h.mode hx)

end

/-! ## what is typed -/

/-- the modes in which blanks mean nothing -/
def Mode.ignoresBlanks : Mode → Bool
  | initial | beforeHtml | beforeHead | inHead | inHeadNoscript => true
  | _ => false

/-- the character that the rules of a mode put into a text for this one -/
def Mode.typed? (m : Mode) (ch : Char) : Option Char :=
  if m = .text then some ch
  else if ch = '\x00' ∨ m.ignoresBlanks = true ∧ Text.isBlank ch = true then none
  else some ch

/-- the character that is put into a text for this one; U+0000 is replaced in foreign content -/
def Core.typed? (k : Core) (ch : Char) : Option Char :=
  if k.isForeign (.character ch) then some (if ch = '\x00' then '\ufffd' else ch)
  else k.mode.typed? ch

theorem Core.typed?_of_html (h : k.isForeign (.character ch) = false) (hm : k.mode = m) :
    k.typed? ch = m.typed? ch := by
  unfold typed?
  rw [h, if_neg Bool.false_ne_true, hm]

/-- a character that is no blank fares alike in all modes other than that for text -/
theorem Mode.typed?_of_not_blank (hm : m ≠ .text) (hb : Text.isBlank ch = false) :
    m.typed? ch = if ch = '\x00' then none else some ch := by
  unfold typed?
  rw [if_neg hm, hb]
  simp only [Bool.false_eq_true, and_false, or_false]

theorem Mode.typed?_of_blank (hm : m.ignoresBlanks = true) (hb : Text.isBlank ch = true) :
    m.typed? ch = none := by
  unfold typed?
  rw [if_neg (by rintro rfl; cases hm), if_pos (Or.inr ⟨hm, hb⟩)]

theorem Mode.typed?_of_meant (hi : ¬(Text.isBlank ch = true ∧ m.ignoresBlanks = true))
    (hd : ¬(ch = '\x00' ∧ m ≠ .text)) : m.typed? ch = some ch := by
  unfold typed?
  split
  · rfl
  · rename_i hm
    exact if_neg fun h => h.elim (fun hch => hd ⟨hch, hm⟩) fun hb => hi hb.symm

theorem Mode.typed?_of_open (hm : m.ignoresBlanks = false) (hch : ch ≠ '\x00') :
    m.typed? ch = some ch :=
  typed?_of_meant (fun h => absurd (hm.symm.trans h.2) Bool.noConfusion) fun h => hch h.1

theorem ne_null_of_isBlank (h : Text.isBlank ch = true) : ch ≠ '\x00' := by
  rintro rfl
  cases h

/-! ## one round -/

/-- what a round does with a character: it is put into the current node, passed over, or left for
another round -/
inductive Core.Reads (k : Core) (ch : Char) : Verdict → Core → Prop
  | typed {j : Core} {place : NodeId} {ch' : Char} : k.typed? ch = some ch' →
      k.entries.head? = some place → place.index < k.tree.size → j.entries = k.entries →
      j.tree = k.tree.withCharacter place ch' → Reads k ch .done j
  | passed {j : Core} : k.typed? ch = none → j.tree = k.tree → Reads k ch .done j
  | left {j : Core} {t : Token} : k.mode ≠ .text → k.isForeign (.character ch) = false →
      Text.isBlank ch = false → (j.mode.isBody = true → j.isForeign (.character ch) = false) →
      Reads k ch (.reprocess t) j

theorem Tree.isKind_document_of_label? {t : Tree} (h : (t.label? id).isSome = true) :
    t.isKind .document id = false := by
  rw [← element?_isSome] at h
  obtain ⟨e, he⟩ := Option.isSome_iff_exists.mp h
  obtain ⟨n, hn, hd⟩ := Option.bind_eq_some_iff.mp he
  rw [isKind_of_get? hn]
  cases hdata : n.data <;> rw [hdata] at hd <;> cases hd
  show (n.data.kind == _) = false
  rw [hdata]
  rfl

theorem Does.insertText (ch : Char) (h : k.At place) :
    Does (insertText ch) k () { k with tree := k.tree.withCharacter place ch } := by
  refine (currentNode h.current).bind (ask fun c hc => ?_)
  have htree : c.tree = k.tree := congrArg Core.tree hc
  rw [htree, Tree.isKind_document_of_label? h.element, if_neg Bool.false_ne_true]
  cases hlast : (k.tree.lastChild? place).filter (k.tree.isKind .text) with
  | some last =>
    rw [Tree.withCharacter_of_text hlast]
    refine change ?_
    rintro d rfl
    rfl
  | none =>
    rw [Tree.withCharacter_of_none hlast]
    exact (appendNew h.grown (Tree.accepts_of_label? h.element rfl)).bind (value _ _)

/-- the step puts a character into the current node and does nothing else to the core, or fails -/
def Types (x : Step Unit) (k : Core) (ch : Char) : Prop :=
  Covered x k fun _ j => ∃ place, k.At place ∧
    j = { k with tree := k.tree.withCharacter place ch }

theorem Types.ofDoes {y : Step Unit} (h : k.At place)
    (hd : Does y k () { k with tree := k.tree.withCharacter place ch }) : Types y k ch :=
  show Covered y k _ from Ends.mono hd (fun _ _ hj => ⟨place, h, hj.2⟩) fun _ _ he => he.elim

/-- a character, and then whether the document has content -/
theorem Types.content (h : k.At place) (ch : Char) : Types (do
    insertText ch
    if !Text.isBlank ch then framesetNotOk) k ch := by
  refine .ofDoes h ((Does.insertText ch h).bind ?_)
  split
  · exact .framesetNotOk _
  · exact .value () _

theorem Core.Reads.ofTyped (ht : k.typed? ch = some ch')
    (h : ∃ place, k.At place ∧ j = { k with tree := k.tree.withCharacter place ch' }) :
    k.Reads ch .done j := by
  obtain ⟨place, hp, rfl⟩ := h
  exact .typed ht hp.current (Tree.index_lt_of_label? hp.element) rfl rfl

theorem Types.reads {y : Step Unit} (h : Types y k ch') (ht : k.typed? ch = some ch') :
    Covered (finished y) k (k.Reads ch) :=
  Ends.bind (show Covered y k _ from h) fun _ _ hj => .value (.ofTyped ht hj)

/-- another round follows -/
theorem left_reads {t : Token} (hd : Does x k (.reprocess t) j) (hm : k.mode ≠ .text)
    (hf : k.isForeign (.character ch) = false) (hb : Text.isBlank ch = false)
    (hj : j.mode.isBody = true → j.isForeign (.character ch) = false) :
    Covered x k (k.Reads ch) := by
  refine Ends.mono hd ?_ fun _ _ he => he.elim
  rintro _ _ ⟨rfl, rfl⟩
  exact .left hm hf hb hj

/-- blanks are passed over -/
theorem blank_reads (hk : k.mode = m) (hm : m.ignoresBlanks = true)
    (hf : k.isForeign (.character ch) = false)
    (hx : Text.isBlank ch = false → Covered x k (k.Reads ch)) :
    Covered (if Text.isBlank ch then pure .done else x) k (k.Reads ch) := by
  split
  · refine .value (.passed ?_ rfl)
    rw [Core.typed?_of_html hf hk, Mode.typed?_of_blank hm ‹_›]
  · exact hx (Bool.eq_false_iff.mpr ‹_›)

theorem missDoctype_reads (hk : k.mode = .initial) (hf : k.isForeign (.character ch) = false)
    (hb : Text.isBlank ch = false) :
    Covered (missDoctype (.character ch)) k (k.Reads ch) := by
  have hleft : ∀ mode, Covered (do
      switchTo .beforeHtml
      pure (.reprocess (.character ch))) { k with tree := k.tree.setMode mode } (k.Reads ch) := by
    refine fun mode => (Does.switchTo _ _).andThen (.value (.left ?_ hf hb fun h => nomatch h))
    rw [hk]
    decide
  refine .ask fun c _ => ?_
  split
  · exact .parseErrorThen _ ((setQuirks_does k).andThen (hleft .quirks))
  · exact hleft k.tree.mode

/-- a new HTML element is the current node -/
theorem Core.not_foreign_of_new {name : String} (hid : j.entries.head? = some ⟨k.tree.size⟩)
    (ht : j.tree = k.tree.attach place (.element (.bare name .html))) :
    j.isForeign token = false := by
  have hhtml : j.tree.isHtml name ⟨k.tree.size⟩ = true := by
    rw [ht]
    exact Tree.isHtml_attach_new (beq_self_eq_true name)
  exact Core.not_foreign_of_html hid hhtml

theorem bodyCharacter_reads (h : k.In .inBody) (hf : k.isForeign (.character ch) = false) :
    Covered (finished (bodyCharacter ch)) k (k.Reads ch) := by
  obtain ⟨place, hp⟩ := h.exists_at (by decide) (by decide)
  have htyped := Core.typed?_of_html hf h.mode
  unfold bodyCharacter
  split
  · rename_i hnull
    refine .parseErrorThen _ (.value (.passed ?_ rfl))
    rw [htyped, hnull]
    rfl
  · rename_i hnull
    exact (Types.content hp ch).reads (htyped.trans (Mode.typed?_of_open rfl hnull))

theorem backToBody_reads (hk : k.mode = m) (hm : m.isBody = true)
    (hf : k.isForeign (.character ch) = false) (hb : Text.isBlank ch = false) :
    Covered (backToBody (.character ch)) k (k.Reads ch) := by
  refine .parseErrorThen _ (left_reads ((Does.switchTo .inBody k).bind (.value _ _)) ?_ hf hb
    fun _ => hf)
  rw [hk]
  exact (Mode.isBody_facts hm).1

/-- behind the head blanks are put into the document, and anything else into the body -/
theorem afterHeadRules_reads (h : k.In .afterHead) :
    Covered (afterHeadRules (.character ch)) k (k.Reads ch) := by
  have hf : k.isForeign (.character ch) = false := h.not_foreign rfl
  obtain ⟨place, hp⟩ := h.exists_at (by decide) (by decide)
  show Covered (if Text.isBlank ch then _ else _) k _
  split
  · refine (Types.ofDoes hp (.insertText ch hp)).reads ?_
    rw [Core.typed?_of_html hf h.mode, Mode.typed?_of_open rfl (ne_null_of_isBlank ‹_›)]
  · refine left_reads (implyBody_does hp) ?_ hf (Bool.eq_false_iff.mpr ‹_›) fun _ => ?_
    · rw [h.mode]
      decide
    · exact Core.not_foreign_of_new rfl rfl

/-- after the body blanks go to its end, and anything else is put back into it -/
theorem afterBody_reads (h : k.In m) (hm : m.isBody = true) (hblank : m.ignoresBlanks = false)
    (hf : k.isForeign (.character ch) = false) :
    Covered (if Text.isBlank ch then finished (insertText ch) else backToBody (.character ch)) k
      (k.Reads ch) := by
  obtain ⟨ht, hi, hh, _⟩ := Mode.isBody_facts hm
  obtain ⟨place, hp⟩ := h.exists_at hi hh
  split
  · refine (Types.ofDoes hp (.insertText ch hp)).reads ?_
    rw [Core.typed?_of_html hf h.mode, Mode.typed?_of_open hblank (ne_null_of_isBlank ‹_›)]
  · exact backToBody_reads h.mode hm hf (Bool.eq_false_iff.mpr ‹_›)

/-- **What the rules of a mode do with a character.** -/
theorem modeRules_reads (h : k.In m) (hf : k.isForeign (.character ch) = false) :
    Covered (modeRules m (.character ch)) k (k.Reads ch) := by
  cases m with
  | initial => exact blank_reads h.mode rfl hf fun hb => missDoctype_reads h.mode hf hb
  | beforeHtml =>
    refine blank_reads h.mode rfl hf fun hb => ?_
    exact left_reads ((openDocumentElement_does h).bind (.value _ _)) (by rw [h.mode]; decide) hf hb
      fun hm => nomatch hm
  | beforeHead =>
    obtain ⟨place, hp⟩ := h.exists_at (by decide) (by decide)
    refine blank_reads h.mode rfl hf fun hb => ?_
    exact left_reads ((openHead_does (.insertImplied "head" hp)).bind (.value _ _))
      (by rw [h.mode]; decide) hf hb fun hm => nomatch hm
  | inHead =>
    refine blank_reads h.mode rfl hf fun hb => ?_
    exact left_reads ((leaveFor_does .afterHead k).bind (.value _ _)) (by rw [h.mode]; decide) hf hb
      fun hm => nomatch hm
  | inHeadNoscript =>
    refine blank_reads h.mode rfl hf fun hb => .parseErrorThen _ ?_
    exact left_reads ((leaveFor_does .inHead k).bind (.value _ _)) (by rw [h.mode]; decide) hf hb
      fun hm => nomatch hm
  | afterHead => exact afterHeadRules_reads h
  | inBody => exact bodyCharacter_reads h hf
  | text =>
    obtain ⟨place, hp⟩ := h.exists_at (by decide) (by decide)
    exact (Types.ofDoes hp (.insertText ch hp)).reads (Core.typed?_of_html hf h.mode)
  | afterBody => exact afterBody_reads h rfl rfl hf
  | afterAfterBody => exact afterBody_reads h rfl rfl hf
  | _ => exact (h.stack (by decide)).elim

theorem foreignCharacter_types (h : k.At place) (ch : Char) :
    Types (foreignCharacter ch) k (if ch = '\x00' then '\ufffd' else ch) := by
  unfold foreignCharacter
  split
  · exact .parseErrorThen _ (Types.ofDoes h (.insertText _ h))
  · exact .content h ch

/-- **What a round does with a character.** -/
theorem dispatch_reads (h : k.In m) : Covered (dispatch (.character ch)) k (k.Reads ch) := by
  cases hf : k.isForeign (.character ch) with
  | true =>
    have htyped : k.typed? ch = some (if ch = '\x00' then '\ufffd' else ch) := if_pos hf
    refine Ends.bind (P := fun v j => v = .done ∧ k.Reads ch .done j)
      (foreignStage_of_foreign h.sound hf fun _ _ hp => ?_) ?_
    · exact Ends.bind (show Covered _ k _ from foreignCharacter_types hp ch) fun _ _ hj =>
        Ends.value ⟨rfl, .ofTyped htyped hj⟩
    · rintro _ _ ⟨rfl, hj⟩
      exact .value hj
  | false =>
    exact dispatch_of_html h hf (modeRules_reads h hf)

/-! ## all rounds -/

/-- what all rounds do with a character: it is at the end of the text that ends the current node, or
the texts are the same and after a blank the document is -/
def Core.Read (k : Core) (ch : Char) (j : Core) : Prop :=
  match k.typed? ch with
  | some ch' => ∃ place, j.entries.head? = some place ∧ k.tree.Typed place ch' j.tree
  | none => k.tree.SameTexts j.tree ∧ (Text.isBlank ch = true → j.tree = k.tree)

theorem Core.GoesOn.sameTexts (h : k.GoesOn j) : k.tree.SameTexts j.tree := by
  cases h with
  | keep mode ht =>
    rw [ht]
    exact k.tree.sameTexts_setMode mode
  | @imply place _ ht =>
    rw [ht]
    exact k.tree.sameTexts_attach place rfl

theorem Core.Reads.read (h : k.Reads ch .done j) : k.Read ch j := by
  unfold Read
  cases h with
  | typed ht hp hlt he htree =>
    rw [ht, he, htree]
    exact ⟨_, hp, Tree.withCharacter_typed hlt _⟩
  | passed ht htree =>
    rw [ht, htree]
    exact ⟨.refl _, fun _ => rfl⟩

/-- a later round does with a character what the first one would -/
theorem Core.Read.before (h : i.Read ch j) (hg : k.GoesOn i) (hb : Text.isBlank ch = false)
    (ht : i.typed? ch = k.typed? ch) : k.Read ch j := by
  unfold Read at h ⊢
  rw [ht] at h
  cases hk : k.typed? ch with
  | some ch' =>
    rw [hk] at h
    obtain ⟨place, hp, htyped⟩ := h
    exact ⟨place, hp, hg.sameTexts.typed htyped⟩
  | none =>
    rw [hk] at h
    exact ⟨hg.sameTexts.trans h.1, fun hblank => absurd (hb.symm.trans hblank) Bool.noConfusion⟩

/-- **What all rounds do with a character.** -/
theorem processWithin_reads (n : Nat) (h : k.In m) :
    Covered (processWithin n (.character ch)) k fun _ j => k.Read ch j := by
  induction n generalizing k m with
  | zero => exact .violated _
  | succ n ih =>
    have hreads : Covered (dispatch (.character ch)) k (k.Reads ch) := dispatch_reads h
    have hround := ((dispatch_leads h).and (dispatch_onward h Token.noConfusion)).and hreads
    refine Ends.bind (Ends.mono hround (fun _ _ hq => hq) fun _ _ he => he.2) fun v i hv => ?_
    obtain ⟨⟨⟨hm, hsettled⟩, honward⟩, hreads⟩ := hv
    cases v with
    | done => exact .value hreads.read
    | reprocess t =>
      obtain ⟨hst, hstop, _⟩ := hsettled
      have ho := honward t rfl
      have hi : i.In i.mode := ⟨hm.sound h.sound, rfl, hstop⟩
      rcases hst with rfl | ⟨_, he, _⟩
      · cases hreads with
        | left htext hf hb hbody =>
          have hif : i.isForeign (.character ch) = false := by
            cases hmode : i.mode.isBody with
            | true => exact hbody hmode
            | false => exact hi.not_foreign hmode
          refine Ends.mono (ih hi) (fun _ j hj => hj.before ho.goesOn hb ?_) fun _ _ he => he
          rw [Core.typed?_of_html hif rfl, Core.typed?_of_html hf rfl,
            Mode.typed?_of_not_blank ho.mode hb, Mode.typed?_of_not_blank htext hb]
      · cases he

/-! ## comments -/

/-- where the rules of a mode put a comment: at the end of the document, of the document element or
of the current node -/
def Mode.commentPlace? (m : Mode) (s : OpenElements) : Option NodeId :=
  match m with
  | initial | beforeHtml | afterAfterBody => some .root
  | afterBody => s.first?
  | _ => s.current?

/-- a comment is the last child of this node -/
def Comments (x : Step Verdict) (k : Core) (data : String) (place? : Option NodeId) : Prop :=
  Ends x k (fun v j => v = .done ∧ ∃ place, place? = some place ∧
    j.tree = k.tree.attach place (.comment ⟨data⟩)) fun e _ =>
      ∀ mode token, e ≠ .unsupportedInput mode token

theorem insertCommentIn_does (hs : k.Sound) (h : k.TakesComment place) (data : String) :
    Does (insertCommentIn place data) k () (k.append place (.comment ⟨data⟩)) :=
  .insertCommentIn data hs.bears.grown (hs.accepts_comment h data)

theorem insertComment_does (h : k.At place) (hs : k.Sound) (data : String) :
    Does (insertComment data) k () (k.append place (.comment ⟨data⟩)) :=
  (Does.currentNode h.current).bind (insertCommentIn_does hs (Or.inl h.current) data)

theorem Comments.ofDoes {y : Step Unit} {place? : Option NodeId} (hp : place? = some place)
    (hd : Does y k () (k.append place (.comment ⟨data⟩))) : Comments (finished y) k data place? :=
  hd.andThen (Ends.value ⟨rfl, place, hp, rfl⟩)

/-- after the body there is a document element -/
theorem lateComment_comments (h : k.In .afterBody) (data : String) :
    Comments (finished (lateComment data)) k data k.entries.getLast? := by
  cases hlast : k.entries.getLast? with
  | none => exact absurd (List.getLast?_eq_none_iff.mp hlast) (h.body rfl).ne_nil
  | some html =>
    refine .ofDoes rfl (.ask fun c hc => ?_)
    rw [show c.openElements.first? = some html by rw [← hlast, ← hc]; rfl]
    exact insertCommentIn_does h.sound (Or.inr (Or.inl ⟨h.mode, hlast⟩)) data

/-- **What the rules of a mode do with a comment**, where it does not interrupt text. -/
theorem modeRules_comment (h : k.In m) (hm : m ≠ .text) (data : String) :
    Comments (modeRules m (.comment data)) k data (m.commentPlace? ⟨k.entries⟩) := by
  have hcurrent : m ≠ .initial → m ≠ .beforeHtml →
      Comments (finished (insertComment data)) k data k.entries.head? := fun hi hh => by
    obtain ⟨place, hp⟩ := h.exists_at hi hh
    exact .ofDoes hp.current (insertComment_does hp h.sound data)
  have hroot : (k.mode = .initial ∨ k.mode = .beforeHtml ∨ k.mode = .afterAfterBody) →
      Comments (finished (insertCommentIn .root data)) k data (some .root) := fun hmode =>
    .ofDoes rfl (insertCommentIn_does h.sound (Or.inr (Or.inr ⟨hmode, rfl⟩)) data)
  cases m with
  | initial => exact hroot (Or.inl h.mode)
  | beforeHtml => exact hroot (Or.inr (Or.inl h.mode))
  | afterAfterBody => exact hroot (Or.inr (Or.inr h.mode))
  | afterBody => exact lateComment_comments h data
  | text => exact absurd rfl hm
  | beforeHead => exact hcurrent (by decide) (by decide)
  | inHead => exact hcurrent (by decide) (by decide)
  | inHeadNoscript => exact hcurrent (by decide) (by decide)
  | afterHead => exact hcurrent (by decide) (by decide)
  | inBody => exact hcurrent (by decide) (by decide)
  | _ => exact (h.stack (by decide)).elim

/-- **A comment is dealt with in one round**, where it does not interrupt text. -/
theorem dispatch_comment (h : k.In m) (hm : m ≠ .text) (data : String) :
    Comments (dispatch (.comment data)) k data
      (if k.isForeign (.comment data) then k.entries.head? else m.commentPlace? ⟨k.entries⟩) := by
  cases hf : k.isForeign (.comment data) with
  | true =>
    refine Ends.bind (P := fun v j => v = .done ∧ ∃ place, k.entries.head? = some place ∧
      j = k.append place (.comment ⟨data⟩)) (foreignStage_of_foreign h.sound hf
        fun _ place hp => ?_) ?_
    · exact (insertComment_does hp h.sound data).andThen
        (Ends.value ⟨rfl, place, hp.current, rfl⟩)
    · rintro _ _ ⟨rfl, place, hp, rfl⟩
      exact Ends.value ⟨rfl, place, hp, rfl⟩
  | false =>
    exact dispatch_of_html h hf (modeRules_comment h hm data)

/-! ## tokens -/

namespace Constructor
variable {c : Constructor}

theorem skips_character :
    c.skips (.character ch) = true ↔ c.skipLineFeed = true ∧ ch = '\n' := by
  unfold skips
  rw [Bool.and_eq_true, beq_iff_eq, Token.character.injEq]

theorem process_character (h : c.core.Sound) (hs : c.stopped = false)
    (hl : c.options.strict = false) (hskip : c.skips (.character ch) = false) :
    (c.process (.character ch)).1 = .ok () ∧ c.core.Read ch (c.process (.character ch)).2.core :=
  process_covered_ok h hs hl hskip (processWithin_reads maxRounds (in_mode h hs))

/-- where a comment goes: into foreign content, or where the rules of the mode put it -/
def commentPlace? (c : Constructor) (data : String) : Option NodeId :=
  if (c.foreignNamespace? (.comment data)).isSome then c.openElements.current?
  else c.mode.commentPlace? c.openElements

theorem process_comment (h : c.core.Sound) (hs : c.stopped = false)
    (hl : c.options.strict = false) (hm : c.mode ≠ .text) (data : String) :
    (c.process (.comment data)).1 = .ok () ∧ ∃ place, c.commentPlace? data = some place ∧
      (c.process (.comment data)).2.tree = c.tree.attach place (.comment ⟨data⟩) := by
  have hround := dispatch_comment (in_mode h hs) hm data
  rw [← c.foreignNamespace?_isSome] at hround
  refine process_covered_ok (Q := fun j => ∃ place, c.commentPlace? data = some place ∧
    j.tree = c.tree.attach place (.comment ⟨data⟩)) h hs hl (Bool.and_false _) ?_
  refine Ends.bind (show Ends (dispatch _) c.core _ _ from hround) ?_
  rintro _ j ⟨rfl, hj⟩
  exact Covered.value hj

end Constructor

/-! ## the result -/

theorem Mode.ignoresBlanks_of_isBody (h : m.isBody = true) : m.ignoresBlanks = false := by
  cases m <;> first | rfl | cases h

theorem Mode.ignoresBlanks_of_followsTag (h : m.followsTag) : m.ignoresBlanks = false := by
  rcases h with rfl | rfl <;> rfl

/-- a character that was read is a blank without meaning, one that is dropped or one that is put
into a text, and just one of these -/
theorem Core.Read.cases (h : k.In m) (hr : k.Read ch j) :
    let ignored := Text.isBlank ch = true ∧ m.ignoresBlanks = true
    let dropped := ch = '\x00' ∧ m ≠ .text ∧ k.isForeign (.character ch) = false
    (ignored ∧ ¬dropped ∧ j.tree = k.tree) ∨
    (¬ignored ∧ dropped ∧ k.tree.SameTexts j.tree) ∨
    (¬ignored ∧ ¬dropped ∧ ∃ place, j.entries.head? = some place ∧
      k.tree.Typed place
        (if ch = '\x00' ∧ k.isForeign (.character ch) = true then '\ufffd' else ch) j.tree) := by
  intro ignored dropped
  unfold Read at hr
  cases hf : k.isForeign (.character ch) with
  | true =>
    have hbody : m.isBody = true := by
      rw [← Bool.not_eq_false]
      exact fun hm => absurd (hf.symm.trans (h.not_foreign hm)) Bool.noConfusion
    rw [show k.typed? ch = some (if ch = '\x00' then '\ufffd' else ch) from if_pos hf] at hr
    refine Or.inr (Or.inr ⟨fun hi => ?_, fun hd => ?_, ?_⟩)
    · exact absurd (hi.2.symm.trans (Mode.ignoresBlanks_of_isBody hbody)) Bool.noConfusion
    · exact absurd (hf.symm.trans hd.2.2) Bool.noConfusion
    · simpa only [and_true] using hr
  | false =>
    rw [Core.typed?_of_html hf h.mode] at hr
    simp only [Bool.false_eq_true, and_false, if_false]
    by_cases hi : ignored
    · rw [Mode.typed?_of_blank hi.2 hi.1] at hr
      exact Or.inl ⟨hi, fun hd => ne_null_of_isBlank hi.1 hd.1, hr.2 hi.1⟩
    · refine Or.inr ?_
      by_cases hd : ch = '\x00' ∧ m ≠ .text
      · rw [Mode.typed?_of_not_blank hd.2 (hd.1 ▸ rfl), if_pos hd.1] at hr
        exact Or.inl ⟨hi, ⟨hd.1, hd.2, hf⟩, hr.1⟩
      · rw [Mode.typed?_of_meant hi hd] at hr
        exact Or.inr ⟨hi, fun hdropped => hd ⟨hdropped.1, hdropped.2.1⟩, hr⟩

/-- **No character or comment is lost, duplicated or misplaced.**  Without strictness every
character is dealt with in just one of four ways, whatever calls came before: it is the line feed
behind a tag that asks for it to be passed over; it is a blank where blanks mean nothing; it is
U+0000 outside text and foreign content, and no text changes; or it is put at the end of the text
that ends the current node, U+0000 being replaced in foreign content.  Every comment outside text
becomes one node, the last child of its place. -/
theorem character_read (options : Options) (calls : List Call) (ch : Char)
    (hl : options.strict = false)
    (hs : ((Constructor.new options).after calls).stopped = false) :
    let c := (Constructor.new options).after calls
    let d := (c.process (.character ch)).2
    let foreign := (c.foreignNamespace? (.character ch)).isSome
    let skipped := c.skipLineFeed = true ∧ ch = '\n'
    let ignored := Text.isBlank ch = true ∧ c.mode.ignoresBlanks = true
    let dropped := ch = '\x00' ∧ c.mode ≠ .text ∧ foreign = false
    ((c.process (.character ch)).1 = .ok () ∧
      ((skipped ∧ ¬ignored ∧ ¬dropped ∧ d.tree = c.tree) ∨
      (¬skipped ∧ ignored ∧ ¬dropped ∧ d.tree = c.tree) ∨
      (¬skipped ∧ ¬ignored ∧ dropped ∧ c.tree.SameTexts d.tree) ∨
      (¬skipped ∧ ¬ignored ∧ ¬dropped ∧ ∃ place, d.openElements.current? = some place ∧
        c.tree.Typed place (if ch = '\x00' ∧ foreign = true then '\ufffd' else ch) d.tree))) ∧
    (∀ token, (c.process token).2.skipLineFeed = true →
      ∃ tag, token = .startTag tag ∧ tag.name ∈ ["pre", "listing", "textarea"]) ∧
    ∀ data, c.mode ≠ .text → (c.process (.comment data)).1 = .ok () ∧
      ∃ place, c.commentPlace? data = some place ∧
        (c.process (.comment data)).2.tree = c.tree.attach place (.comment ⟨data⟩) := by
  intro c d foreign skipped ignored dropped
  obtain ⟨hsound, hfollows⟩ : c.FeedsAfterTag := Constructor.after_feedsAfterTag options calls
  have hlenient : c.options.strict = false := by
    rw [Constructor.after_options options calls]
    exact hl
  refine ⟨?_, fun token hflag => ?_, fun data hm => ?_⟩
  · by_cases hskip : skipped
    · have hprocess := Constructor.process_of_skips (Constructor.skips_character.mpr hskip)
      refine ⟨congrArg Prod.fst hprocess, Or.inl ⟨hskip, fun hi => ?_, fun hd => ?_, ?_⟩⟩
      · have hopen := Mode.ignoresBlanks_of_followsTag (hfollows hskip.1)
        exact absurd (hopen.symm.trans hi.2) Bool.noConfusion
      · exact absurd (hskip.2.symm.trans hd.1) (by decide)
      · exact congrArg (·.2.tree) hprocess
    · have hnot : c.skips (.character ch) = false :=
        Bool.eq_false_iff.mpr fun h => hskip (Constructor.skips_character.mp h)
      obtain ⟨hok, hread⟩ := Constructor.process_character hsound hs hlenient hnot
      refine ⟨hok, Or.inr ?_⟩
      have hcases := hread.cases (Constructor.in_mode hsound hs)
      rw [← c.foreignNamespace?_isSome] at hcases
      exact hcases.imp (⟨hskip, ·⟩) (Or.imp (⟨hskip, ·⟩) (⟨hskip, ·⟩))
  · exact Token.name_of_skipsLineFeed (Constructor.process_skipLineFeed hsound hs hflag).1
  · exact Constructor.process_comment hsound hs hlenient hm data

/-- in an `svg` element U+0000 is replaced, and the replacement put into a text -/
theorem character_read_svg :
    let c := (Constructor.new .default).after [.run [.startTagNamed "svg"]]
    let d := (c.process (.character '\x00')).2
    (c.process (.character '\x00')).1 = .ok () ∧
      (c.foreignNamespace? (.character '\x00')).isSome = true ∧
      ∃ place, d.openElements.current? = some place ∧ c.tree.Typed place '\ufffd' d.tree := by
  have hforeign : (((Constructor.new .default).after
      [.run [.startTagNamed "svg"]]).foreignNamespace? (.character '\x00')).isSome = true := by
    decide +kernel
  obtain ⟨⟨hok, hread⟩, _⟩ :=
    character_read .default [.run [.startTagNamed "svg"]] '\x00' rfl (by decide +kernel)
  refine ⟨hok, hforeign, ?_⟩
  rcases hread with ⟨hskip, _⟩ | ⟨_, hi, _⟩ | ⟨_, _, hd, _⟩ | ⟨_, _, _, htyped⟩
  · exact absurd hskip.2 (by decide)
  · exact absurd hi.1 (by decide)
  · exact absurd (hforeign.symm.trans hd.2.2) Bool.noConfusion
  · rwa [if_pos ⟨rfl, hforeign⟩] at htyped

end HtmlTree
