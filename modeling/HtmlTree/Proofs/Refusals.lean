import HtmlTree.Proofs.EndOfInput
import HtmlTree.Proofs.Implied

/-!
# Unsupported input

A token is refused where the rules that it needs are not built, and that is so for three reasons
only, which can be read off the state in which it comes.  It is refused before the document has been
touched, apart from what it implied.

* `Token.unbuilt`, `Token.interruptsText`   the tokens that are refused for what they are;
* `Core.Lacks`        the reasons for which a token may be refused;
* `Refuses`           a step refuses its token for such a reason, and with the document as it was;
* `dispatch_refuses`  so does every round, by one lemma for each rule;
* `Core.Implied`      what all rounds may have done before, `processWithin_refuses`;
* `refusal_implied`   **what a token that is refused leaves behind**.
-/

namespace HtmlTree

variable {α β : Type} {x : Step α} {f : α → Step β} {k k' j : Core} {token t : Token}
  {tag : StartTag} {m : Mode} {names : List String} {name : String} {a : α}
  {Q : α → Core → Prop} {R : β → Core → Prop}

/-! ## reasons -/

/-- the tags of templates, tables, selects and framesets, which have no rules -/
def Token.unbuilt : Token → Bool
  | .startTag tag => ["table", "select", "frameset", "template"].contains tag.name
  | .endTag name => name == "template"
  | _ => false

theorem Token.unbuilt_startTag (h : tag.name ∈ ["table", "select", "frameset", "template"]) :
    (Token.startTag tag).unbuilt = true := List.contains_iff_mem.mpr h

/-- the tokens that do not come while a tokenizer is in text -/
def Token.interruptsText : Token → Bool
  | .startTag _ | .comment _ | .doctype _ => true
  | _ => false

/-- why there may be no rules for a token: it comes in the middle of text, it has none at all, or
elements that would have to be opened anew are open -/
inductive Core.Lacks (k : Core) (token : Token) : Prop
  | text : k.mode = .text → token.interruptsText = true → Lacks k token
  | unbuilt : token.unbuilt = true → Lacks k token
  | formatting {id : NodeId} : id ∈ k.entries → k.tree.isHtmlOneOf formattingNames id = true →
      Lacks k token

theorem Core.Lacks.spared (h : k.Spares j) (hl : j.Lacks token) : k.Lacks token := by
  cases hl with
  | text hm ht => exact .text (h.mode ▸ hm) ht
  | unbuilt ht => exact .unbuilt ht
  | formatting hid hf =>
    rw [h.tree] at hf
    exact .formatting (h.entries hid) hf

/-- a formatting element was met in a search of the stack -/
theorem Core.Lacks.reached {target boundary : NodeId → Bool}
    (h : OpenElements.reaches target boundary k.entries = true)
    (ht : ∀ id, target id = true → k.tree.isHtmlOneOf formattingNames id = true) :
    k.Lacks token := by
  obtain ⟨inside, id, outside, hsplit, hid, _⟩ := OpenElements.exists_split_of_reaches h
  refine .formatting ?_ (ht id hid)
  rw [hsplit]
  exact List.mem_append_right _ List.mem_cons_self

/-! ## steps that refuse their token -/

/-- if this is a refusal it names the token and the mode, there is a reason for it, and `P` holds of
the core -/
def Failure.Grounded (k : Core) (token : Token) (P : Core → Prop) (e : Failure) (j : Core) : Prop :=
  ∀ mode t, e = .unsupportedInput mode t → mode = j.mode ∧ t = token ∧ k.Lacks token ∧ P j

theorem Failure.Grounded.mono {P P' : Core → Prop} {e : Failure} (h : e.Grounded k token P j)
    (hl : k.Lacks token → k'.Lacks token) (hp : P j → P' j) : e.Grounded k' token P' j :=
  fun mode t he =>
    have ⟨hmode, ht, hlacks, hpj⟩ := h mode t he
    ⟨hmode, ht, hl hlacks, hp hpj⟩

/-- the step refuses `token` for a reason only, and with the document as it was -/
def Refuses (token : Token) (x : Step α) (k : Core) (Q : α → Core → Prop) : Prop :=
  Ends x k Q fun e j => e.Grounded k token (fun i => i.tree = k.tree) j

/-- a step that may not give up does not -/
theorem Written.covered {r s : Bool} (h : Written token r s x) (hr : r = false) (k : Core) :
    Covered x k fun _ _ => True := by
  induction h generalizing k with
  | pure a => exact .value trivial
  | bind _ _ ihx ihf => exact (ihx k).andThen ihf
  | ask _ _ ih => exact .ask fun c _ => ih c k
  | change _ => exact .change _
  | skipNextLineFeed _ => exact .change _
  | appendNew parent _ _ => exact .appendNew parent _
  | parseError => exact .parseError _ trivial
  | unsupported t ht => exact absurd (hr.symm.trans ht) Bool.noConfusion
  | violated v => exact .violated v
  | missDoctype t =>
    refine .ask fun _ _ => ?_
    split
    · exact (Covered.parseError _ trivial).andThen fun _ _ => (Covered.change _).andThen fun _ _ =>
        (Covered.change _).andThen fun _ _ => .value trivial
    · exact (Covered.change _).andThen fun _ _ => .value trivial
  | @ensure x g _ _ _ ih =>
    intro c hc
    have hx := ih k c hc
    rw [Step.run_bind, Step.run_tryCatch]
    rcases hrun : x.run c with ⟨_ | _, c'⟩ <;> rw [hrun] at hx
    · exact hx
    · exact trivial

namespace Refuses

theorem mono {Q' : α → Core → Prop} (h : Refuses token x k Q) (hq : ∀ a j, Q a j → Q' a j) :
    Refuses token x k Q' := Ends.mono h hq fun _ _ he => he

/-- where elements have been closed before, the reason was there already -/
theorem spared (hj : k.Spares j) (h : Refuses token x j Q) :
    Ends x j Q fun e i => e.Grounded k token (fun i => i.tree = k.tree) i :=
  Ends.mono h (fun _ _ hq => hq) fun _ _ he => he.mono (.spared hj) fun ht => ht.trans hj.tree

theorem value (h : Q a k) : Refuses token (pure a) k Q := Ends.value h

theorem ask {f : Constructor → Step α} (h : ∀ c, c.core = k → Refuses token (f c) k Q) :
    Refuses token (get >>= f) k Q := Ends.ask h

theorem ite {p : Prop} [Decidable p] {y : Step α} (hx : p → Refuses token x k Q)
    (hy : ¬p → Refuses token y k Q) : Refuses token (if p then x else y) k Q := by
  split
  · exact hx ‹_›
  · exact hy ‹_›

theorem change {g : Constructor → Constructor} {Q : Unit → Core → Prop}
    (h : ∀ c, c.core = k → Q () (g c).core) : Refuses token (modify g) k Q := Ends.change h

theorem parseError {Q : Unit → Core → Prop} (kind : ParseErrorKind) (h : Q () k) :
    Refuses token (HtmlTree.parseError kind) k Q :=
  Ends.parseError kind h fun _ _ _ _ => Failure.noConfusion

theorem parseErrorThen {f : Unit → Step β} (kind : ParseErrorKind)
    (hf : Refuses token (f ()) k R) : Refuses token (HtmlTree.parseError kind >>= f) k R :=
  Ends.parseErrorThen kind hf fun _ _ _ _ => Failure.noConfusion

/-- the step gives up, for a reason -/
theorem refuse (h : k.Lacks token) : Refuses token (unsupported token : Step α) k Q := by
  rintro c rfl mode t he
  cases he
  exact ⟨rfl, rfl, h, rfl⟩

theorem refuseThen (h : k.Lacks token) :
    Refuses token ((unsupported token : Step α) >>= f) k R :=
  Ends.bind (refuse (Q := fun _ _ => False) h) fun _ _ hq => hq.elim

theorem covered (h : Covered x k fun _ _ => True) : Refuses token x k fun _ _ => True :=
  Ends.mono h (fun _ _ hq => hq) fun _ _ he mode t hu => absurd hu (he mode t)

theorem safe (h : Written token false true x) : Refuses token x k fun _ _ => True :=
  covered (h.covered rfl k)

/-- after a step that may refuse the token none does -/
theorem thenSafe (hx : Refuses token x k Q) (hf : ∀ a, Written token false true (f a)) :
    Refuses token (x >>= f) k fun _ _ => True :=
  Ends.bind hx fun a j _ => Ends.mono ((hf a).covered rfl j) (fun _ _ h => h)
    fun _ _ he mode t hu => absurd hu (he mode t)

theorem finished {x : Step Unit} {Q : Unit → Core → Prop} (hx : Refuses token x k Q) :
    Refuses token (finished x) k fun _ _ => True :=
  hx.thenSafe fun _ => .pure _

end Refuses

/-! ## closing elements -/

/-- the step closes elements at most, or refuses its token -/
def Closes (token : Token) (x : Step α) (k : Core) : Prop :=
  Refuses token x k fun _ j => k.Spares j

namespace Closes

/-- after a step that has only closed elements the next one may still refuse the token -/
theorem andThen (hx : Closes token x k) (hf : ∀ a j, k.Spares j → Refuses token (f a) j R) :
    Refuses token (x >>= f) k R :=
  Ends.bind hx fun a j hj => (hf a j hj).spared hj

theorem bind (hx : Closes token x k) (hf : ∀ a j, Closes token (f a) j) :
    Closes token (x >>= f) k :=
  hx.andThen fun a j hj => (hf a j).mono fun _ _ h => hj.trans h

theorem value (a : α) (k : Core) : Closes token (pure a) k := Refuses.value (.refl k)

theorem ask {f : Constructor → Step α} (h : ∀ c, c.core = k → Closes token (f c) k) :
    Closes token (get >>= f) k := Refuses.ask h

theorem ite {p : Prop} [Decidable p] {y : Step α} (hx : p → Closes token x k)
    (hy : ¬p → Closes token y k) : Closes token (if p then x else y) k := Refuses.ite hx hy

/-- a step under a condition, and what comes after it in any case -/
theorem whenThen {p : Prop} [Decidable p] {y : Step Unit} {rest : Step α}
    (hx : Closes token y k) (hrest : ∀ j, Closes token rest j) :
    Closes token (if p then y >>= fun _ => rest else rest) k :=
  .ite (fun _ => hx.bind fun _ j => hrest j) fun _ => hrest k

theorem change {g : Constructor → Constructor} (h : ∀ c, c.core = k → k.Spares (g c).core) :
    Closes token (modify g) k := Refuses.change h

theorem parseError (kind : ParseErrorKind) (k : Core) : Closes token (parseError kind) k :=
  Refuses.parseError kind (.refl k)

theorem framesetNotOk (k : Core) : Closes token framesetNotOk k := .change fun c hc => by
  rw [← hc]
  exact .refl c.core

theorem generateImpliedEndTags (except : Option String) (k : Core) :
    Closes token (generateImpliedEndTags except) k := .change fun c hc => by
  rw [← hc]
  exact .closed c.core (List.dropWhile_sublist _).subset

theorem popUntilOneOf (names : List String) (k : Core) : Closes token (popUntilOneOf names) k :=
  .change fun c hc => by
    rw [← hc]
    exact .closed c.core ((List.tail_sublist _).trans (List.dropWhile_sublist _)).subset

theorem expectCurrent (names : List String) (kind : ParseErrorKind) (k : Core) :
    Closes token (expectCurrent names kind) k :=
  .ask fun _ _ => .ite (fun _ => .parseError kind k) fun _ => .value () k

/-- the three steps that close an element which was found -/
theorem upTo (except : Option String) (expected : List String) (kind : ParseErrorKind)
    (names : List String) (k : Core) : Closes token (do
      HtmlTree.generateImpliedEndTags except
      HtmlTree.expectCurrent expected kind
      HtmlTree.popUntilOneOf names) k :=
  (generateImpliedEndTags except k).bind fun _ j => (expectCurrent expected kind j).bind fun _ i =>
    popUntilOneOf names i

/-- **Formatting elements are not closed by the way.** -/
theorem keepFormatting {inside : List NodeId} (h : inside ⊆ k.entries) :
    Closes token (keepFormatting inside token) k := by
  refine .ask fun c hc => .ite (fun hany => ?_) fun _ => .value () k
  subst hc
  obtain ⟨id, hid, hf⟩ := List.any_eq_true.mp hany
  exact .refuse (.formatting (h hid) hf)

theorem keepFormattingIn (names : List String) (k : Core) :
    Closes token (keepFormattingIn names token) k := by
  refine .ask fun c hc => ?_
  subst hc
  split
  · rename_i inside id outside hsplit
    refine .keepFormatting ?_
    rw [show c.core.entries = inside ++ id :: outside from
      (OpenElements.splitAt?_eq_some hsplit).1]
    exact List.subset_append_left _ _
  · exact .value () _

theorem closeParagraph (k : Core) : Closes token (closeParagraph token) k :=
  (keepFormattingIn ["p"] k).bind fun _ j => upTo _ _ _ ["p"] j

theorem closeOpenParagraph (k : Core) : Closes token (closeOpenParagraph token) k :=
  .ask fun _ _ => .ite (fun _ => .closeParagraph k) fun _ => .value () k

theorem closeInScope (name : String) (scope : Scope) (sparing : Bool) (k : Core) :
    Closes token (closeInScope name scope sparing token) k := by
  refine .ask fun c _ => .ite (fun _ => ?_) fun _ => .parseError _ k
  exact .whenThen (keepFormattingIn [name] k) fun j => upTo _ _ _ [name] j

theorem closeListItem (closes : List String) (k : Core) :
    Closes token (closeListItem closes token) k := by
  refine .ask fun c hc => ?_
  subst hc
  dsimp only
  split
  · exact .value () _
  rename_i inside id outside hsplit
  split
  · exact .value () _
  rename_i item _
  refine (keepFormatting ?_).bind fun _ j => upTo _ _ _ [item.localName] j
  rw [show c.core.entries = inside ++ id :: outside from
    (OpenElements.splitAt?_eq_some hsplit).1]
  exact List.subset_append_left _ _

theorem closeHeading (name : String) (k : Core) : Closes token (closeHeading name token) k := by
  refine .ask fun c _ => .ite (fun _ => ?_) fun _ => .parseError _ k
  exact (keepFormattingIn headingNames k).bind fun _ j => upTo _ _ _ headingNames j

end Closes

/-- an end tag without a rule of its own closes what was found, all but the entries outside it -/
theorem closeOther_refuses (name : String) (k : Core) :
    Refuses token (closeOther name token) k fun _ _ => True := by
  refine .ask fun c hc => ?_
  subst hc
  dsimp only
  split
  · exact .value trivial
  rename_i inside id outside hsplit
  refine .ite (fun _ => ?_) fun _ => .parseError _ trivial
  refine Refuses.thenSafe (Closes.keepFormatting ?_) fun _ =>
    (Written.generateImpliedEndTags _).bind fun _ => ?_
  · rw [show c.core.entries = inside ++ id :: outside from
      (OpenElements.splitAt?_eq_some hsplit).1]
    exact List.subset_append_left _ _
  · refine .ask (fun c => .whenThen (.parseError (by decide)) (.change ?_)) fun _ _ _ => rfl
    exact .quiet (fun _ => ⟨rfl, rfl, rfl, rfl⟩) (fun _ _ => rfl) (fun _ _ => rfl) fun _ _ => rfl

/-! ## the rules of every mode -/

theorem HeadStart.template_of_ofName? {scripting : Bool}
    (h : ofName? scripting name = some template) : name = "template" := by
  unfold ofName? at h
  split_ifs at h with _ _ _ _ hs _ ht <;> cases h
  exact ht

/-- of what belongs into the head only templates are refused -/
theorem HeadStart.apply_refuses {rule : HeadStart} {scripting : Bool} (k : Core)
    (hr : HeadStart.ofName? scripting tag.name = some rule) :
    Refuses (.startTag tag) (rule.apply tag) k fun _ _ => True := by
  have hname := HeadStart.admits_of_ofName? hr
  cases rule with
  | void => exact .safe (.insertVoid tag)
  | title | rawText | script =>
    exact .safe (.insertTextOnly tag _ (List.mem_cons_of_mem _ hname))
  | noscript => exact .safe ((Written.insertHtml tag).bind fun _ => .switchTo _)
  | template =>
    refine .refuse (.unbuilt (Token.unbuilt_startTag ?_))
    rw [HeadStart.template_of_ofName? hr]
    decide

theorem headContent_refuses (k : Core) :
    Refuses (.startTag tag) (headContent tag) k fun _ _ => True := by
  refine .ask fun c _ => ?_
  split
  · exact HeadStart.apply_refuses k ‹_›
  · exact .value trivial

theorem inHeadRules_refuses (k : Core) : Refuses token (inHeadRules token) k fun _ _ => True := by
  cases token with
  | character ch => exact .safe (.ite (.pure _) (.implyHeadEnd _))
  | comment data => exact .safe (.finished (.insertComment _))
  | doctype d => exact .safe (.finished (.parseError (by decide)))
  | startTag tag =>
    refine .ask fun c _ => ?_
    split
    · exact (HeadStart.apply_refuses k ‹_›).finished
    · exact .safe (.ite (.finished (.repeatedHtml _)) (.ite (.finished (.parseError (by decide)))
        (.implyHeadEnd _)))
  | endTag name =>
    refine .ite (fun _ => .safe (.finished (.leaveFor _))) fun _ => .ite (fun hn => ?_) fun _ => ?_
    · exact .refuse (.unbuilt (beq_iff_eq.mpr hn))
    · exact .safe (.ite (.implyHeadEnd _) (.finished (.parseError (by decide))))
  | endOfFile => exact .safe (.implyHeadEnd _)

theorem inHeadNoscriptRules_refuses (k : Core) :
    Refuses token (inHeadNoscriptRules token) k fun _ _ => True := by
  cases token with
  | doctype d => exact .safe (.finished (.parseError (by decide)))
  | character ch => exact .safe (.ite (.pure _) (.implyNoscriptEnd _))
  | comment data => exact .safe (.finished (.insertComment _))
  | startTag tag =>
    refine .ite (fun _ => .safe (.finished (.repeatedHtml _))) fun _ => ?_
    refine .ite (fun _ => (headContent_refuses k).finished) fun _ => ?_
    exact .safe (.ite (.finished (.parseError (by decide))) (.implyNoscriptEnd _))
  | endTag name =>
    exact .safe (.ite (.finished (.leaveFor _)) (.ite (.implyNoscriptEnd _)
      (.finished (.parseError (by decide)))))
  | endOfFile => exact .safe (.implyNoscriptEnd _)

/-- the head is open while a template is refused there, and is closed again -/
theorem lateHeadContent_refuses (h : k.In .afterHead) :
    Refuses (.startTag tag) (lateHeadContent tag) k fun _ _ => True := by
  refine .parseErrorThen _ (.ask fun c hc => ?_)
  split
  · exact .safe (.violated _)
  rename_i head hhead
  have hnot : k.tree.isHtmlOneOf formattingNames head = false := by
    have hname := h.sound.bears.head head ((congrArg Core.head hc).symm.trans hhead)
    exact Tree.isHtmlOneOf_eq_false hname (by decide)
  refine (Does.pushElement head k).andThen ?_
  refine Ends.ensure (fun j => { j with entries := j.entries.erase head }) (fun _ => rfl) ?_
  refine Ends.mono (headContent_refuses _) (fun _ _ h => h) fun e j he mode t hu => ?_
  obtain ⟨hmode, ht, hlacks, htree⟩ := he mode t hu
  refine ⟨hmode, ht, ?_, htree⟩
  cases hlacks with
  | text hm hi => exact .text hm hi
  | unbuilt hb => exact .unbuilt hb
  | formatting hid hf =>
    rcases List.mem_cons.mp hid with rfl | hid
    · exact absurd (hnot.symm.trans hf) Bool.noConfusion
    · exact .formatting hid hf

theorem afterHeadRules_refuses (h : k.In .afterHead) :
    Refuses token (afterHeadRules token) k fun _ _ => True := by
  cases token with
  | character ch => exact .safe (.ite (.finished (.insertText _)) (.implyBody _))
  | comment data => exact .safe (.finished (.insertComment _))
  | doctype d => exact .safe (.finished (.parseError (by decide)))
  | startTag tag =>
    refine .ite (fun _ => .safe (.finished (.repeatedHtml _))) fun _ => ?_
    refine .ite (fun _ => .safe (.finished (.openBody _))) fun _ => ?_
    refine .ite (fun hn => ?_) fun _ => ?_
    · refine .refuse (.unbuilt (Token.unbuilt_startTag ?_))
      rw [hn]
      decide
    · refine .ite (fun _ => (lateHeadContent_refuses h).finished) fun _ => ?_
      exact .safe (.ite (.finished (.parseError (by decide))) (.implyBody _))
  | endTag name =>
    refine .ite (fun hn => .refuse (.unbuilt (beq_iff_eq.mpr hn))) fun _ => ?_
    exact .safe (.ite (.implyBody _) (.finished (.parseError (by decide))))
  | endOfFile => exact .safe (.implyBody _)

/-! ### start tags of the body -/

theorem startBlock_refuses (k : Core) :
    Refuses (.startTag tag) (startBlock tag) k fun _ _ => True :=
  Refuses.thenSafe (Closes.closeOpenParagraph k) fun _ => .insertPlain tag

theorem startHeading_refuses (k : Core) :
    Refuses (.startTag tag) (startHeading tag) k fun _ _ => True := by
  refine Refuses.thenSafe (Closes.closeOpenParagraph k) fun _ => .ask (fun c => ?_) fun _ _ _ => rfl
  exact .ite ((Written.parseError (by decide)).bind fun _ => Written.popElement.bind fun _ =>
    .insertPlain tag) (.insertPlain tag)

theorem startForm_refuses (k : Core) :
    Refuses (.startTag tag) (startForm tag) k fun _ _ => True := by
  refine .ask fun c _ => .ite (fun _ => .parseError _ trivial) fun _ => ?_
  refine Refuses.thenSafe (Closes.closeOpenParagraph k) fun _ => (Written.insertHtml tag).bind
    fun _ => .ite (.change ?_) (.pure _)
  exact .quiet (fun _ => ⟨rfl, rfl, rfl, rfl⟩) (fun _ _ => rfl) (fun _ _ => rfl) fun _ _ => rfl

theorem startListItem_refuses (closes : List String) (k : Core) :
    Refuses (.startTag tag) (startListItem closes tag) k fun _ _ => True :=
  (Closes.framesetNotOk k).andThen fun _ j _ => (Closes.closeListItem closes j).andThen
    fun _ i _ => startBlock_refuses i

theorem startButton_refuses (k : Core) :
    Refuses (.startTag tag) (startButton tag) k fun _ _ => True := by
  refine .ask fun c _ => .ite (fun _ => ?_) fun _ => .safe (.startMarker tag)
  refine (Closes.parseError _ k).andThen fun _ j _ => ?_
  exact Refuses.thenSafe (Closes.keepFormattingIn ["button"] j) fun _ =>
    (Written.generateImpliedEndTags _).bind fun _ => (Written.popUntilTag _).bind fun _ =>
      .startMarker tag

/-- an anchor is refused in an anchor -/
theorem startAnchor_refuses (k : Core) :
    Refuses (.startTag tag) (startAnchor tag) k fun _ _ => True := by
  refine .ask fun c hc => .ite (fun hopen => .refuseThen ?_) fun _ => .safe (.insertPlain tag)
  subst hc
  exact .reached hopen fun id hid => Tree.isHtmlOneOf_of_isHtml hid (by decide)

theorem startNobr_refuses (k : Core) :
    Refuses (.startTag tag) (startNobr tag) k fun _ _ => True := by
  refine .ask fun c hc => .ite (fun hopen => .refuseThen ?_) fun _ => .safe (.insertPlain tag)
  subst hc
  refine .reached hopen fun id hid => ?_
  rw [Tree.isHtmlOneOf_singleton] at hid
  exact Tree.isHtmlOneOf_of_isHtml hid (by decide)

theorem startPreformatted_refuses (k : Core) :
    Refuses (.startTag tag) (startPreformatted tag) k fun _ _ => True :=
  Refuses.thenSafe (startBlock_refuses k) fun _ => (Written.skipNextLineFeed rfl).bind fun _ =>
    .framesetNotOk

theorem startXmp_refuses (k : Core) (hn : tag.name ∈ askingNames) :
    Refuses (.startTag tag) (startXmp tag) k fun _ _ => True :=
  Refuses.thenSafe (Closes.closeOpenParagraph k) fun _ => Written.framesetNotOk.bind fun _ =>
    .insertTextOnly tag _ hn

theorem startFrameset_refuses (k : Core) (hn : tag.name = "frameset") :
    Refuses (.startTag tag) (startFrameset tag) k fun _ _ => True := by
  refine .parseErrorThen _ (.ask fun _ _ => .ite (fun _ => ?_) fun _ => .value trivial)
  refine .refuse (.unbuilt (Token.unbuilt_startTag ?_))
  rw [hn]
  decide

/-- **What a start tag of the body is refused for.** -/
theorem BodyStart.apply_refuses {rule : BodyStart} (k : Core)
    (hr : BodyStart.ofName tag.name = rule) :
    Refuses (.startTag tag) (rule.apply tag) k fun _ _ => True := by
  have hbare : ∀ names ⊆ ["table", "select", "frameset", "template"], tag.name ∈ names →
      k.Lacks (.startTag tag) := fun _ hsub hn => .unbuilt (Token.unbuilt_startTag (hsub hn))
  have hask := BodyStart.mem_askingNames hr
  cases rule with
  | headContent => exact (headContent_refuses k).finished
  | frameset =>
    have hn := mem_of_rule ["frameset"] hr (by decide) (by decide)
    exact (startFrameset_refuses k (List.mem_singleton.mp hn)).finished
  | block => exact (startBlock_refuses k).finished
  | heading => exact (startHeading_refuses k).finished
  | preformatted => exact (startPreformatted_refuses k).finished
  | form => exact (startForm_refuses k).finished
  | listItem | description => exact (startListItem_refuses _ k).finished
  | plaintext =>
    have ht := Token.asksForState_startTag.mpr (hask (by decide))
    exact (Refuses.thenSafe (startBlock_refuses k) fun _ => .requestState _ ht).finished
  | button => exact (startButton_refuses k).finished
  | anchor => exact (startAnchor_refuses k).finished
  | nobr => exact (startNobr_refuses k).finished
  | unsupported =>
    exact .refuse (hbare _ (by decide) (mem_of_rule ["table", "select"] hr (by decide) (by decide)))
  | thematicBreak =>
    exact (Refuses.thenSafe (Closes.closeOpenParagraph k) fun _ => .startVoid tag).finished
  | xmp => exact (startXmp_refuses k (hask (by decide))).finished
  | html => exact .safe (.finished (.repeatedHtml tag))
  | body => exact .safe (.finished (.repeatedBody tag))
  | marker => exact .safe (.finished (.startMarker tag))
  | void => exact .safe (.finished (.startVoid tag))
  | input => exact .safe (.finished (.startInput tag))
  | quietVoid => exact .safe (.finished (.insertVoid tag))
  | image => exact .safe ((Written.parseError (by decide)).bind fun _ => .pure _)
  | textarea => exact .safe (.finished (.startTextarea (hask (by decide))))
  | iframe => exact .safe (.finished (.startIframe (hask (by decide))))
  | rawText => exact .safe (.finished (.insertTextOnly tag _ (hask (by decide))))
  | noscript =>
    have hn := mem_of_rule ["noscript"] hr (by decide) (by decide)
    exact .safe (.finished (.startNoscript (List.mem_singleton.mp hn)))
  | option => exact .safe (.finished (.startOption tag))
  | rubyBase | rubyText => exact .safe (.finished (.startRuby _ _ tag))
  | math => exact .safe (.finished (.insertForeign tag (by decide)))
  | svg => exact .safe (.finished (.insertForeign tag (by decide)))
  | misplaced => exact .safe (.finished (.parseError (by decide)))
  | formatting | other => exact .safe (.finished (.insertPlain tag))

/-! ### end tags of the body -/

/-- the end tag of a formatting element is refused where such an element is open further out -/
theorem closeFormatting_refuses (hn : name ∈ formattingNames) (k : Core) :
    Refuses token (closeFormatting name token) k fun _ _ => True := by
  refine .ask fun c hc => .ite (fun _ => .safe .popElement) fun _ => .ite (fun hopen => ?_)
    fun _ => closeOther_refuses name k
  subst hc
  obtain ⟨id, hid, hname⟩ := List.any_eq_true.mp hopen
  exact .refuse (.formatting hid (Tree.isHtmlOneOf_of_isHtml hname hn))

/-- nothing is open inside a paragraph that is the current node -/
theorem closeParagraph_covered {id : NodeId} (hid : k.entries.head? = some id)
    (hp : k.tree.isHtml "p" id = true) :
    Covered (closeParagraph token) k fun _ _ => True := by
  have hrest : Written token false true (do
      generateImpliedEndTags (some "p")
      expectCurrent ["p"] .misnestedTag
      popUntilTag "p") :=
    (Written.generateImpliedEndTags _).bind fun _ =>
      (Written.expectCurrent _ (by decide)).bind fun _ => .popUntilTag _
  obtain ⟨outside, he⟩ := List.head?_eq_some_iff.mp hid
  refine Covered.andThen (.ask fun c hc => ?_) fun _ j => hrest.covered rfl j
  subst hc
  have hsplit : OpenElements.splitAt? (c.tree.isHtmlOneOf ["p"]) c.openElements.entries =
      some ([], id, outside) := by
    rw [show c.openElements.entries = id :: outside from he]
    have hone := Tree.isHtmlOneOf_of_isHtml hp (List.mem_singleton_self "p")
    exact OpenElements.splitAt?_of_split hone fun _ h => absurd h List.not_mem_nil
  rw [hsplit]
  exact .value trivial

/-- the end tag of a paragraph that is not open makes one, and is not refused after that -/
theorem endParagraph_refuses (h : k.In .inBody) :
    Refuses token (endParagraph token) k fun _ _ => True := by
  refine .ask fun c _ => .ite (fun _ => .parseErrorThen _ (.covered ?_)) fun _ =>
    (Closes.closeParagraph k).mono fun _ _ _ => trivial
  obtain ⟨place, hp⟩ := h.exists_at (by decide) (by decide)
  refine (Does.insertImplied "p" hp).andThen (closeParagraph_covered rfl ?_)
  exact Tree.isHtml_attach_new rfl

theorem BodyEnd.apply_refuses {rule : BodyEnd} (h : k.In .inBody)
    (hr : BodyEnd.ofName name = rule) :
    Refuses (.endTag name) (rule.apply name) k fun _ _ => True := by
  have hscope : ∀ scope sparing, Refuses (.endTag name)
      (finished (closeInScope name scope sparing (.endTag name))) k fun _ _ => True :=
    fun scope sparing => Refuses.finished (Closes.closeInScope name scope sparing k)
  cases rule with
  | template =>
    have hn := mem_of_rule ["template"] hr (by decide) (by decide)
    exact .refuse (.unbuilt (beq_iff_eq.mpr (List.mem_singleton.mp hn)))
  | body => exact .safe (.finished .endBody)
  | html => exact .safe .endHtml
  | block | listItem | description | marker => exact hscope _ _
  | form => exact .safe (.finished .closeForm)
  | paragraph => exact (endParagraph_refuses h).finished
  | heading => exact Refuses.finished (Closes.closeHeading name k)
  | formatting =>
    have hn := mem_of_rule formattingNames hr (by decide) (by decide)
    exact (closeFormatting_refuses hn k).finished
  | lineBreak => exact .safe (.finished .endLineBreak)
  | other => exact (closeOther_refuses name k).finished

/-! ### all tokens -/

theorem inBodyRules_refuses (h : k.In .inBody) :
    Refuses token (inBodyRules token) k fun _ _ => True := by
  cases token with
  | character ch => exact .safe (.finished (.bodyCharacter ch))
  | comment data => exact .safe (.finished (.insertComment data))
  | doctype d => exact .safe (.finished (.parseError (by decide)))
  | startTag tag => exact BodyStart.apply_refuses k rfl
  | endTag name => exact BodyEnd.apply_refuses h rfl
  | endOfFile => exact .safe (.finished .endInput)

theorem textRules_refuses (hk : k.mode = .text) :
    Refuses token (textRules token) k fun _ _ => True := by
  cases token with
  | character ch => exact .safe (.finished (.insertText ch))
  | endOfFile =>
    exact .safe ((Written.parseError (by decide)).bind fun _ =>
      Written.leaveText.bind fun _ => .pure _)
  | endTag name => exact .safe (.finished .leaveText)
  | startTag _ | comment _ | doctype _ => exact .refuse (.text hk rfl)

theorem modeRules_refuses (h : k.In m) : Refuses token (modeRules m token) k fun _ _ => True := by
  cases m with
  | initial => exact .safe (.initialRules token)
  | beforeHtml => exact .safe (.beforeHtmlRules token)
  | beforeHead => exact .safe (.beforeHeadRules token)
  | inHead => exact inHeadRules_refuses k
  | inHeadNoscript => exact inHeadNoscriptRules_refuses k
  | afterHead => exact afterHeadRules_refuses h
  | inBody => exact inBodyRules_refuses h
  | text => exact textRules_refuses h.mode
  | afterBody => exact .safe (.afterBodyRules token)
  | afterAfterBody => exact .safe (.afterAfterBodyRules token)
  | _ => exact (h.stack (by decide)).elim

/-! ## one round -/

/-- **What a round refuses.** -/
theorem dispatch_refuses (h : k.In m) : Refuses token (dispatch token) k fun _ _ => True := by
  have hleads : Leads true token (foreignStage token) k _ := foreignStage_leads h
  have hhands := hleads.and (HandsOn.foreignStage token k)
  have hw : Written token false true (foreignStage token) := .foreignStage token
  have hstage := hhands.and (hw.covered rfl k)
  refine Ends.bind (Ends.mono hstage (fun _ _ hj => hj.1)
    fun _ _ he mode t hu => absurd hu (he.2 mode t)) fun v j hj => ?_
  cases v with
  | done => exact Ends.value trivial
  | toMode =>
    obtain ⟨⟨_, hin⟩, hspares⟩ := hj
    exact Ends.ofMode (hin rfl).mode ((modeRules_refuses (hin rfl).toIn).spared (hspares rfl))

/-- an `img` tag is dealt with in the body at once -/
theorem dispatch_img (h : k.In .inBody) (hn : tag.name = "img") :
    Covered (dispatch (.startTag tag)) k fun v _ => v = .done := by
  have hleads : Leads true (.startTag tag) (foreignStage (.startTag tag)) k _ :=
    foreignStage_leads h
  have hw : Written (.startTag tag) false true (foreignStage (.startTag tag)) := .foreignStage _
  have hstage := hleads.and (hw.covered rfl k)
  refine Ends.bind (Ends.mono hstage (fun _ _ hj => hj.1) fun _ _ he => he.2) fun v j hj => ?_
  cases v with
  | done => exact .value rfl
  | toMode =>
    refine Ends.ofMode (hj.2 rfl).mode ?_
    show Covered ((BodyStart.ofName tag.name).apply tag) j _
    rw [hn]
    have hvoid : Written (.startTag tag) false true (startVoid tag) := .startVoid tag
    exact (hvoid.covered rfl j).bind fun _ _ _ => .value rfl

/-! ## all rounds of a token -/

/-- some of the elements around the content have been made that were still to come, and where none
was the document is the same -/
structure Core.Implied (k j : Core) : Prop where
  gained : ∃ names, names.Sublist k.mode.missing ∧ k.tree.Gained names j.tree
  same : k.mode.missing = [] → j.tree = k.tree

namespace Core

theorem Implied.ofSame (h : j.tree = k.tree) : k.Implied j := by
  refine ⟨⟨[], List.nil_sublist _, ?_⟩, fun _ => h⟩
  rw [h]
  exact .none k.tree k.tree.mode

theorem GoesOn.implied {i : Core} (hg : k.GoesOn i) (h : i.Implied j) : k.Implied j := by
  obtain ⟨⟨names, hsub, hgained⟩, hsame⟩ := h
  cases hg with
  | keep mode ht hmode _ hm =>
    rw [hm] at hsub hsame
    rw [ht] at hgained hsame
    refine ⟨⟨names, hsub, hgained.setMode⟩, fun hnone => (hsame hnone).trans ?_⟩
    have hinitial : k.mode ≠ .initial := fun he => by
      rw [he] at hnone
      cases hnone
    rw [hmode hinitial]
    rfl
  | @imply place name ht _ hm =>
    rw [ht] at hgained
    refine ⟨⟨name :: names, ?_, hgained.attach⟩, fun hnone => ?_⟩ <;> rw [hm] at *
    · exact hsub.cons_cons name
    · cases hnone

/-- a reason that there is after a round was there before it -/
theorem GoesOn.lacks {i : Core} (hg : k.GoesOn i) (hs : k.Sound) (hm : i.mode ≠ .text)
    (h : i.Lacks token) : k.Lacks token := by
  cases h with
  | text htext _ => exact absurd htext hm
  | unbuilt ht => exact .unbuilt ht
  | @formatting id hid hf =>
    cases hg with
    | keep mode ht _ he _ =>
      rw [ht] at hf
      exact .formatting (he hid) hf
    | @imply place name ht he hmissing =>
      rw [ht] at hf
      rcases List.mem_cons.mp (he hid) with rfl | hold
      · -- the elements around the content are no formatting elements
        have hsub := k.mode.missing_sublist
        rw [hmissing] at hsub
        have hno : ∀ n ∈ outerNames, n ∉ formattingNames := by decide
        have hnew : (k.tree.attach place (.element (.bare name .html))).isHtml name _ = true :=
          Tree.isHtml_attach_new (beq_self_eq_true name)
        rw [Tree.isHtmlOneOf_eq_false hnew (hno name (hsub.subset List.mem_cons_self))] at hf
        cases hf
      · refine .formatting hold ?_
        rw [← Tree.isHtmlOneOf_congr ((k.tree.within_attach place _).label?
          (hs.bears.index_lt id hold))]
        exact hf

end Core

theorem processWithin_img (n : Nat) (h : k.In .inBody) (hn : tag.name = "img") :
    Covered (processWithin n (.startTag tag)) k fun _ _ => True := by
  cases n with
  | zero => exact .violated _
  | succ n =>
    refine Ends.bind (dispatch_img h hn) ?_
    rintro _ j rfl
    exact .value trivial

/-- **What all rounds of a token refuse.** -/
theorem processWithin_refuses (n : Nat) (h : k.In m) (hne : token ≠ .endOfFile) :
    Ends (processWithin n token) k (fun _ _ => True) fun e j =>
      e.Grounded k token k.Implied j := by
  induction n generalizing k m with
  | zero => exact fun _ _ _ _ => Failure.noConfusion
  | succ n ih =>
    have hround := ((dispatch_leads h).and (dispatch_onward h hne)).and (dispatch_refuses h)
    refine Ends.bind (Ends.mono hround (fun _ _ hq => hq.1)
      fun _ _ he => he.2.mono id Core.Implied.ofSame) fun v i hv => ?_
    cases v with
    | done => exact Ends.value trivial
    | reprocess t =>
      obtain ⟨⟨hm, hst, hstop, _⟩, honward⟩ := hv
      have ho : k.Onward token t i := honward t rfl
      rcases hst with rfl | ⟨tag, rfl, hn, rfl⟩
      · exact Ends.mono (ih ⟨hm.sound h.sound, rfl, hstop⟩) (fun _ _ hq => hq)
          fun _ _ he => he.mono (ho.goesOn.lacks h.sound ho.mode) ho.goesOn.implied
      · rcases ho.token with he | hbody
        · rw [← Token.startTag.inj he] at hn
          exact absurd (show "img" = "image" from hn) (by decide)
        · exact Ends.mono (processWithin_img n ⟨hm.sound h.sound, hbody, hstop⟩ rfl)
            (fun _ _ hq => hq) fun _ _ he mode u hu => absurd hu (he mode u)

theorem processToken_refuses (h : k.In m) (hne : token ≠ .endOfFile) :
    Ends (processToken token) k (fun _ _ => True) fun e j =>
      e.Grounded k token k.Implied j :=
  Ends.processToken (P := fun _ => True) (processWithin_refuses maxRounds h hne)
    fun _ _ _ _ _ => Failure.noConfusion

namespace Constructor
variable {c : Constructor}

theorem process_refuses (h : c.core.Sound) (hs : c.stopped = false) (token : Token) (e : Failure)
    (he : (c.process token).1 = .error e) :
    e.Grounded c.core token c.core.Implied (c.process token).2.core := by
  by_cases hne : token = .endOfFile
  · subst hne
    have hends := process_endOfFile h hs
    rw [he] at hends
    exact fun mode t hu => absurd hu (hends mode t)
  cases hskip : c.skips token with
  | true =>
    rw [process_of_skips hskip] at he
    cases he
  | false =>
    have hrefuses : Ends (processToken token) c.core _ _ := processToken_refuses (in_mode h hs) hne
    have hrun := Ends.process hrefuses hskip
    rw [he] at hrun
    exact hrun

end Constructor

/-- **What a token that is refused leaves behind.**  It is named, with the mode in which it is
refused.  The document has gained at most elements that were still missing around its content,
without attributes and in their order, and its mode may have been decided on; from the body on it is
the same as before. -/
theorem refusal_implied (options : Options) (calls : List Call) (token t : Token) (mode : Mode)
    (hactive : ((Constructor.new options).after calls).stopped = false)
    (he : (((Constructor.new options).after calls).process token).1 =
      .error (.unsupportedInput mode t)) :
    let c := (Constructor.new options).after calls
    let d := (c.process token).2
    t = token ∧ mode = d.mode ∧
      (∃ names : List String, names.Sublist ["html", "head", "body"] ∧
        c.tree.Gained names d.tree) ∧
      (c.mode ∈ [.inBody, .afterBody, .afterAfterBody, .text] → d.tree = c.tree) := by
  intro c d
  have h : c.core.Sound := Constructor.after_sound options calls
  obtain ⟨hmode, ht, _, himplied⟩ := Constructor.process_refuses h hactive token _ he mode t rfl
  obtain ⟨names, hsub, hgained⟩ := himplied.gained
  refine ⟨ht, hmode, ⟨names, hsub.trans c.mode.missing_sublist, hgained⟩, fun hm => ?_⟩
  have hnone : ∀ m ∈ [Mode.inBody, .afterBody, .afterAfterBody, .text], m.missing = [] := by decide
  exact himplied.same (hnone c.mode hm)

/-- the first token is a table: the elements around the content are made, and then it is refused -/
theorem refusal_implied_table :
    let c := (Constructor.new .default).after []
    let d := (c.process (.startTagNamed "table")).2
    c.stopped = false ∧
      (c.process (.startTagNamed "table")).1 =
        .error (.unsupportedInput .inBody (.startTagNamed "table")) ∧
      Mode.inBody = d.mode ∧ d.tree.size = 4 ∧
      ∃ names : List String, names.Sublist ["html", "head", "body"] ∧ c.tree.Gained names d.tree :=
  have himplied := refusal_implied .default [] (.startTagNamed "table") (.startTagNamed "table")
    .inBody rfl (by decide +kernel)
  ⟨rfl, by decide +kernel, himplied.2.1, by decide +kernel, himplied.2.2.1⟩

end HtmlTree
