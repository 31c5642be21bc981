import HtmlTree.Proofs.Forest
import HtmlTree.Proofs.Growth

/-!
# Building in the body

Of the steps that build content in the body each has one outcome, as long as what is open is HTML
without a paragraph.  Then a token makes one change of the document and of the open elements, and
leaves nothing else behind: no error, no request and nothing that the next token would depend on.

* `Site`                  document and open elements, `Constructor.Building` a constructor at work;
* `Works`                 a step succeeds and makes of one site another;
* `Site.At`               the current node, in HTML without a paragraph;
* `bodyRules_comment`, `bodyRules_character`, `bodyRules_void`, `bodyRules_start`,
  `bodyRules_end`, `bodyRules_endOfFile`   the rules of the body there;
* `Feeds`                 tokens make of one site another, `Feeds.one` one token.
-/

namespace HtmlTree

/-- what is being built -/
structure Site where
  tree : Tree
  /-- the open elements, the current node first -/
  entries : List NodeId
  /-- the self-closing flag of the current token has been put to use -/
  used : Bool
  stopped : Bool

/-- a constructor with the default options that builds in the body, without any error so far -/
structure Constructor.Building (c : Constructor) (s : Site) : Prop where
  options : c.options = .default
  mode : c.mode = .inBody
  skipLineFeed : c.skipLineFeed = false
  request : c.requestedState = none
  errors : c.errors = #[]
  tree : c.tree = s.tree
  entries : c.openElements.entries = s.entries
  used : c.selfClosingUsed = s.used
  stopped : c.stopped = s.stopped

variable {α β : Type} {x : Step α} {f : α → Step β} {a : α} {b : β} {s s' s'' : Site}
  {place id : NodeId} {outside : List NodeId} {token : Token} {name : String}

/-! ## steps with one outcome -/

/-- the step succeeds at this site, answers `a` and leaves the other site -/
def Works (x : Step α) (s : Site) (a : α) (s' : Site) : Prop :=
  ∀ c : Constructor, c.Building s → ∃ c', x.run c = (.ok a, c') ∧ c'.Building s'

namespace Works

theorem value (a : α) (s : Site) : Works (pure a) s a s := fun c hc => ⟨c, rfl, hc⟩

theorem bind (hx : Works x s a s') (hf : Works (f a) s' b s'') : Works (x >>= f) s b s'' := by
  intro c hc
  obtain ⟨d, hrun, hd⟩ := hx c hc
  obtain ⟨e, hrest, he⟩ := hf d hd
  exact ⟨e, (Step.run_bind_ok hrun).trans hrest, he⟩

theorem ask {f : Constructor → Step α} (h : ∀ c, c.Building s → Works (f c) s a s') :
    Works (get >>= f) s a s' := fun c hc => by
  rw [Step.run_get_bind]
  exact h c hc c hc

theorem change {g : Constructor → Constructor} (h : ∀ c, c.Building s → (g c).Building s') :
    Works (modify g) s () s' := fun c hc => ⟨g c, rfl, h c hc⟩

theorem finished {x : Step Unit} (h : Works x s () s') : Works (finished x) s .done s' :=
  h.bind (value _ _)

theorem framesetNotOk (s : Site) : Works framesetNotOk s () s := change fun _ hc => { hc with }

theorem useSelfClosing (s : Site) : Works useSelfClosing s () { s with used := true } :=
  change fun _ hc => { hc with used := rfl }

theorem currentNode (h : s.entries.head? = some id) : Works currentNode s id s := by
  refine ask fun c hc => ?_
  have hid : c.openElements.current? = some id := by
    rw [← hc.entries] at h
    exact h
  rw [hid]
  exact value id s

theorem pushElement (id : NodeId) (s : Site) :
    Works (pushElement id) s () { s with entries := id :: s.entries } :=
  change fun _ hc => { hc with entries := congrArg (id :: ·) hc.entries }

theorem popElement (s : Site) : Works popElement s () { s with entries := s.entries.tail } :=
  change fun _ hc => { hc with entries := congrArg List.tail hc.entries }

theorem appendNew {d : NodeData} (hg : s.tree.Grown) (h : s.tree.Accepts place d) :
    Works (appendNew place d) s ⟨s.tree.size⟩ { s with tree := s.tree.attach place d } := by
  intro c hc
  have happ : (c.tree.alloc d).2.appendChild place ⟨c.tree.size⟩ =
      (.ok ⟨c.tree.size⟩, c.tree.attach place d) := by
    rw [hc.tree]
    exact Tree.appendChild_alloc hg h
  rw [appendNew_run]
  dsimp only
  rw [happ]
  refine ⟨{ c with tree := c.tree.attach place d }, by rw [← hc.tree], { hc with tree := ?_ }⟩
  exact congrArg (·.attach place d) hc.tree

end Works

/-! ## in HTML without a paragraph -/

/-- the current node and what is open around it, all of it HTML and none of it a paragraph -/
structure Site.At (s : Site) (place : NodeId) (outside : List NodeId) : Prop where
  grown : s.tree.Grown
  active : s.stopped = false
  entries : s.entries = place :: outside
  plain : ∀ id ∈ s.entries, ∃ name, s.tree.isHtml name id = true ∧ name ≠ "p"

/-- the site when the next token is taken -/
def Site.next (s : Site) : Site := { s with used := false }

namespace Site.At

theorem head (h : s.At place outside) : s.entries.head? = some place := by rw [h.entries]; rfl

theorem named (h : s.At place outside) : ∃ name, s.tree.isHtml name place = true ∧ name ≠ "p" :=
  h.plain place (List.mem_of_mem_head? h.head)

theorem label (h : s.At place outside) : (s.tree.label? place).isSome = true := by
  obtain ⟨_, hname, _⟩ := h.named
  exact Tree.label?_isSome_of_isHtml hname

theorem lt (h : s.At place outside) : place.index < s.tree.size := Tree.index_lt_of_label? h.label

theorem accepts (h : s.At place outside) {d : NodeData} (hd : d.isContent = true) :
    s.tree.Accepts place d := Tree.accepts_of_label? h.label hd

theorem next (h : s.At place outside) : s.next.At place outside := ⟨h.grown, h.active, h.entries, h.plain⟩

theorem within (h : s.At place outside) {t : Tree} (hg : t.Grown) (hw : s.tree.Within t)
    (used : Bool) : ({ s with tree := t, used } : Site).At place outside where
  grown := hg
  active := h.active
  entries := h.entries
  plain := fun id hid => by
    obtain ⟨name, hname, hne⟩ := h.plain id hid
    exact ⟨name, hw.isHtml hname, hne⟩

theorem attach (h : s.At place outside) (d : NodeData) (used : Bool) :
    ({ s with tree := s.tree.attach place d, used } : Site).At place outside :=
  h.within (h.grown.attach h.lt) (Tree.within_attach _ _ _) used

theorem longer (h : s.At place outside) (last : NodeId) (ch : Char) (used : Bool) :
    ({ s with tree := s.tree.modifyData last (.lengthen ch), used } : Site).At place outside :=
  h.within (h.grown.modifyData rfl)
    (Tree.within_modifyData _ _ (NodeData.kind_lengthen ch) (NodeData.label?_lengthen ch)) used

theorem opened (h : s.At place outside) {e : Element} (he : e.isHtml name = true) (hne : name ≠ "p")
    (used : Bool) :
    ({ s with
        tree := s.tree.attach place (.element e)
        entries := ⟨s.tree.size⟩ :: s.entries
        used } : Site).At ⟨s.tree.size⟩ (place :: outside) where
  grown := h.grown.attach h.lt
  active := h.active
  entries := congrArg (_ :: ·) h.entries
  plain := fun id hid => by
    rcases List.mem_cons.mp hid with rfl | hid
    · exact ⟨name, Tree.isHtml_attach_new he, hne⟩
    · exact (h.attach (.element e) used).plain id hid

theorem closed (h : s.At id (place :: outside)) (used : Bool) :
    ({ s with entries := place :: outside, used } : Site).At place outside where
  grown := h.grown
  active := h.active
  entries := rfl
  plain := fun x hx => h.plain x (by rw [h.entries]; exact List.mem_cons_of_mem _ hx)

/-- no paragraph is in scope -/
theorem no_paragraph (h : s.At place outside) {c : Constructor} (hc : c.Building s)
    (scope : Scope) : c.hasInScope "p" scope = false := by
  rw [← Bool.not_eq_true]
  intro hp
  obtain ⟨inside, id, rest, hsplit, hid, _⟩ := OpenElements.exists_split_of_reaches hp
  rw [hc.entries] at hsplit
  rw [hc.tree, Tree.isHtmlOneOf_singleton] at hid
  obtain ⟨name, hname, hne⟩ := h.plain id (by rw [hsplit]; simp)
  rw [Tree.isHtml_eq_false hname (Ne.symm hne)] at hid
  cases hid

theorem not_foreign (h : s.At place outside) {c : Constructor} (hc : c.Building s)
    (token : Token) : c.foreignNamespace? token = none := by
  obtain ⟨name, hname, _⟩ := h.named
  obtain ⟨e, he, hns, _⟩ := Tree.exists_of_isHtml hname
  have hcur : c.currentElement? = some e := by
    show c.openElements.entries.head?.bind c.tree.element? = _
    rw [hc.entries, hc.tree, h.head]
    exact he
  unfold Constructor.foreignNamespace?
  rw [hcur]
  exact if_pos (by rw [hns]; rfl)

end Site.At

/-! ## inserting -/

namespace Works

theorem insertHtml (tag : StartTag) (h : s.At place outside) :
    Works (insertHtml tag) s ⟨s.tree.size⟩
      { s with
        tree := s.tree.attach place (.element (.ofTag tag.name tag.attributes .html))
        entries := ⟨s.tree.size⟩ :: s.entries } :=
  (currentNode h.head).bind <| (appendNew h.grown (h.accepts rfl)).bind <|
    (pushElement _ _).bind (value _ _)

theorem insertPlain (tag : StartTag) (h : s.At place outside) :
    Works (insertPlain tag) s ()
      { s with
        tree := s.tree.attach place (.element (.ofTag tag.name tag.attributes .html))
        entries := ⟨s.tree.size⟩ :: s.entries } :=
  (insertHtml tag h).bind (value _ _)

theorem insertVoid (tag : StartTag) (h : s.At place outside) :
    Works (insertVoid tag) s ()
      { s with
        tree := s.tree.attach place (.element (.ofTag tag.name tag.attributes .html))
        used := true } :=
  (insertHtml tag h).bind <| (popElement _).bind (useSelfClosing _)

theorem closeOpenParagraph (token : Token) (h : s.At place outside) :
    Works (closeOpenParagraph token) s () s := by
  refine ask fun c hc => ?_
  rw [h.no_paragraph hc]
  exact value _ _

theorem generateImpliedEndTags {except : Option String} (h : s.At place outside)
    (himp : s.tree.implied except place = false) : Works (generateImpliedEndTags except) s () s := by
  refine change fun c hc => { hc with entries := ?_ }
  show c.openElements.entries.dropWhile (c.tree.implied except) = s.entries
  rw [hc.entries, hc.tree, h.entries, List.dropWhile_cons_of_neg (by rw [himp]; exact nofun)]

theorem expectCurrent (kind : ParseErrorKind) (h : s.At place outside)
    (hname : s.tree.isHtml name place = true) : Works (expectCurrent [name] kind) s () s := by
  refine ask fun c hc => ?_
  have hcur : c.currentIsHtml name = true := by
    show c.openElements.entries.head?.any (c.tree.isHtml name) = true
    rw [hc.entries, hc.tree, h.head]
    exact hname
  have hany : [name].any c.currentIsHtml = true := by rw [List.any_cons, hcur, Bool.true_or]
  rw [hany]
  exact value _ _

theorem popUntilTag (h : s.At place outside) (hname : s.tree.isHtml name place = true) :
    Works (popUntilTag name) s () { s with entries := outside } := by
  refine change fun c hc => { hc with entries := ?_ }
  show (c.openElements.entries.dropWhile fun id => !c.tree.isHtmlOneOf [name] id).tail = outside
  rw [Tree.isHtmlOneOf_singleton, hc.entries, hc.tree, h.entries,
    List.dropWhile_cons_of_neg (by rw [hname]; exact nofun)]
  rfl

theorem keepFormatting (token : Token) (s : Site) : Works (keepFormatting [] token) s () s :=
  ask fun _ _ => value _ _

theorem keepFormattingIn (token : Token) (h : s.At place outside)
    (hname : s.tree.isHtml name place = true) : Works (keepFormattingIn [name] token) s () s := by
  refine ask fun c hc => ?_
  have hsplit : OpenElements.splitAt? (c.tree.isHtmlOneOf [name]) c.openElements.entries =
      some ([], place, outside) := by
    rw [Tree.isHtmlOneOf_singleton, hc.entries, hc.tree, h.entries]
    exact if_pos hname
  rw [hsplit]
  exact keepFormatting token s

end Works

/-! ## texts and comments -/

namespace Tree
variable {t : Tree} {last : NodeId} {ch : Char}

/-- the text at the end of a node -/
def lastText? (t : Tree) (place : NodeId) : Option NodeId :=
  (t.lastChild? place).filter (t.isKind .text)

/-- a character more: at the end of the text there, or as a new text -/
def withCharacter (t : Tree) (place : NodeId) (ch : Char) : Tree :=
  match t.lastText? place with
  | some last => t.modifyData last (.lengthen ch)
  | none => t.attach place (.text ⟨String.singleton ch⟩)

theorem withCharacter_of_text (h : t.lastText? place = some last) :
    t.withCharacter place ch = t.modifyData last (.lengthen ch) := by
  unfold withCharacter
  rw [h]

theorem withCharacter_of_none (h : t.lastText? place = none) :
    t.withCharacter place ch = t.attach place (.text ⟨String.singleton ch⟩) := by
  unfold withCharacter
  rw [h]

end Tree

namespace Works

theorem insertComment (data : String) (h : s.At place outside) :
    Works (insertComment data) s () { s with tree := s.tree.attach place (.comment ⟨data⟩) } :=
  (currentNode h.head).bind <| (appendNew h.grown (h.accepts rfl)).bind (value _ _)

theorem insertText (ch : Char) (h : s.At place outside) :
    Works (insertText ch) s () { s with tree := s.tree.withCharacter place ch } := by
  refine (currentNode h.head).bind (ask fun c hc => ?_)
  have hdoc : c.tree.isKind .document place = false := by
    obtain ⟨name, hname, _⟩ := h.named
    rw [hc.tree]
    have hkind := Tree.isKind_of_isHtml hname
    unfold Tree.isKind at hkind ⊢
    rw [eq_of_beq hkind]
    rfl
  rw [hdoc, if_neg Bool.false_ne_true, hc.tree]
  cases hlast : (s.tree.lastChild? place).filter (s.tree.isKind .text) with
  | some last =>
    rw [Tree.withCharacter_of_text hlast]
    exact change fun d hd => { hd with tree := congrArg (·.modifyData last (.lengthen ch)) hd.tree }
  | none =>
    rw [Tree.withCharacter_of_none hlast]
    exact (appendNew h.grown (h.accepts rfl)).bind (value _ _)

end Works

theorem bodyRules_comment (data : String) (h : s.At place outside) :
    Works (inBodyRules (.comment data)) s .done
      { s with tree := s.tree.attach place (.comment ⟨data⟩) } :=
  (Works.insertComment data h).finished

theorem bodyRules_character {ch : Char} (h : s.At place outside) (hch : ch ≠ '\x00') :
    Works (inBodyRules (.character ch)) s .done
      { s with tree := s.tree.withCharacter place ch } := by
  refine Works.finished ?_
  unfold bodyCharacter
  rw [if_neg hch]
  refine (Works.insertText ch h).bind ?_
  split
  · exact .framesetNotOk _
  · exact .value _ _

/-! ## start tags -/

/-- the rules for void elements; two of them are shared with other elements -/
theorem void_rules : ∀ n ∈ voidNames,
    BodyStart.ofName n = .headContent ∧ HeadStart.ofName? false n = some .void ∨
      BodyStart.ofName n ∈ [.void, .input, .quietVoid, .thematicBreak] := by decide

theorem bodyRules_void {tag : StartTag} (h : s.At place outside) (hn : tag.name ∈ voidNames) :
    Works (inBodyRules (.startTag tag)) s .done
      { s with
        tree := s.tree.attach place (.element (.ofTag tag.name tag.attributes .html))
        used := true } := by
  have hvoid := Works.insertVoid tag h
  show Works ((BodyStart.ofName tag.name).apply tag) s .done _
  rcases void_rules tag.name hn with ⟨hrule, hhead⟩ | hrule
  · rw [hrule]
    refine Works.finished (.ask fun c hc => ?_)
    rw [hc.options, show HeadStart.ofName? Options.default.scripting tag.name = _ from hhead]
    exact hvoid
  · simp only [List.mem_cons, List.not_mem_nil, or_false] at hrule
    rcases hrule with hrule | hrule | hrule | hrule <;> rw [hrule] <;> refine Works.finished ?_
    · exact hvoid.bind (.framesetNotOk _)
    · refine hvoid.bind ?_
      split
      · exact .framesetNotOk _
      · exact .value _ _
    · exact hvoid
    · exact (Works.closeOpenParagraph _ h).bind (hvoid.bind (.framesetNotOk _))

theorem HoldsContent.start_rule (h : HoldsContent name) :
    BodyStart.ofName name = .block ∨ BodyStart.ofName name = .formatting ∨
      BodyStart.ofName name = .noscript ∨ BodyStart.ofName name = .other := by
  have hblock : ∀ n ∈ blockNames, BodyStart.ofName n = .block := by decide
  have hformatting : ∀ n ∈ formattingNames, n ∉ ["a", "nobr"] →
      BodyStart.ofName n = .formatting := by decide
  rcases h with ⟨h, _⟩ | ⟨h, hne⟩ | ⟨h, _⟩
  · exact Or.inl (hblock name h)
  · exact Or.inr (Or.inl (hformatting name h hne))
  · rcases List.mem_cons.mp h with h | h
    · exact Or.inr (Or.inr (Or.inl h))
    · exact Or.inr (Or.inr (Or.inr (List.mem_singleton.mp h)))

theorem bodyRules_start {tag : StartTag} (h : s.At place outside) (hn : HoldsContent tag.name) :
    Works (inBodyRules (.startTag tag)) s .done
      { s with
        tree := s.tree.attach place (.element (.ofTag tag.name tag.attributes .html))
        entries := ⟨s.tree.size⟩ :: s.entries } := by
  have hplain := Works.insertPlain tag h
  show Works ((BodyStart.ofName tag.name).apply tag) s .done _
  rcases hn.start_rule with hrule | hrule | hrule | hrule <;> rw [hrule]
  · exact ((Works.closeOpenParagraph _ h).bind hplain).finished
  · exact hplain.finished
  · refine Works.finished (.ask fun c hc => ?_)
    have hscripting : c.options.scripting = false := congrArg Options.scripting hc.options
    rw [hscripting]
    exact hplain
  · exact hplain.finished

/-! ## end tags -/

theorem HoldsContent.ne_paragraph (h : HoldsContent name) : name ≠ "p" := by
  rintro rfl
  revert h
  decide

theorem HoldsContent.end_rule (h : HoldsContent name) :
    BodyEnd.ofName name = .block ∧ name ∉ impliedEndNames ∧ name ∉ markerNames ∨
      BodyEnd.ofName name = .formatting ∨ BodyEnd.ofName name = .other := by
  have hblock : ∀ n ∈ blockNames, n ≠ "p" →
      BodyEnd.ofName n = .block ∧ n ∉ impliedEndNames ∧ n ∉ markerNames := by decide
  have hformatting : ∀ n ∈ formattingNames, BodyEnd.ofName n = .formatting := by decide
  rcases h with ⟨h, hne⟩ | ⟨h, _⟩ | ⟨_, h⟩
  · exact Or.inl (hblock name h hne)
  · exact Or.inr (Or.inl (hformatting name h))
  · exact Or.inr (Or.inr h)

namespace Works
variable {scope : Scope}

/-- the end tag of the current node closes that and no more -/
theorem closeInScope (token : Token) (h : s.At place outside)
    (hname : s.tree.isHtml name place = true) (himp : name ∉ impliedEndNames)
    (hm : name ∉ markerNames) :
    Works (closeInScope name scope false token) s () { s with entries := outside } := by
  refine ask fun c hc => ?_
  have hin : c.hasInScope name scope = true := by
    show OpenElements.reaches (c.tree.isHtmlOneOf [name]) _ c.openElements.entries = true
    rw [Tree.isHtmlOneOf_singleton, hc.tree, hc.entries, h.entries, OpenElements.reaches, hname,
      Bool.true_or]
  have hnone : s.tree.implied none place = false := by
    rw [← Bool.not_eq_true]
    intro hi
    obtain ⟨other, hother, hlabel, _⟩ := Tree.implied_iff.mp hi
    rw [Tree.isHtml_iff.mp hname] at hlabel
    cases hlabel
    exact himp hother
  rw [if_pos hin, if_pos hm]
  exact (keepFormattingIn token h hname).bind <| (generateImpliedEndTags h hnone).bind <|
    (expectCurrent _ h hname).bind (popUntilTag h hname)

theorem closeOther (token : Token) (h : s.At place outside)
    (hname : s.tree.isHtml name place = true) :
    Works (closeOther name token) s () { s with entries := outside } := by
  refine ask fun c hc => ?_
  obtain ⟨e, he, hns, hlocal⟩ := Tree.exists_of_isHtml hname
  have hsplit : OpenElements.splitAt?
      (c.tree.elementSatisfies fun e => e.isHtml name || e.isSpecial) c.openElements.entries =
      some ([], place, outside) := by
    rw [hc.tree, hc.entries, h.entries]
    refine if_pos (Tree.elementSatisfies_iff.mpr ⟨e, he, ?_⟩)
    rw [Element.isHtml_iff.mpr ⟨hns, hlocal⟩, Bool.true_or]
  have himp : s.tree.implied (some name) place = false := by
    rw [← Bool.not_eq_true]
    intro hi
    obtain ⟨other, _, hlabel, hne⟩ := Tree.implied_iff.mp hi
    rw [Tree.isHtml_iff.mp hname] at hlabel
    cases hlabel
    exact hne rfl
  dsimp only
  rw [hsplit]
  dsimp only
  rw [hc.tree, if_pos hname]
  refine (keepFormatting token s).bind <| (generateImpliedEndTags h himp).bind <|
    ask fun d hd => ?_
  have hcur : d.openElements.current? = some place := by
    show d.openElements.entries.head? = _
    rw [hd.entries, h.head]
  rw [if_neg (not_not_intro hcur)]
  exact change fun _ hj => { hj with entries := rfl }

theorem closeFormatting (token : Token) (h : s.At place outside)
    (hname : s.tree.isHtml name place = true) :
    Works (closeFormatting name token) s () { s with entries := outside } := by
  refine ask fun c hc => ?_
  have hcur : c.currentIsHtml name = true := by
    show c.openElements.entries.head?.any (c.tree.isHtml name) = true
    rw [hc.entries, hc.tree, h.head]
    exact hname
  rw [if_pos hcur, show outside = s.entries.tail by rw [h.entries]; rfl]
  exact popElement s

end Works

theorem bodyRules_end (h : s.At place outside) (hname : s.tree.isHtml name place = true)
    (hn : HoldsContent name) :
    Works (inBodyRules (.endTag name)) s .done { s with entries := outside } := by
  show Works ((BodyEnd.ofName name).apply name) s .done _
  rcases hn.end_rule with ⟨hrule, himp, hm⟩ | hrule | hrule <;> rw [hrule]
  · exact (Works.closeInScope _ h hname himp hm).finished
  · exact (Works.closeFormatting _ h hname).finished
  · exact (Works.closeOther _ h hname).finished

/-! ## the end of the input -/

/-- the end of the input in the body leaves the document as it is, if no end tag is left out -/
theorem bodyRules_endOfFile (hleft : ∀ id ∈ s.entries, s.tree.isHtmlOneOf leftOpenNames id = true) :
    Works (inBodyRules .endOfFile) s .done { s with entries := [], stopped := true } := by
  refine Works.finished (.ask fun c hc => ?_)
  have hclosed : c.needsEndTag = false := by
    unfold Constructor.needsEndTag
    rw [hc.tree, hc.entries, List.any_eq_false]
    intro id hid hneeds
    obtain ⟨e, he, hneeds⟩ := Tree.elementSatisfies_iff.mp hneeds
    obtain ⟨f, hf, hone⟩ := Tree.elementSatisfies_iff.mp (hleft id hid)
    cases he.symm.trans hf
    rw [Element.mayBeLeftOpen, hone, Bool.or_true] at hneeds
    cases hneeds
  rw [hclosed]
  exact .change fun _ hd => { hd with entries := rfl, stopped := rfl }

/-! ## tokens -/

/-- these tokens make of the one site the other, whatever comes after them -/
def Feeds (s : Site) (tokens : List Token) (s' : Site) : Prop :=
  ∀ c : Constructor, c.Building s → ∃ c' : Constructor, c'.Building s' ∧
    ∀ rest, c.run (tokens ++ rest) = c'.run rest

namespace Feeds

theorem nil (s : Site) : Feeds s [] s := fun c hc => ⟨c, hc, fun _ => rfl⟩

theorem append {tokens more : List Token} (h : Feeds s tokens s') (h' : Feeds s' more s'') :
    Feeds s (tokens ++ more) s'' := by
  intro c hc
  obtain ⟨d, hd, hrun⟩ := h c hc
  obtain ⟨e, he, hrest⟩ := h' d hd
  refine ⟨e, he, fun rest => ?_⟩
  rw [List.append_assoc, hrun, hrest]

end Feeds

/-- a token of the body is processed in one round -/
theorem Works.process (h : s.At place outside)
    (hrule : Works (inBodyRules token) s.next .done s')
    (hused : token.isSelfClosingStartTag = true → s'.used = true) :
    Works (processToken token) s.next () s' := by
  have hdispatch : Works (dispatch token) s.next .done s' := by
    have hforeign : Works (foreignStage token) s.next .toMode s.next := .ask fun c hc => by
      rw [h.next.not_foreign hc]
      exact .value _ _
    refine hforeign.bind (.ask fun c hc => ?_)
    rw [hc.mode]
    exact hrule
  have hwithin : Works (processWithin maxRounds token) s.next () s' := hdispatch.bind (.value _ _)
  refine hwithin.bind (.ask fun c hc => ?_)
  have hno : (token.isSelfClosingStartTag && !c.selfClosingUsed) = false := by
    rw [hc.used]
    cases hs : token.isSelfClosingStartTag with
    | false => rfl
    | true => rw [hused hs]; rfl
  rw [hno]
  exact .value _ _

theorem Feeds.one (h : s.At place outside) (hrule : Works (inBodyRules token) s.next .done s')
    (hused : token.isSelfClosingStartTag = true → s'.used = true) : Feeds s [token] s' := by
  intro c hc
  have hskip : c.skips token = false := by
    unfold Constructor.skips
    rw [hc.skipLineFeed]
    rfl
  obtain ⟨d, hrun, hd⟩ := Works.process h hrule hused (c.begun token)
    { hc with skipLineFeed := rfl, used := rfl }
  have hprocess : c.process token = (.ok (), d.counted) := by
    rw [Constructor.process_of_not_skips hskip, hrun]
  have hrequest : d.counted.takeRequest = ([], d.counted) := by
    unfold Constructor.takeRequest
    rw [show d.counted.requestedState = none from hd.request]
  refine ⟨d.counted, { hd with }, fun rest => ?_⟩
  rw [List.singleton_append, Constructor.run_cons_ok (hc.stopped.trans h.active) (by rw [hprocess])]
  unfold Constructor.next Constructor.requestsOf
  rw [hprocess, hrequest]
  rfl

end HtmlTree
