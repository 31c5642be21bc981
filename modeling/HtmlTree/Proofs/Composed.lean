import HtmlTree.Proofs.Edits
import HtmlTree.Proofs.HeadRules
import HtmlTree.Proofs.Margin

/-!
# What rules are made of

Every rule is put together from a handful of steps: looking at the constructor, changing its
bookkeeping, appending a new node, reporting.  `Composed` is that grammar.  What each of these steps
respects and what survives their composition holds of every rule, and of rules still to come.
`Written` is the grammar of the rules for one token: what they make comes from the token, only one
of their steps depends on the margin, none reports a self-closing flag, and it is said of a rule
whether it may give up on the token, or have a line feed passed over.

* `Constructor.setStrict`   the same constructor with another strictness;
* `Journal.NoWarning`       no warning has been noticed;
* `Change`, `Turn`          a change that neither reports nor looks at the strictness or the margin;
* `Composed`                the grammar; by `Composed.processToken` a token is processed by it;
* `Composed.rel`, `Written.rel`   what every run keeps, because its steps do;
* `Element.ComesFrom`       the HTML elements that the rules for a token may make;
* `Written`                 the grammar for one token; by `Written.dispatch` a round is written so.
-/

namespace HtmlTree

/-- the same constructor, strict or not -/
def Constructor.setStrict (c : Constructor) (strict : Bool) : Constructor :=
  { c with options := { c.options with strict } }

/-- more may have been noticed, but no warning -/
structure Journal.NoWarning (j j' : Journal) : Prop where
  notices : ∃ added, j'.notices.toList = j.notices.toList ++ added ∧
    ∀ n ∈ added, n.isWarning = false
  warned : j'.warned = j.warned

namespace Journal.NoWarning
variable {i j k : Journal}

theorem refl (j : Journal) : j.NoWarning j :=
  ⟨⟨[], (List.append_nil _).symm, fun _ h => absurd h List.not_mem_nil⟩, rfl⟩

theorem trans (h : i.NoWarning j) (h' : j.NoWarning k) : i.NoWarning k where
  notices := by
    obtain ⟨a, ha, hquiet⟩ := h.notices
    obtain ⟨b, hb, hquiet'⟩ := h'.notices
    refine ⟨a ++ b, by rw [hb, ha, List.append_assoc], fun n hn => ?_⟩
    exact (List.mem_append.mp hn).elim (hquiet n) (hquiet' n)
  warned := h'.warned.trans h.warned

theorem add (j : Journal) {n : Notice} (h : n.isWarning = false) : j.NoWarning (j.add n) where
  notices := by
    refine ⟨[n], Array.toList_push, fun m hm => ?_⟩
    rw [List.mem_singleton.mp hm]
    exact h
  warned := rfl

end Journal.NoWarning

/-- what a change between two reports leaves alone, apart from a document that may grow -/
def Constructor.record (c : Constructor) : Options × Nat × Array ParseError :=
  (c.options, c.tokenIndex, c.errors)

/-- a change of a constructor between two reports -/
structure Change (g : Constructor → Constructor) : Prop where
  record : ∀ c, (g c).record = c.record
  tree : ∀ c : Constructor, c.tree.Within (g c).tree
  edits : ∀ c : Constructor, c.tree.EditsTo (g c).tree
  setStrict : ∀ c strict, g (c.setStrict strict) = (g c).setStrict strict
  journal : ∀ c : Constructor, c.journal.NoWarning (g c).journal

/-- a change that leaves the document and the journal alone as well -/
theorem Change.quiet {g : Constructor → Constructor} (h : ∀ c, (g c).record = c.record)
    (ht : ∀ c, (g c).tree = c.tree ∧ (g c).journal = c.journal)
    (hs : ∀ c strict, g (c.setStrict strict) = (g c).setStrict strict) : Change g :=
  ⟨h, fun c => by rw [(ht c).1]; exact Tree.Within.refl _,
    fun c => by rw [(ht c).1]; exact Tree.EditsTo.refl _, hs,
    fun c => by rw [(ht c).2]; exact .refl _⟩

inductive Composed : {α : Type} → Step α → Prop
  | pure {α : Type} (a : α) : Composed (pure a : Step α)
  | bind {α β : Type} {x : Step α} {f : α → Step β} :
      Composed x → (∀ a, Composed (f a)) → Composed (x >>= f)
  /-- what is looked up may not depend on the strictness -/
  | ask {α : Type} {f : Constructor → Step α} : (∀ c, Composed (f c)) →
      (∀ c strict, f (c.setStrict strict) = f c) → Composed (get >>= f)
  | change {g : Constructor → Constructor} : Change g → Composed (modify g : Step Unit)
  | appendNew (parent : NodeId) {d : NodeData} : d.isFragment = false →
      Composed (appendNew parent d)
  | parseError (kind : ParseErrorKind) : Composed (parseError kind)
  | unsupported {α : Type} (token : Token) : Composed (unsupported token : Step α)
  | violated {α : Type} (v : Violation) : Composed (violated v : Step α)
  /-- a change that is also made where the step before it failed -/
  | ensure {x : Step Unit} {g : Constructor → Constructor} : Composed x → Change g →
      (∀ c, (g c).tree = c.tree) → Composed (do
        tryCatch x fun e => do
          modify g
          throw e
        modify g)

/-! ## the rules for one token -/

/-- elements whose start tags may ask for a tokenizer state -/
def askingNames : List String := "plaintext" :: textOnlyNames

/-- the tags that may ask for a tokenizer state -/
def Token.asksForState : Token → Bool
  | .startTag tag => askingNames.contains tag.name
  | _ => false

/-- a change that makes no node, does not touch the line feed to be passed over either, and does not
depend on the margin; it is for one token, which may have to ask for a tokenizer state -/
structure Turn (token : Token) (g : Constructor → Constructor) : Prop extends Change g where
  size : ∀ c : Constructor, (g c).tree.size = c.tree.size
  skipLineFeed : ∀ c, (g c).skipLineFeed = c.skipLineFeed
  requestedState : token.asksForState = false → ∀ c, (g c).requestedState = c.requestedState
  withMargin : ∀ c m, (g (c.withMargin m)).withMargin m = (g c).withMargin m
  /-- the document's mode is settled for good where the document is the source of an `iframe` -/
  documentMode : ∃ settle : Bool → DocumentMode → DocumentMode,
    (∀ mode, settle true mode = mode) ∧
      ∀ c, (g c).tree.mode = settle c.options.iframeSrcdoc c.tree.mode

theorem Turn.quiet {token : Token} {g : Constructor → Constructor}
    (h : ∀ c, (g c).record = c.record ∧ (g c).tree = c.tree ∧ (g c).journal = c.journal ∧
      (g c).skipLineFeed = c.skipLineFeed)
    (hs : ∀ c strict, g (c.setStrict strict) = (g c).setStrict strict)
    (hm : ∀ c m, (g (c.withMargin m)).withMargin m = (g c).withMargin m)
    (hr : token.asksForState = false → ∀ c, (g c).requestedState = c.requestedState) :
    Turn token g :=
  ⟨.quiet (fun c => (h c).1) (fun c => ⟨(h c).2.1, (h c).2.2.1⟩) hs, fun c => by rw [(h c).2.1],
    fun c => (h c).2.2.2, hr, hm, fun _ mode => mode, fun _ => rfl, fun c => by rw [(h c).2.1]⟩

/-- the elements that need no tag -/
def impliedNames : List String := ["html", "head", "body", "p", "br"]

/-- an HTML element has the name of the token that it is made for, or needs none -/
def Element.ComesFrom (e : Element) (token : Token) : Prop :=
  e.ns = .html → e.localName ∈ impliedNames ∨
    ∃ tag : StartTag, token = .startTag tag ∧ e.localName = tag.name

/-- the tags behind which a line feed is passed over -/
def Token.skipsLineFeed : Token → Bool
  | .startTag tag => BodyStart.ofName tag.name == .preformatted ||
    BodyStart.ofName tag.name == .textarea
  | _ => false

theorem Token.skipsLineFeed_startTag {tag : StartTag} :
    (Token.startTag tag).skipsLineFeed = true ↔
      BodyStart.ofName tag.name = .preformatted ∨ BodyStart.ofName tag.name = .textarea := by
  unfold skipsLineFeed
  rw [Bool.or_eq_true, beq_iff_eq, beq_iff_eq]

theorem Token.asksForState_startTag {tag : StartTag} :
    (Token.startTag tag).asksForState = true ↔ tag.name ∈ askingNames := List.contains_iff_mem

/-- the rules of the body that may ask for a tokenizer state -/
def BodyStart.asking : List BodyStart := [plaintext, textarea, xmp, iframe, rawText, noscript]

theorem BodyStart.mem_askingNames {name : String} {rule : BodyStart} (h : ofName name = rule)
    (hr : rule ∈ asking) : name ∈ askingNames := by
  have hother : other ∉ asking := by decide
  have htable : ∀ r ∈ table, r.1 ∈ asking → ∀ n ∈ r.2, n ∈ askingNames := by decide
  refine mem_of_rule askingNames h (fun he => hother (he ▸ hr)) fun r hmem he => ?_
  exact htable r hmem (he ▸ hr)

inductive Written (token : Token) (refuses skips : Bool) : {α : Type} → Step α → Prop
  | pure {α : Type} (a : α) : Written token refuses skips (pure a : Step α)
  | bind {α β : Type} {x : Step α} {f : α → Step β} : Written token refuses skips x →
      (∀ a, Written token refuses skips (f a)) → Written token refuses skips (x >>= f)
  /-- what is looked up may not depend on the margin; whether scripts run matters to one tag -/
  | ask {α : Type} {f : Constructor → Step α} : (∀ c, Written token refuses skips (f c)) →
      (∀ c m, (token.StartsNoscript → m.options.scripting = c.options.scripting) →
        f (c.withMargin m) = f c) → Written token refuses skips (get >>= f)
  | change {g : Constructor → Constructor} : Turn token g →
      Written token refuses skips (modify g : Step Unit)
  | skipNextLineFeed : skips = true → Written token refuses skips skipNextLineFeed
  | appendNew (parent : NodeId) {d : NodeData} : d.isFragment = false →
      (∀ e, d = .element e → e.ComesFrom token) → Written token refuses skips (appendNew parent d)
  /-- a self-closing flag without use is not reported by a rule, but behind all of them -/
  | parseError {kind : ParseErrorKind} : kind ≠ .nonVoidSelfClosingTag →
      Written token refuses skips (parseError kind)
  | unsupported {α : Type} (t : Token) : refuses = true →
      Written token refuses skips (unsupported t : Step α)
  | violated {α : Type} (v : Violation) : Written token refuses skips (violated v : Step α)
  /-- the one step that asks whether the document is the source of an `iframe` -/
  | missDoctype (t : Token) : Written token refuses skips (missDoctype t)
  | ensure {x : Step Unit} {g : Constructor → Constructor} : Written token refuses skips x →
      Turn token g → (∀ c, (g c).tree = c.tree) → Written token refuses skips (do
        tryCatch x fun e => do
          modify g
          throw e
        modify g)

/-- the document's mode is settled, unless the document is the source of an `iframe` -/
theorem Turn.settleMode {token : Token} (mode : DocumentMode) : Turn token
    fun c => if c.options.iframeSrcdoc then c else { c with tree := c.tree.setMode mode } := by
  refine ⟨⟨fun c => ?_, fun c => ?_, fun c => ?_, fun c strict => ?_, fun c => ?_⟩, fun c => ?_,
    fun c => ?_, fun _ c => ?_, fun c m => ?_, fun srcdoc old => if srcdoc then old else mode,
    fun old => rfl, fun c => ?_⟩
  case refine_2 =>
    split
    · exact Tree.Within.refl _
    · exact Tree.within_setMode _ _
  case refine_3 =>
    split
    · exact Tree.EditsTo.refl _
    · exact c.tree.editsTo_one (.setMode mode)
  case refine_4 =>
    show (if c.options.iframeSrcdoc then _ else _) = _
    split <;> rfl
  case refine_5 => split <;> exact .refl _
  case refine_9 => split <;> split <;> rfl
  case refine_10 =>
    show (if c.options.iframeSrcdoc then c else _).tree.mode = ite _ _ _
    cases c.options.iframeSrcdoc <;> rfl
  all_goals split <;> rfl

theorem Written.composed {token : Token} {r s : Bool} {α : Type} {x : Step α}
    (h : Written token r s x) : Composed x := by
  induction h with
  | pure a => exact .pure a
  | bind _ _ ihx ihf => exact ihx.bind ihf
  | ask _ hmargin ih =>
    exact .ask ih fun c strict => hmargin c (c.setStrict strict).margin fun _ => rfl
  | change hg => exact .change hg.toChange
  | skipNextLineFeed => exact .change (.quiet (fun _ => rfl) (fun _ => ⟨rfl, rfl⟩) fun _ _ => rfl)
  | appendNew parent hd => exact .appendNew parent hd
  | parseError => exact .parseError _
  | unsupported t => exact .unsupported t
  | violated v => exact .violated v
  | missDoctype t =>
    have hmode : Composed (switchTo .beforeHtml) :=
      .change (.quiet (fun _ => rfl) (fun _ => ⟨rfl, rfl⟩) fun _ _ => rfl)
    refine .ask (fun c => ?_) fun _ _ => rfl
    split
    · refine (Composed.parseError _).bind fun _ => (Composed.change ?_).bind fun _ =>
        hmode.bind fun _ => .pure _
      exact ⟨fun _ => rfl, fun c => Tree.within_setMode _ _,
        fun c => c.tree.editsTo_one (.setMode .quirks), fun _ _ => rfl, fun _ => .refl _⟩
    · exact hmode.bind fun _ => .pure _
  | ensure _ hg ht ih => exact ih.ensure hg.toChange ht

/-! ## what a run keeps -/

section
variable {R : Constructor → Constructor → Prop} {α β : Type} {x : Step α}

/-- the runs of two steps one after the other -/
theorem Step.bind_rel {f : α → Step β} (htrans : ∀ {a b c}, R a b → R b c → R a c)
    (hx : ∀ c, R c (x.run c).2) (hf : ∀ a c, R c ((f a).run c).2) (c : Constructor) :
    R c ((x >>= f).run c).2 := by
  rw [Step.run_bind]
  have h := hx c
  rcases hr : x.run c with ⟨_ | a, c'⟩ <;> rw [hr] at h
  · exact h
  · exact htrans h (hf a c')

/-- a run that is followed by a change whether or not it failed -/
theorem Step.ensure_rel {x : Step Unit} {g : Constructor → Constructor}
    (htrans : ∀ {a b c}, R a b → R b c → R a c) (hx : ∀ c, R c (x.run c).2)
    (hg : ∀ c, R c (g c)) (c : Constructor) :
    R c ((do
      tryCatch x fun e => do
        modify g
        throw e
      modify g : Step Unit).run c).2 := by
  have h := hx c
  rw [Step.run_bind, Step.run_tryCatch]
  rcases hr : x.run c with ⟨_ | _, c'⟩ <;> rw [hr] at h
  · exact htrans h (hg c')
  · exact htrans h (hg c')

/-- what changes, new nodes and reports keep is kept by every run -/
theorem Composed.rel (hrefl : ∀ c, R c c) (htrans : ∀ {a b c}, R a b → R b c → R a c)
    (hchange : ∀ {g}, Change g → ∀ c, R c (g c))
    (happend : ∀ {d : NodeData}, d.isFragment = false →
      ∀ parent c, R c ((HtmlTree.appendNew parent d).run c).2)
    (hreport : ∀ c kind, R c (c.recorded (c.errorOf kind)))
    (hnote : ∀ (c : Constructor) journal, R c { c with journal })
    (h : Composed x) (c : Constructor) : R c (x.run c).2 := by
  induction h generalizing c with
  | pure a => exact hrefl c
  | bind _ _ ihx ihf => exact Step.bind_rel (R := R) htrans ihx ihf c
  | ask _ _ ih => exact ih c c
  | change hg => exact hchange hg c
  | appendNew parent hd => exact happend hd parent c
  | parseError kind =>
    rw [parseError_run]
    exact hreport c kind
  | unsupported token => exact hnote c _
  | violated v => exact hrefl c
  | ensure _ hg _ ih => exact Step.ensure_rel (R := R) htrans ih (hchange hg) c

/-- without a doctype the document has quirks, where it can have any -/
theorem missDoctype_run (token : Token) (c : Constructor) :
    (missDoctype token).run c =
      let d := c.recorded (c.errorOf .missingDoctype)
      if c.options.iframeSrcdoc then (.ok (.reprocess token), { c with mode := .beforeHtml })
      else if c.options.strict then (.error (.parse (c.errorOf .missingDoctype)), d)
      else
        (.ok (.reprocess token),
          { d with tree := d.tree.setMode .quirks, mode := .beforeHtml }) := by
  unfold missDoctype
  rw [Step.run_get_bind]
  cases c.options.iframeSrcdoc with
  | true => rfl
  | false =>
    show (parseError .missingDoctype >>= fun _ => _ : Step Verdict).run c = _
    rw [Step.run_bind, parseError_run]
    cases c.options.strict <;> rfl

/-- what the rules for a token do, if they may give up on it and if they may not -/
theorem Written.rel {token : Token} {r s : Bool} (hrefl : ∀ c, R c c)
    (htrans : ∀ {a b c}, R a b → R b c → R a c) (hturn : ∀ {g}, Turn token g → ∀ c, R c (g c))
    (hskip : s = true → ∀ c : Constructor, R c { c with skipLineFeed := true })
    (happend : ∀ {d : NodeData}, d.isFragment = false →
      (∀ e, d = .element e → e.ComesFrom token) →
      ∀ parent c, R c ((HtmlTree.appendNew parent d).run c).2)
    (hreport : ∀ c kind, kind ≠ .nonVoidSelfClosingTag → R c (c.recorded (c.errorOf kind)))
    (hnote : ∀ (c : Constructor) journal, R c { c with journal })
    (h : Written token r s x) (c : Constructor) : R c (x.run c).2 := by
  induction h generalizing c with
  | pure a => exact hrefl c
  | bind _ _ ihx ihf => exact Step.bind_rel (R := R) htrans ihx ihf c
  | ask _ _ ih => exact ih c c
  | change hg => exact hturn hg c
  | skipNextLineFeed hs => exact hskip hs c
  | appendNew parent hd he => exact happend hd he parent c
  | parseError hkind =>
    rw [parseError_run]
    exact hreport c _ hkind
  | unsupported t _ => exact hnote c _
  | violated v => exact hrefl c
  | missDoctype t =>
    have hmode : Turn token fun d : Constructor => { d with mode := .beforeHtml } :=
      .quiet (fun _ => ⟨rfl, rfl, rfl, rfl⟩) (fun _ _ => rfl) (fun _ _ => rfl) fun _ _ => rfl
    have hreported := hreport c .missingDoctype (by decide)
    rw [missDoctype_run]
    cases hsrcdoc : c.options.iframeSrcdoc with
    | true => exact hturn hmode c
    | false =>
      cases c.options.strict with
      | true => exact hreported
      | false =>
        have hquirks := hturn (.settleMode .quirks) (c.recorded (c.errorOf .missingDoctype))
        rw [if_neg (by rw [show (c.recorded _).options = c.options from rfl, hsrcdoc]; decide)]
          at hquirks
        exact htrans (htrans hreported hquirks) (hturn hmode _)
  | ensure _ hg _ ih => exact Step.ensure_rel (R := R) htrans ih (hturn hg) c

end

theorem Element.ComesFrom.ofTag (tag : StartTag) :
    (Element.ofTag tag.name tag.attributes .html).ComesFrom (.startTag tag) :=
  fun _ => Or.inr ⟨tag, rfl, rfl⟩

theorem Element.ComesFrom.bare {name : String} {token : Token} (hn : name ∈ impliedNames) :
    (Element.bare name .html).ComesFrom token := fun _ => Or.inl hn

theorem Constructor.ne_html_of_foreignNamespace? {c : Constructor} {token : Token} {ns : Namespace}
    (h : c.foreignNamespace? token = some ns) : ns ≠ .html := by
  unfold foreignNamespace? at h
  split at h
  · rename_i e _
    split at h
    · cases h
    · rename_i hns
      cases h
      rw [Bool.or_eq_true, not_or, decide_eq_true_eq] at hns
      exact hns.1
  · cases h

theorem ParseErrorKind.unexpected_ne (t : Token) : unexpected t ≠ nonVoidSelfClosingTag := by
  cases t with
  | character ch =>
    rw [unexpected]
    by_cases hnull : ch = '\x00'
    · rw [if_pos hnull]
      decide
    · rw [if_neg hnull]
      decide
  | _ => exact nofun

namespace Written
variable {token : Token} {tag : StartTag} {r s : Bool}

/-! ## basic steps -/

theorem ite {α : Type} {p : Prop} [Decidable p] {x y : Step α} (hx : Written token r s x) (hy :
    Written token r s y) :
    Written token r s (if p then x else y) := by
  split
  · exact hx
  · exact hy

/-- a step that is taken under a condition, and what comes after it in any case -/
theorem whenThen {α : Type} {p : Prop} [Decidable p] {x : Step Unit} {rest : Step α}
    (hx : Written token r s x) (hrest : Written token r s rest) :
    Written token r s (if p then x >>= fun _ => rest else rest) :=
  .ite (hx.bind fun _ => hrest) hrest

theorem finished {x : Step Unit} (h : Written token r s x) : Written token r s (finished x) :=
  h.bind fun _ => .pure _

theorem unexpected (t : Token) : Written token r s (unexpected t) :=
  .parseError (ParseErrorKind.unexpected_ne t)

theorem switchTo (mode : Mode) : Written token r s (switchTo mode) :=
  .change (.quiet (fun _ => ⟨rfl, rfl, rfl, rfl⟩) (fun _ _ => rfl) (fun _ _ => rfl) fun _ _ => rfl)

theorem framesetNotOk : Written token r s framesetNotOk :=
  .change (.quiet (fun _ => ⟨rfl, rfl, rfl, rfl⟩) (fun _ _ => rfl) (fun _ _ => rfl) fun _ _ => rfl)

theorem useSelfClosing : Written token r s useSelfClosing :=
  .change (.quiet (fun _ => ⟨rfl, rfl, rfl, rfl⟩) (fun _ _ => rfl) (fun _ _ => rfl) fun _ _ => rfl)

theorem requestState (state : TokenizerState) (ht : token.asksForState = true) :
    Written token r s (requestState state) :=
  .change (.quiet (fun _ => ⟨rfl, rfl, rfl, rfl⟩) (fun _ _ => rfl) (fun _ _ => rfl)
    fun h => absurd (h.symm.trans ht) Bool.noConfusion)

theorem enterText (state : TokenizerState) (ht : token.asksForState = true) :
    Written token r s (enterText state) :=
  .change (.quiet (fun _ => ⟨rfl, rfl, rfl, rfl⟩) (fun _ _ => rfl) (fun _ _ => rfl)
    fun h => absurd (h.symm.trans ht) Bool.noConfusion)

theorem stopParsing : Written token r s stopParsing := by
  refine .change ⟨⟨fun _ => rfl, fun _ => .refl _, fun _ => .refl _, fun _ _ => rfl, fun c => ?_⟩,
    fun _ => rfl, fun _ => rfl, fun _ _ => rfl, fun _ _ => rfl, fun _ mode => mode, fun _ => rfl,
    fun _ => rfl⟩
  exact .add c.journal rfl

theorem currentNode : Written token r s currentNode := by
  refine .ask (fun c => ?_) fun _ _ _ => rfl
  split
  · exact .pure _
  · exact .violated _

theorem appendElement (parent : NodeId) {e : Element} (he : e.ComesFrom token) :
    Written token r s (HtmlTree.appendNew parent (.element e)) :=
  appendNew parent rfl fun _ h => by
    cases h
    exact he

/-- a node that is no element -/
theorem appendOther (parent : NodeId) {d : NodeData} (hd : d.isFragment = false)
    (he : ∀ e, d ≠ .element e) : Written token r s (HtmlTree.appendNew parent d) :=
  appendNew parent hd fun e h => absurd h (he e)

theorem pushElement (id : NodeId) : Written token r s (pushElement id) :=
  .change (.quiet (fun _ => ⟨rfl, rfl, rfl, rfl⟩) (fun _ _ => rfl) (fun _ _ => rfl) fun _ _ => rfl)

theorem popElement : Written token r s popElement :=
  .change (.quiet (fun _ => ⟨rfl, rfl, rfl, rfl⟩) (fun _ _ => rfl) (fun _ _ => rfl) fun _ _ => rfl)

theorem insertElement {e : Element} (he : e.ComesFrom token) :
    Written token r s (insertElement e) :=
  currentNode.bind fun _ => (appendElement _ he).bind fun _ => (pushElement _).bind fun _ => .pure _

theorem insertHtml (tag : StartTag) : Written (.startTag tag) r s (insertHtml tag) :=
  insertElement (.ofTag tag)

theorem insertImplied {name : String} (hn : name ∈ impliedNames) :
    Written token r s (insertImplied name) := insertElement (.bare hn)

theorem insertVoid (tag : StartTag) : Written (.startTag tag) r s (insertVoid tag) :=
  (insertHtml tag).bind fun _ => popElement.bind fun _ => useSelfClosing

theorem insertTextOnly (tag : StartTag) (state : TokenizerState) (hn : tag.name ∈ askingNames) :
    Written (.startTag tag) r s (insertTextOnly tag state) :=
  (insertHtml tag).bind fun _ => enterText state (Token.asksForState_startTag.mpr hn)

/-- what a node holds changes in place -/
theorem modifyTree {f : Tree → Tree} (hw : ∀ u : Tree, u.Within (f u))
    (he : ∀ u : Tree, u.EditsTo (f u)) (hs : ∀ u : Tree, (f u).size = u.size)
    (hm : ∀ u mode, f (u.setMode mode) = (f u).setMode mode) :
    Written token r s (modify fun c => { c with tree := f c.tree } : Step Unit) := by
  refine .change ⟨⟨fun _ => rfl, fun _ => hw _, fun _ => he _, fun _ _ => rfl, fun _ => .refl _⟩,
    fun _ => hs _, fun _ => rfl, fun _ _ => rfl, fun c m => ?_, fun _ mode => mode, fun _ => rfl,
    fun c => ?_⟩
  · exact congrArg (fun u : Tree => { c.withMargin m with tree := u.setMode m.documentMode })
      (hm c.tree m.documentMode)
  · have hf : f c.tree = (f c.tree).setMode c.tree.mode := hm c.tree c.tree.mode
    calc (f c.tree).mode
      _ = ((f c.tree).setMode c.tree.mode).mode := congrArg Tree.mode hf
      _ = c.tree.mode := rfl

theorem insertText (ch : Char) : Written token r s (insertText ch) := by
  refine currentNode.bind fun place => .ask (fun c => .ite (.pure _) ?_) fun _ _ _ => rfl
  split
  · rename_i last _
    refine modifyTree (fun t => Tree.within_modifyData _ _ (NodeData.kind_mapCharacterData _)
        (NodeData.label?_mapCharacterData _))
      (fun t => t.editsTo_one (.editText last (·.append (String.singleton ch)))) (fun t => ?_)
      fun _ _ => rfl
    exact Tree.size_modify _ _ _
  · exact (appendOther place rfl fun _ => NodeData.noConfusion).bind fun _ => .pure _

theorem insertCommentIn (parent : NodeId) (data : String) :
    Written token r s (insertCommentIn parent data) :=
  (appendOther parent rfl fun _ => NodeData.noConfusion).bind fun _ => .pure _

theorem insertComment (data : String) : Written token r s (insertComment data) :=
  currentNode.bind fun _ => insertCommentIn _ data

theorem mergeAttributes (target : NodeId) (given : List TagAttribute) :
    Written token r s (mergeAttributes target given) :=
  modifyTree (f := fun t => t.modifyData target _)
    (fun _ => Tree.within_modifyData _ _ (NodeData.kind_mapElement _)
      (NodeData.label?_mapElement fun _ => ⟨rfl, rfl⟩))
    (fun t => t.editsTo_one
      (.editElement target fun e => { e with attributes := e.attributes.union given }))
    (fun _ => Tree.size_modify _ _ _) fun _ _ => rfl

theorem generateImpliedEndTags (except : Option String) :
    Written token r s (generateImpliedEndTags except) :=
  .change (.quiet (fun _ => ⟨rfl, rfl, rfl, rfl⟩) (fun _ _ => rfl) (fun _ _ => rfl) fun _ _ => rfl)

theorem popUntilOneOf (names : List String) : Written token r s (popUntilOneOf names) :=
  .change (.quiet (fun _ => ⟨rfl, rfl, rfl, rfl⟩) (fun _ _ => rfl) (fun _ _ => rfl) fun _ _ => rfl)

theorem popUntilTag (name : String) : Written token r s (popUntilTag name) := popUntilOneOf [name]

theorem expectCurrent (names : List String) {kind : ParseErrorKind}
    (hkind : kind ≠ .nonVoidSelfClosingTag) : Written token r s (expectCurrent names kind) :=
  .ask (fun _ => .ite (.parseError hkind) (.pure _)) fun _ _ _ => rfl

/-! ## the opening -/

theorem repeatedHtml (tag : StartTag) : Written (.startTag tag) r s (repeatedHtml tag) := by
  refine (parseError (by decide)).bind fun _ => .ask (fun c => .ite (.pure _) ?_) fun _ _ _ => rfl
  split
  · exact mergeAttributes _ _
  · exact .pure _

theorem takeDoctype (d : DoctypeToken) : Written token r s (takeDoctype d) := by
  refine .whenThen (parseError (by decide)) ?_
  exact (appendOther _ rfl fun _ => NodeData.noConfusion).bind fun _ =>
    (change (.settleMode d.mode)).bind fun _ => switchTo _

theorem initialRules (token : Token) : Written token r s (initialRules token) := by
  cases token with
  | character ch => exact .ite (.pure _) (missDoctype _)
  | comment data => exact .finished (insertCommentIn _ _)
  | doctype d => exact .finished (takeDoctype d)
  | _ => exact missDoctype _

theorem openDocumentElement {e : Element} (he : e.ComesFrom token) :
    Written token r s (openDocumentElement e) :=
  (appendElement _ he).bind fun _ => (pushElement _).bind fun _ => switchTo _

theorem implyHtml (t : Token) : Written token r s (implyHtml t) :=
  (openDocumentElement (.bare (by decide))).bind fun _ => .pure _

theorem beforeHtmlRules (token : Token) : Written token r s (beforeHtmlRules token) := by
  cases token with
  | doctype d => exact .finished (parseError (by decide))
  | comment data => exact .finished (insertCommentIn _ _)
  | character ch => exact .ite (.pure _) (implyHtml _)
  | startTag tag => exact .ite (.finished (openDocumentElement (.ofTag tag))) (implyHtml _)
  | endTag name => exact .ite (implyHtml _) (.finished (parseError (by decide)))
  | endOfFile => exact implyHtml _

theorem openHead {insert : Step NodeId} (h : Written token r s insert) :
    Written token r s (openHead insert) := by
  refine h.bind fun _ => (change ?_).bind fun _ => switchTo _
  exact .quiet (fun _ => ⟨rfl, rfl, rfl, rfl⟩) (fun _ _ => rfl) (fun _ _ => rfl) fun _ _ => rfl

theorem implyHead (t : Token) : Written token r s (implyHead t) :=
  (openHead (insertImplied (by decide))).bind fun _ => .pure _

theorem beforeHeadRules (token : Token) : Written token r s (beforeHeadRules token) := by
  cases token with
  | character ch => exact .ite (.pure _) (implyHead _)
  | comment data => exact .finished (insertComment _)
  | doctype d => exact .finished (parseError (by decide))
  | startTag tag =>
    refine .ite (.finished (repeatedHtml _)) ?_
    exact .ite (.finished (openHead (insertHtml _))) (implyHead _)
  | endTag name => exact .ite (implyHead _) (.finished (parseError (by decide)))
  | endOfFile => exact implyHead _

/-! ## the head -/

theorem headStart {scripting : Bool} {rule : HeadStart}
    (hr : HeadStart.ofName? scripting tag.name = some rule) :
    Written (.startTag tag) true s (rule.apply tag) := by
  have hname := HeadStart.admits_of_ofName? hr
  cases rule with
  | void => exact insertVoid _
  | title | rawText | script => exact insertTextOnly _ _ (List.mem_cons_of_mem _ hname)
  | noscript => exact (insertHtml _).bind fun _ => switchTo _
  | template => exact .unsupported _ rfl

theorem headContent (tag : StartTag) : Written (.startTag tag) true s (headContent tag) := by
  refine .ask (fun c => ?_) fun c m hm => by
    rw [show HeadStart.ofName? (c.withMargin m).options.scripting tag.name = _ from
      HeadStart.ofName?_congr hm]
  split
  · exact headStart ‹_›
  · exact .pure _

theorem leaveFor (mode : Mode) :
    Written token r s (leaveFor mode) := popElement.bind fun _ => switchTo mode

theorem implyHeadEnd (t : Token) : Written token r s (implyHeadEnd t) :=
  (leaveFor _).bind fun _ => .pure _

theorem inHeadStartTag (tag : StartTag) : Written (.startTag tag) true s (inHeadStartTag tag) := by
  refine .ask (fun c => ?_) fun c m hm => by
    rw [show HeadStart.ofName? (c.withMargin m).options.scripting tag.name = _ from
      HeadStart.ofName?_congr hm]
  split
  · exact .finished (headStart ‹_›)
  · exact .ite (.finished (repeatedHtml _))
      (.ite (.finished (parseError (by decide))) (implyHeadEnd _))

theorem inHeadEndTag (name : String) : Written (.endTag name) true s (inHeadEndTag name) :=
  .ite (.finished (leaveFor _)) (.ite (.unsupported _ rfl)
    (.ite (implyHeadEnd _) (.finished (parseError (by decide)))))

theorem inHeadRules (token : Token) : Written token true s (inHeadRules token) := by
  cases token with
  | character ch => exact .ite (.pure _) (implyHeadEnd _)
  | comment data => exact .finished (insertComment _)
  | doctype d => exact .finished (parseError (by decide))
  | startTag tag => exact inHeadStartTag _
  | endTag name => exact inHeadEndTag _
  | endOfFile => exact implyHeadEnd _

theorem implyNoscriptEnd (t : Token) : Written token r s (implyNoscriptEnd t) :=
  (unexpected _).bind fun _ => (leaveFor _).bind fun _ => .pure _

theorem inHeadNoscriptRules (token : Token) : Written token true s (inHeadNoscriptRules token) := by
  cases token with
  | doctype d => exact .finished (parseError (by decide))
  | character ch => exact .ite (.pure _) (implyNoscriptEnd _)
  | comment data => exact .finished (insertComment _)
  | startTag tag =>
    exact .ite (.finished (repeatedHtml _)) (.ite (.finished (headContent _))
      (.ite (.finished (parseError (by decide))) (implyNoscriptEnd _)))
  | endTag name =>
    exact .ite (.finished (leaveFor _))
      (.ite (implyNoscriptEnd _) (.finished (parseError (by decide))))
  | endOfFile => exact implyNoscriptEnd _

theorem lateHeadContent (tag : StartTag) :
    Written (.startTag tag) true s (lateHeadContent tag) := by
  refine (parseError (by decide)).bind fun _ => .ask (fun c => ?_) fun _ _ _ => rfl
  split
  · exact violated _
  · refine (pushElement _).bind fun _ => (headContent tag).ensure ?_ fun _ => rfl
    exact .quiet (fun _ => ⟨rfl, rfl, rfl, rfl⟩) (fun _ _ => rfl) (fun _ _ => rfl) fun _ _ => rfl

theorem implyBody (t : Token) : Written token r s (implyBody t) :=
  (insertImplied (by decide)).bind fun _ => (switchTo _).bind fun _ => .pure _

theorem openBody (tag : StartTag) : Written (.startTag tag) r s (openBody tag) :=
  (insertHtml _).bind fun _ => framesetNotOk.bind fun _ => switchTo _

theorem afterHeadRules (token : Token) : Written token true s (afterHeadRules token) := by
  cases token with
  | character ch => exact .ite (.finished (insertText _)) (implyBody _)
  | comment data => exact .finished (insertComment _)
  | doctype d => exact .finished (parseError (by decide))
  | startTag tag =>
    exact .ite (.finished (repeatedHtml _)) (.ite (.finished (openBody _))
      (.ite (.unsupported _ rfl) (.ite (.finished (lateHeadContent _))
        (.ite (.finished (parseError (by decide))) (implyBody _)))))
  | endTag name =>
    exact .ite (.unsupported _ rfl) (.ite (implyBody _) (.finished (parseError (by decide))))
  | endOfFile => exact implyBody _

/-! ## foreign content -/

theorem insertForeign {ns : Namespace} (tag : StartTag) (hns : ns ≠ .html) :
    Written token r s (insertForeign tag ns) :=
  (insertElement fun h => absurd h hns).bind fun _ =>
    .ite (popElement.bind fun _ => useSelfClosing) (.pure _)

theorem finishedForeign {x : Step Unit} (h : Written token r s x) :
    Written token r s (finishedForeign x) :=
  h.bind fun _ => .pure _

theorem breakOut {kind : ParseErrorKind} (hkind : kind ≠ .nonVoidSelfClosingTag) :
    Written token r s (breakOut kind) := by
  refine (parseError hkind).bind fun _ => (change ?_).bind fun _ => .pure _
  exact .quiet (fun _ => ⟨rfl, rfl, rfl, rfl⟩) (fun _ _ => rfl) (fun _ _ => rfl) fun _ _ => rfl

theorem foreignEndTag (name : String) : Written token r s (foreignEndTag name) := by
  refine .ask (fun c => .whenThen (parseError (by decide)) ?_) fun _ _ _ => rfl
  refine .ask (fun c => ?_) fun _ _ _ => rfl
  dsimp only
  split
  · exact .pure _
  · refine (change ?_).bind fun _ => .pure _
    exact .quiet (fun _ => ⟨rfl, rfl, rfl, rfl⟩) (fun _ _ => rfl) (fun _ _ => rfl) fun _ _ => rfl
  · exact .pure _

theorem foreignCharacter (ch : Char) : Written token r s (foreignCharacter ch) :=
  .ite ((parseError (by decide)).bind fun _ => insertText _)
    ((insertText _).bind fun _ => .ite framesetNotOk (.pure _))

theorem foreignRules {ns : Namespace} (t : Token) (hns : ns ≠ .html) :
    Written token r s (foreignRules ns t) := by
  cases t with
  | character ch => exact .finishedForeign (foreignCharacter _)
  | comment data => exact .finishedForeign (insertComment _)
  | doctype d => exact .finishedForeign (parseError (by decide))
  | startTag tag => exact .ite (breakOut (by decide)) (.finishedForeign (insertForeign _ hns))
  | endTag name =>
    exact .ite (breakOut (by decide))
      (.ask (fun c => .ite (.finishedForeign popElement) (foreignEndTag _)) fun _ _ _ => rfl)
  | endOfFile => exact .pure _

theorem foreignStage (t : Token) : Written token r s (foreignStage t) := by
  refine .ask (fun c => ?_) fun _ _ _ => rfl
  split
  · exact foreignRules _ (c.ne_html_of_foreignNamespace? ‹_›)
  · exact .pure _

/-! ## closing elements of the body -/

theorem keepFormatting (inside : List NodeId) (t : Token) :
    Written token true s (keepFormatting inside t) :=
  .ask (fun _ => .ite (.unsupported _ rfl) (.pure _)) fun _ _ _ => rfl

theorem keepFormattingIn (names : List String) (t : Token) :
    Written token true s (keepFormattingIn names t) := by
  refine .ask (fun c => ?_) fun _ _ _ => rfl
  split
  · exact keepFormatting _ _
  · exact .pure _

theorem closeParagraph (t : Token) : Written token true s (closeParagraph t) :=
  (keepFormattingIn _ _).bind fun _ => (generateImpliedEndTags _).bind fun _ =>
    (expectCurrent _ (by decide)).bind fun _ => popUntilTag _

theorem closeOpenParagraph (t : Token) : Written token true s (closeOpenParagraph t) :=
  .ask (fun _ => .ite (closeParagraph _) (.pure _)) fun _ _ _ => rfl

theorem closeInScope (name : String) (scope : Scope) (sparing : Bool) (token : Token) :
    Written token true s (closeInScope name scope sparing token) := by
  refine .ask (fun c => .ite (.whenThen (keepFormattingIn _ _) ?_) (parseError (by decide)))
    fun _ _ _ => rfl
  exact (generateImpliedEndTags _).bind fun _ => (expectCurrent _ (by decide)).bind fun _ =>
    popUntilTag _

theorem closeListItem (closes : List String) (token : Token) :
    Written token true s (closeListItem closes token) := by
  refine .ask (fun c => ?_) fun _ _ _ => rfl
  dsimp only
  split
  · exact .pure _
  · split
    · exact .pure _
    · exact (keepFormatting _ _).bind fun _ => (generateImpliedEndTags _).bind fun _ =>
        (expectCurrent _ (by decide)).bind fun _ => popUntilTag _

theorem closeOther (name : String) (token : Token) :
    Written token true s (closeOther name token) := by
  refine .ask (fun c => ?_) fun _ _ _ => rfl
  dsimp only
  split
  · exact .pure _
  · refine .ite ((keepFormatting _ _).bind fun _ => (generateImpliedEndTags _).bind fun _ => ?_)
      (parseError (by decide))
    refine .ask (fun c => .whenThen (parseError (by decide)) (change ?_)) fun _ _ _ => rfl
    exact .quiet (fun _ => ⟨rfl, rfl, rfl, rfl⟩) (fun _ _ => rfl) (fun _ _ => rfl) fun _ _ => rfl

theorem closeFormatting (name : String) (token : Token) :
    Written token true s (closeFormatting name token) :=
  .ask (fun _ => .ite popElement (.ite (.unsupported _ rfl) (closeOther _ _))) fun _ _ _ => rfl

theorem closeHeading (name : String) (token : Token) :
    Written token true s (closeHeading name token) := by
  refine .ask (fun c => .ite ?_ (parseError (by decide))) fun _ _ _ => rfl
  exact (keepFormattingIn _ _).bind fun _ => (generateImpliedEndTags _).bind fun _ =>
    (expectCurrent _ (by decide)).bind fun _ => popUntilOneOf _

theorem closeForm : Written token r s closeForm := by
  refine .ask (fun c => (change ?_).bind fun _ => ?_) fun _ _ _ => rfl
  · exact .quiet (fun _ => ⟨rfl, rfl, rfl, rfl⟩) (fun _ _ => rfl) (fun _ _ => rfl) fun _ _ => rfl
  split
  · exact parseError (by decide)
  · refine (generateImpliedEndTags _).bind fun _ => ?_
    refine .ask (fun c => .whenThen (parseError (by decide)) (change ?_)) fun _ _ _ => rfl
    exact .quiet (fun _ => ⟨rfl, rfl, rfl, rfl⟩) (fun _ _ => rfl) (fun _ _ => rfl) fun _ _ => rfl

theorem closeBody : Written token r s closeBody := by
  refine .ask (fun c => .ite (.whenThen (parseError (by decide)) ?_) ?_) fun _ _ _ => rfl
  · exact (switchTo _).bind fun _ => .pure _
  · exact (parseError (by decide)).bind fun _ => .pure _

/-! ## start tags of the body -/

theorem insertPlain (tag : StartTag) : Written (.startTag tag) r s (insertPlain tag) :=
  (insertHtml _).bind fun _ => .pure _

theorem repeatedBody (tag : StartTag) : Written (.startTag tag) r s (repeatedBody tag) := by
  refine (parseError (by decide)).bind fun _ => .ask (fun c => ?_) fun _ _ _ => rfl
  split
  · exact .ite (framesetNotOk.bind fun _ => mergeAttributes _ _) (.pure _)
  · exact .pure _

theorem startFrameset (tag : StartTag) : Written (.startTag tag) true s (startFrameset tag) :=
  (parseError (by decide)).bind fun _ =>
    .ask (fun _ => .ite (.unsupported _ rfl) (.pure _)) fun _ _ _ => rfl

theorem startBlock (tag : StartTag) : Written (.startTag tag) true s (startBlock tag) :=
  (closeOpenParagraph _).bind fun _ => insertPlain _

theorem startHeading (tag : StartTag) : Written (.startTag tag) true s (startHeading tag) := by
  refine (closeOpenParagraph _).bind fun _ => .ask (fun c => ?_) fun _ _ _ => rfl
  exact .ite ((parseError (by decide)).bind fun _ => popElement.bind fun _ => insertPlain _)
    (insertPlain _)

theorem startPreformatted (tag : StartTag) :
    Written (.startTag tag) true true (startPreformatted tag) :=
  (startBlock _).bind fun _ => (skipNextLineFeed rfl).bind fun _ => framesetNotOk

theorem startForm (tag : StartTag) : Written (.startTag tag) true s (startForm tag) := by
  refine .ask (fun c => .ite (parseError (by decide)) ?_) fun _ _ _ => rfl
  refine (closeOpenParagraph _).bind fun _ => (insertHtml _).bind fun _ => ?_
  refine .ite (change ?_) (.pure _)
  exact .quiet (fun _ => ⟨rfl, rfl, rfl, rfl⟩) (fun _ _ => rfl) (fun _ _ => rfl) fun _ _ => rfl

theorem startListItem (closes : List String) (tag : StartTag) :
    Written (.startTag tag) true s (startListItem closes tag) :=
  framesetNotOk.bind fun _ => (closeListItem _ _).bind fun _ => startBlock _

theorem startPlaintext (hn : tag.name ∈ askingNames) :
    Written (.startTag tag) true s (startPlaintext tag) :=
  (startBlock _).bind fun _ => requestState _ (Token.asksForState_startTag.mpr hn)

theorem startButton (tag : StartTag) : Written (.startTag tag) true s (startButton tag) := by
  have hrest : Written (.startTag tag) true s
      (do HtmlTree.insertPlain tag; HtmlTree.framesetNotOk) :=
    (insertPlain _).bind fun _ => framesetNotOk
  refine .ask (fun c => .ite ?_ hrest) fun _ _ _ => rfl
  exact (parseError (by decide)).bind fun _ => (keepFormattingIn _ _).bind fun _ =>
    (generateImpliedEndTags _).bind fun _ => (popUntilTag _).bind fun _ => hrest

theorem startAnchor (tag : StartTag) : Written (.startTag tag) true s (startAnchor tag) :=
  .ask (fun _ => .whenThen (.unsupported _ rfl) (insertPlain _)) fun _ _ _ => rfl

theorem startNobr (tag : StartTag) : Written (.startTag tag) true s (startNobr tag) :=
  .ask (fun _ => .whenThen (.unsupported _ rfl) (insertPlain _)) fun _ _ _ => rfl

theorem startMarker (tag : StartTag) : Written (.startTag tag) r s (startMarker tag) :=
  (insertPlain _).bind fun _ => framesetNotOk

theorem startVoid (tag : StartTag) : Written (.startTag tag) r s (startVoid tag) :=
  (insertVoid _).bind fun _ => framesetNotOk

theorem startInput (tag : StartTag) : Written (.startTag tag) r s (startInput tag) :=
  (insertVoid _).bind fun _ => .ite framesetNotOk (.pure _)

theorem startThematicBreak (tag : StartTag) :
    Written (.startTag tag) true s (startThematicBreak tag) :=
  (closeOpenParagraph _).bind fun _ => startVoid _

theorem startTextarea (hn : tag.name ∈ askingNames) :
    Written (.startTag tag) r true (startTextarea tag) :=
  (insertTextOnly _ _ hn).bind fun _ => (skipNextLineFeed rfl).bind fun _ => framesetNotOk

theorem startXmp (hn : tag.name ∈ askingNames) :
    Written (.startTag tag) true s (startXmp tag) :=
  (closeOpenParagraph _).bind fun _ => framesetNotOk.bind fun _ => insertTextOnly _ _ hn

theorem startIframe (hn : tag.name ∈ askingNames) :
    Written (.startTag tag) r s (startIframe tag) :=
  framesetNotOk.bind fun _ => insertTextOnly _ _ hn

theorem startNoscript (hn : tag.name = "noscript") :
    Written (.startTag tag) r s (startNoscript tag) :=
  .ask (fun _ => .ite (insertTextOnly _ _ (by rw [hn]; decide)) (insertPlain _)) fun c m hm => by
    rw [show (c.withMargin m).options.scripting = c.options.scripting from hm hn]

theorem startOption (tag : StartTag) : Written (.startTag tag) r s (startOption tag) :=
  .ask (fun _ => .whenThen popElement (insertPlain _)) fun _ _ _ => rfl

theorem startRuby (spared : Option String) (expected : List String) (tag : StartTag) :
    Written (.startTag tag) r s (startRuby spared expected tag) := by
  refine .ask (fun c => .ite ?_ (insertPlain _)) fun _ _ _ => rfl
  exact (generateImpliedEndTags _).bind fun _ => (expectCurrent _ (by decide)).bind fun _ =>
    insertPlain _

/-- two rules have a line feed passed over -/
theorem bodyStart {rule : BodyStart} (hr : BodyStart.ofName tag.name = rule)
    (hs : (Token.startTag tag).skipsLineFeed = true → s = true) :
    Written (.startTag tag) true s (rule.apply tag) := by
  have hask := BodyStart.mem_askingNames hr
  cases rule with
  | html => exact .finished (repeatedHtml _)
  | headContent => exact .finished (headContent _)
  | body => exact .finished (repeatedBody _)
  | frameset => exact .finished (startFrameset _)
  | block => exact .finished (startBlock _)
  | heading => exact .finished (startHeading _)
  | preformatted =>
    rw [hs (Token.skipsLineFeed_startTag.mpr (Or.inl hr))]
    exact .finished (startPreformatted _)
  | form => exact .finished (startForm _)
  | listItem => exact .finished (startListItem _ _)
  | description => exact .finished (startListItem _ _)
  | plaintext => exact .finished (startPlaintext (hask (by decide)))
  | button => exact .finished (startButton _)
  | anchor => exact .finished (startAnchor _)
  | nobr => exact .finished (startNobr _)
  | formatting => exact .finished (insertPlain _)
  | marker => exact .finished (startMarker _)
  | unsupported => exact .unsupported _ rfl
  | void => exact .finished (startVoid _)
  | input => exact .finished (startInput _)
  | quietVoid => exact .finished (insertVoid _)
  | thematicBreak => exact .finished (startThematicBreak _)
  | image => exact (parseError (by decide)).bind fun _ => .pure _
  | textarea =>
    rw [hs (Token.skipsLineFeed_startTag.mpr (Or.inr hr))]
    exact .finished (startTextarea (hask (by decide)))
  | xmp => exact .finished (startXmp (hask (by decide)))
  | iframe => exact .finished (startIframe (hask (by decide)))
  | rawText => exact .finished (insertTextOnly _ _ (hask (by decide)))
  | noscript =>
    have hn := mem_of_rule ["noscript"] hr (by decide) (by decide)
    exact .finished (startNoscript (List.mem_singleton.mp hn))
  | option => exact .finished (startOption _)
  | rubyBase => exact .finished (startRuby _ _ _)
  | rubyText => exact .finished (startRuby _ _ _)
  | math => exact .finished (insertForeign _ (by decide))
  | svg => exact .finished (insertForeign _ (by decide))
  | misplaced => exact .finished (parseError (by decide))
  | other => exact .finished (insertPlain _)

/-! ## end tags of the body -/

theorem endParagraph (token : Token) : Written token true s (endParagraph token) := by
  refine .ask (fun c => .ite ?_ (closeParagraph _)) fun _ _ _ => rfl
  exact (parseError (by decide)).bind fun _ => (insertImplied (by decide)).bind fun _ =>
    closeParagraph _

theorem endLineBreak : Written token r s endLineBreak :=
  (parseError (by decide)).bind fun _ => (insertImplied (by decide)).bind fun _ =>
    popElement.bind fun _ => framesetNotOk

theorem endHtml : Written token r s endHtml := closeBody.bind fun _ => .ite (.pure _) (.pure _)

theorem endBody : Written token r s endBody := closeBody.bind fun _ => .pure _

theorem bodyEnd (rule : BodyEnd) (name : String) :
    Written (.endTag name) true s (rule.apply name) := by
  cases rule with
  | template => exact .unsupported _ rfl
  | body => exact .finished endBody
  | html => exact endHtml
  | block => exact .finished (closeInScope _ _ _ _)
  | form => exact .finished closeForm
  | paragraph => exact .finished (endParagraph _)
  | listItem => exact .finished (closeInScope _ _ _ _)
  | description => exact .finished (closeInScope _ _ _ _)
  | heading => exact .finished (closeHeading _ _)
  | formatting => exact .finished (closeFormatting _ _)
  | marker => exact .finished (closeInScope _ _ _ _)
  | lineBreak => exact .finished endLineBreak
  | other => exact .finished (closeOther _ _)

theorem bodyCharacter (ch : Char) : Written token r s (bodyCharacter ch) :=
  .ite (parseError (by decide)) ((insertText _).bind fun _ => .ite framesetNotOk (.pure _))

theorem endInput : Written token r s endInput :=
  .ask (fun _ => .whenThen (parseError (by decide)) stopParsing) fun _ _ _ => rfl

theorem inBodyRules (token : Token) (hs : token.skipsLineFeed = true → s = true) :
    Written token true s (inBodyRules token) := by
  cases token with
  | character ch => exact .finished (bodyCharacter _)
  | comment data => exact .finished (insertComment _)
  | doctype d => exact .finished (parseError (by decide))
  | startTag tag => exact bodyStart rfl hs
  | endTag name => exact bodyEnd _ _
  | endOfFile => exact .finished endInput

/-! ## text and the end -/

theorem leaveText : Written token r s leaveText := by
  refine popElement.bind fun _ => .ask (fun c => ?_) fun _ _ _ => rfl
  split
  · refine change ?_
    exact .quiet (fun _ => ⟨rfl, rfl, rfl, rfl⟩) (fun _ _ => rfl) (fun _ _ => rfl) fun _ _ => rfl
  · exact violated _

theorem textRules (token : Token) : Written token true s (textRules token) := by
  cases token with
  | character ch => exact .finished (insertText _)
  | endOfFile => exact (parseError (by decide)).bind fun _ => leaveText.bind fun _ => .pure _
  | endTag name => exact .finished leaveText
  | _ => exact .unsupported _ rfl

theorem backToBody (t : Token) : Written token r s (backToBody t) :=
  (unexpected _).bind fun _ => (switchTo _).bind fun _ => .pure _

theorem lateComment (data : String) : Written token r s (lateComment data) := by
  refine .ask (fun c => ?_) fun _ _ _ => rfl
  split
  · exact insertCommentIn _ _
  · exact violated _

theorem afterBodyRules (token : Token) : Written token r s (afterBodyRules token) := by
  cases token with
  | character ch => exact .ite (.finished (insertText _)) (backToBody _)
  | comment data => exact .finished (lateComment _)
  | doctype d => exact .finished (parseError (by decide))
  | startTag tag => exact .ite (.finished (repeatedHtml _)) (backToBody _)
  | endTag name => exact .ite (.finished (switchTo _)) (backToBody _)
  | endOfFile => exact .finished stopParsing

theorem afterAfterBodyRules (token : Token) : Written token r s (afterAfterBodyRules token) := by
  cases token with
  | character ch => exact .ite (.finished (insertText _)) (backToBody _)
  | comment data => exact .finished (insertCommentIn _ _)
  | doctype d => exact .finished (parseError (by decide))
  | startTag tag => exact .ite (.finished (repeatedHtml _)) (backToBody _)
  | endTag name => exact backToBody _
  | endOfFile => exact .finished stopParsing

/-! ## whole tokens -/

theorem modeRules (mode : Mode) (token : Token)
    (hs : mode = .inBody → token.skipsLineFeed = true → s = true) :
    Written token true s (modeRules mode token) := by
  cases mode with
  | initial => exact initialRules _
  | beforeHtml => exact beforeHtmlRules _
  | beforeHead => exact beforeHeadRules _
  | inHead => exact inHeadRules _
  | inHeadNoscript => exact inHeadNoscriptRules _
  | afterHead => exact afterHeadRules _
  | inBody => exact inBodyRules _ (hs rfl)
  | text => exact textRules _
  | afterBody => exact afterBodyRules _
  | afterAfterBody => exact afterAfterBodyRules _
  | _ => exact .unsupported _ rfl

theorem dispatch (token : Token) (hs : token.skipsLineFeed = true → s = true) :
    Written token true s (dispatch token) := by
  refine (foreignStage _).bind fun v => ?_
  cases v with
  | done => exact .pure _
  | toMode => exact .ask (fun _ => modeRules _ _ fun _ => hs) fun _ _ _ => rfl

end Written

/-! ## whole tokens -/

theorem Composed.processWithin (rounds : Nat) (token : Token) :
    Composed (processWithin rounds token) := by
  induction rounds generalizing token with
  | zero => exact .violated _
  | succ rounds ih =>
    refine (Written.dispatch (s := true) token fun _ => rfl).composed.bind fun v => ?_
    cases v with
    | done => exact .pure _
    | reprocess token => exact ih _

theorem Composed.checkSelfClosing (token : Token) : Composed (checkSelfClosing token) := by
  refine .ask (fun c => ?_) fun _ _ => rfl
  split
  · exact .parseError _
  · exact .pure _

theorem Composed.processToken (token : Token) : Composed (processToken token) :=
  (processWithin _ _).bind fun _ => checkSelfClosing token

end HtmlTree
