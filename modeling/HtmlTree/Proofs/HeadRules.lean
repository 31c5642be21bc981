import HtmlTree.Proofs.Leads

/-!
# The rules up to the body

In each mode up to the body the stack of open elements is known in full, so it is known for every
rule of these modes which node it works on.

* `Core.In.exists_at`    from the mode for the head on there is a current node;
* `repeatedHtml_leads`   a further `html` tag, in whatever mode;
* `initialRules_leads`, `beforeHtmlRules_leads`, `beforeHeadRules_leads`, `inHeadRules_leads`,
  `inHeadNoscriptRules_leads`, `afterHeadRules_leads`   what the rules of these modes lead to.
-/

namespace HtmlTree

variable {k : Core} {byBody : Bool} {token : Token} {tag : StartTag} {m : Mode}

/-! ## the current node and the outermost one -/

namespace Tree
variable {t : Tree} {ids : List NodeId} {names : List String}

theorem Spells.head? {name : String} (h : t.Spells (name :: names) ids) :
    ∃ id, ids.head? = some id := by
  cases h with
  | cons _ _ => exact ⟨_, rfl⟩

theorem StackOf.head? (hi : m ≠ .initial) (hh : m ≠ .beforeHtml) (h : t.StackOf ids m) :
    ∃ id, ids.head? = some id := by
  cases m <;> first
    | exact absurd rfl hi
    | exact absurd rfl hh
    | exact h.elim
    | exact Spells.head? h
    | exact Option.isSome_iff_exists.mp (List.isSome_head?.mpr (BodyStack.ne_nil h))

theorem Spells.getLast? {name : String} {id : NodeId} (h : t.Spells names ids)
    (hn : names.getLast? = some name) (hid : ids.getLast? = some id) :
    t.isHtml name id = true := by
  induction h with
  | nil => cases hn
  | cons hx hr ih =>
    cases hr with
    | nil =>
      cases hn
      cases hid
      exact hx
    | cons hy hr => exact ih hn hid

/-- the outermost element is the document element -/
theorem StackOf.getLast? {id : NodeId} (h : t.StackOf ids m) (hid : ids.getLast? = some id) :
    t.isHtml "html" id = true := by
  cases m <;> first
    | exact h.elim
    | exact Spells.getLast? h rfl hid
    | skip
  case initial | beforeHtml =>
    rw [show ids = [] from h] at hid
    cases hid
  all_goals
    obtain ⟨inner, outer, rfl, hs, _⟩ := h
    have hne : outer ≠ [] := by
      cases hs
      exact List.cons_ne_nil _ _
    rw [List.getLast?_append_of_ne_nil _ hne] at hid
    exact hs.getLast? rfl hid

/-- where all that is open is known it is HTML -/
theorem Spells.takesHtml (h : t.Spells names ids) : t.TakesHtml ids := by
  cases h with
  | nil => exact fun id hid => nomatch hid
  | cons hx _ =>
    obtain ⟨e, he, hns, _⟩ := exists_of_isHtml hx
    exact .ofHtml (elementSatisfies_iff.mpr ⟨e, he, beq_iff_eq.mpr hns⟩)

theorem StackOf.takesHtml (hm : m.isBody = false) (h : t.StackOf ids m) : t.TakesHtml ids := by
  cases m <;> first
    | exact h.elim
    | exact Spells.takesHtml h
    | exact Bool.noConfusion hm
    | skip
  case initial | beforeHtml =>
    rw [show ids = [] from h]
    exact fun id hid => nomatch hid

end Tree

namespace Core.In

/-- up to the body HTML may be put into the current node -/
theorem takesHtml (h : k.In m) (hb : m.isBody = false) (hm : m ≠ .text) :
    k.tree.TakesHtml k.entries := (h.stack hm).takesHtml hb

theorem exists_at (h : k.In m) (hi : m ≠ .initial) (hh : m ≠ .beforeHtml) :
    ∃ place, k.At place := by
  by_cases hm : m = .text
  · obtain ⟨id, _, _, he, _⟩ := h.fits.text hm
    exact ⟨id, h.sound.at (by rw [he]; rfl)⟩
  · obtain ⟨id, hid⟩ := (h.stack hm).head? hi hh
    exact ⟨id, h.sound.at hid⟩

end Core.In

theorem Core.Sound.accepts_comment (hs : k.Sound) {place : NodeId} (h : k.TakesComment place)
    (data : String) : k.tree.Accepts place (.comment ⟨data⟩) := by
  rcases h with h | ⟨_, h⟩ | ⟨_, h⟩
  · exact Tree.accepts_of_label? (hs.current h) rfl
  · exact Tree.accepts_of_label? (hs.bears.element _ (List.mem_of_getLast? h)) rfl
  · exact Or.inr ⟨h, trivial⟩

/-! ## rules of several modes -/

theorem insertCommentIn_leads {data : String} (hk : k.In m) (hm : m ≠ .text) {place : NodeId}
    (h : k.TakesComment place) :
    Leads byBody (.comment data) (insertCommentIn place data) k fun _ _ => True :=
  .doing (.insertCommentIn data hk.sound.bears.grown (hk.sound.accepts_comment h data))
    (.one (.comment rfl h (by rw [hk.mode]; exact hm))) trivial

theorem insertComment_leads {data : String} (hk : k.In m) (hm : m ≠ .text) {place : NodeId}
    (h : k.At place) : Leads byBody (.comment data) (insertComment data) k fun _ _ => True :=
  .doThen (.currentNode h.current) (.refl _) (insertCommentIn_leads hk hm (Or.inl h.current))

/-- a further `html` tag finds the document element outermost -/
theorem repeatedHtml_leads (h : k.In m) (hm : m ≠ .text) (hn : tag.name = "html") :
    Leads byBody (.startTag tag) (repeatedHtml tag) k fun _ _ => True := by
  refine .parseErrorThen _ (.ask fun c hc => .ite (fun _ => .value trivial) fun _ => ?_)
  subst hc
  split
  · rename_i html hhtml
    have hid : c.core.entries.getLast? = some html := hhtml
    have hname := (h.stack hm).getLast? hid
    have hone : c.core.tree.isHtmlOneOf ["html", "body"] html = true :=
      Tree.isHtmlOneOf_of_isHtml hname List.mem_cons_self
    refine .doing (.mergeAttributes _ _) (.one ?_) trivial
    exact .merge _ (List.mem_of_getLast? hid) hone ⟨tag, rfl, rfl, by rw [hn]; exact hname⟩
  · exact .value trivial

/-! ## initial -/

/-- the document of an `iframe` given by its source keeps its mode -/
theorem setMode_does (m : DocumentMode) (k : Core) :
    Does (modify fun c => if c.options.iframeSrcdoc then c else { c with tree := c.tree.setMode m })
      k () { k with tree := k.tree.setMode (if k.options.iframeSrcdoc then k.tree.mode else m) } :=
  .change <| by
    rintro c rfl
    show Constructor.core (if c.options.iframeSrcdoc then c else _) =
      { c.core with tree := c.tree.setMode (if c.options.iframeSrcdoc then c.tree.mode else m) }
    split <;> rfl

theorem takeDoctype_leads (d : DoctypeToken) (h : k.In .initial) :
    Leads byBody token (takeDoctype d) k fun _ _ => True := by
  let doctype : Doctype := ⟨d.name.getD "", d.publicId.getD "", d.systemId.getD ""⟩
  have hroot : k.tree.Accepts .root (.documentType doctype) :=
    Or.inr ⟨rfl, h.sound.noDoctype h.mode, h.sound.noElement (Or.inl h.mode)⟩
  have hmove : Move byBody token k _ :=
    .doctype doctype (if k.options.iframeSrcdoc then k.tree.mode else d.mode) h.mode
  refine .complainThen _ (.doing (a := ()) ?_ (.one hmove) trivial)
  exact (Does.appendNew h.sound.bears.grown hroot).bind
    ((setMode_does d.mode _).bind (.switchTo _ _))

theorem setQuirks_does (k : Core) :
    Does (modify fun c => { c with tree := c.tree.setMode .quirks }) k ()
      { k with tree := k.tree.setMode .quirks } := .change <| by
  rintro c rfl
  rfl

theorem missDoctype_leads (h : k.In .initial) :
    Leads byBody token (missDoctype token) k (Settled token k) := by
  have hsettled : ∀ t,
      Settled token k (.reprocess token) { k with tree := t, mode := .beforeHtml } :=
    fun t => settled_reprocess .initial .beforeHtml (by decide) (by decide) h.mode rfl h.active
  refine .ask fun c hc => .ite (fun _ => .parseErrorThen _ ?_) fun _ => ?_
  · exact .doing ((setQuirks_does k).bind ((Does.switchTo _ _).bind (.value _ _)))
      (.one (.noDoctype .quirks h.mode)) (hsettled _)
  · exact .doThen (.switchTo _ _) (.one (.noDoctype k.tree.mode h.mode)) (.value (hsettled _))

theorem initialRules_leads (h : k.In .initial) :
    Leads byBody token (initialRules token) k (Settled token k) := by
  unfold initialRules
  split
  · exact .ite (fun _ => .value trivial) fun _ => missDoctype_leads h
  · exact (insertCommentIn_leads h (by decide) (Or.inr (Or.inr ⟨Or.inl h.mode, rfl⟩))).settled
  · exact (takeDoctype_leads _ h).settled
  · exact missDoctype_leads h

/-! ## before html and before head -/

/-- the same token in a later mode -/
theorem Leads.reprocess {α : Type} {x : Step α} (m m' : Mode) (hm : m ≠ .afterBody)
    (hlt : m'.rounds < m.rounds) (hk : k.mode = m)
    (hx : Leads byBody token x k fun _ k' => k'.mode = m' ∧ k'.stopped = false) :
    Leads byBody token (x >>= fun _ => pure (.reprocess token)) k (Settled token k) :=
  hx.bind fun _ _ _ h => .value (settled_reprocess m m' hm hlt hk h.1 h.2)

theorem Element.isHtml_ofTag (name : String) (a : List TagAttribute) (n : String) :
    (Element.ofTag name a .html).isHtml n = (name == n) := rfl

theorem Element.isHtml_ofTag_self (tag : StartTag) :
    (Element.ofTag tag.name tag.attributes .html).isHtml tag.name = true :=
  beq_self_eq_true tag.name

theorem openDocumentElement_does {e : Element} (h : k.In .beforeHtml) :
    Does (openDocumentElement e) k () { k.opened .root e with mode := .beforeHead } := by
  have hroot : k.tree.Accepts .root (.element e) := Or.inr ⟨rfl, h.sound.noElement (Or.inr h.mode)⟩
  exact (Does.appendNew h.sound.bears.grown hroot).bind
    ((Does.pushElement _ _).bind (.switchTo _ _))

theorem openDocumentElement_leads {e : Element} (h : k.In .beforeHtml)
    (he : e.isHtml "html" = true) (hmade : token.Makes e) :
    Leads byBody token (openDocumentElement e) k fun _ k' =>
      k'.mode = .beforeHead ∧ k'.stopped = false := by
  have hroom := Tree.HasRoom.ofPlain (h.takesHtml rfl (by decide)) he (by decide)
  exact .doing (openDocumentElement_does h) (.one (.openHtml h.mode he hroom hmade)) ⟨rfl, h.active⟩

theorem implyHtml_leads (h : k.In .beforeHtml)
    (hn : ∀ tag, token = .startTag tag → tag.name ≠ "html") :
    Leads byBody token (implyHtml token) k (Settled token k) :=
  .reprocess .beforeHtml .beforeHead (by decide) (by decide) h.mode
    (openDocumentElement_leads h rfl (.implied fun tag ht => ⟨by decide, hn tag ht⟩))

theorem beforeHtmlRules_leads (h : k.In .beforeHtml) :
    Leads byBody token (beforeHtmlRules token) k (Settled token k) := by
  unfold beforeHtmlRules
  split
  · exact .parseError_settled _
  · exact (insertCommentIn_leads h (by decide) (Or.inr (Or.inr ⟨Or.inr (Or.inl h.mode), rfl⟩))).settled
  · exact .ite (fun _ => .value trivial) fun _ => implyHtml_leads h fun _ => Token.noConfusion
  · refine .ite (fun hn => ?_) fun hn => implyHtml_leads h fun _ ht => by cases ht; exact hn
    exact (openDocumentElement_leads h (by rw [Element.isHtml_ofTag, hn]; rfl) (.ofTag _)).settled
  · exact .ite (fun _ => implyHtml_leads h fun _ => Token.noConfusion) fun _ =>
      .parseError_settled _
  · exact implyHtml_leads h fun _ => Token.noConfusion

/-- the new element is the head, however it is inserted -/
theorem openHead_does {insert : Step NodeId} {place : NodeId} {e : Element}
    (hi : Does insert k ⟨k.tree.size⟩ (k.opened place e)) :
    Does (openHead insert) k ()
      { k.opened place e with mode := .inHead, head := some ⟨k.tree.size⟩ } := by
  have hset : ∀ id j, Does (modify fun c => { c with head := some id }) j ()
      { j with head := some id } := fun id j => .change <| by
    rintro c rfl
    rfl
  exact hi.bind ((hset _ _).bind (.switchTo _ _))

theorem openHead_leads {insert : Step NodeId} {place : NodeId} {e : Element}
    (h : k.In .beforeHead) (hp : k.At place) (he : e.isHtml "head" = true)
    (hmade : token.Makes e) (hi : Does insert k ⟨k.tree.size⟩ (k.opened place e)) :
    Leads byBody token (openHead insert) k fun _ k' => k'.mode = .inHead ∧ k'.stopped = false := by
  have hroom := Tree.HasRoom.ofPlain (h.takesHtml rfl (by decide)) he (by decide)
  exact .doing (openHead_does hi) (.one (.openHead h.mode hp.current he hroom hmade))
    ⟨rfl, h.active⟩

theorem implyHead_leads (h : k.In .beforeHead)
    (hn : ∀ tag, token = .startTag tag → tag.name ≠ "head") :
    Leads byBody token (implyHead token) k (Settled token k) := by
  obtain ⟨place, hp⟩ := h.exists_at (by decide) (by decide)
  have hmade : token.Makes (.bare "head" .html) := .implied fun tag ht => ⟨by decide, hn tag ht⟩
  exact .reprocess .beforeHead .inHead (by decide) (by decide) h.mode
    (openHead_leads h hp rfl hmade (.insertImplied "head" hp))

theorem beforeHeadRules_leads (h : k.In .beforeHead) :
    Leads byBody token (beforeHeadRules token) k (Settled token k) := by
  obtain ⟨place, hp⟩ := h.exists_at (by decide) (by decide)
  unfold beforeHeadRules
  split
  · exact .ite (fun _ => .value trivial) fun _ => implyHead_leads h fun _ => Token.noConfusion
  · exact (insertComment_leads h (by decide) hp).settled
  · exact .parseError_settled _
  · refine .ite (fun hn => (repeatedHtml_leads h (by decide) hn).settled) fun _ => ?_
    refine .ite (fun hn => ?_) fun hn => implyHead_leads h fun _ ht => by cases ht; exact hn
    exact (openHead_leads h hp (by rw [Element.isHtml_ofTag, hn]; rfl) (.ofTag _)
      (.insertHtml _ hp)).settled
  · exact .ite (fun _ => implyHead_leads h fun _ => Token.noConfusion) fun _ =>
      .parseError_settled _
  · exact implyHead_leads h fun _ => Token.noConfusion

/-! ## start tags of metadata -/

/-- the names that a rule is for -/
def HeadStart.Admits (name : String) : HeadStart → Prop
  | void => name ∈ voidNames
  | title | rawText | script => name ∈ textOnlyNames
  | noscript => name = "noscript"
  | template => True

theorem HeadStart.admits_of_ofName? {scripting : Bool} {name : String} {rule : HeadStart}
    (h : ofName? scripting name = some rule) : rule.Admits name := by
  have hvoid : ∀ n ∈ ["base", "basefont", "bgsound", "link", "meta"], n ∈ voidNames := by decide
  have htext : ∀ n ∈ ["title", "noframes", "style", "noscript", "script"], n ∈ textOnlyNames := by
    decide
  unfold ofName? at h
  split_ifs at h with hv ht hr hn hs hsc <;> cases h
  · exact hvoid name hv
  · exact htext name (by rw [ht]; decide)
  · exact htext name (by rcases hr with rfl | rfl <;> decide)
  · exact htext name (by rw [hn]; decide)
  · exact hn
  · exact htext name (by rw [hsc]; decide)
  · trivial

/-- the names that rules put into the head at once -/
theorem HeadStart.metadata_of_ofName? {scripting : Bool} {name : String} {rule : HeadStart}
    (h : ofName? scripting name = some rule) (hn : rule ≠ noscript) (ht : rule ≠ template) :
    name ∈ Mode.inHead.metadataNames scripting := by
  have hsub : ∀ n ∈ ["base", "basefont", "bgsound", "link", "meta"],
      n ∈ Mode.inHead.metadataNames scripting := by
    cases scripting <;> decide
  unfold ofName? at h
  split_ifs at h with hv htitle hr hno hs hsc hte <;> cases h
  · exact hsub name hv
  · rw [htitle]
    cases scripting <;> decide
  · rcases hr with rfl | rfl <;> cases scripting <;> decide
  · rw [hno, hs]
    decide
  · exact absurd rfl hn
  · rw [hsc]
    cases scripting <;> decide
  · exact absurd rfl ht

theorem Mode.metadataNames_plain (scripting : Bool) :
    ∀ name ∈ Mode.inHead.metadataNames scripting, name ∉ Nesting.names := by
  cases scripting <;> decide

/-- what a rule does to a core in which elements go to `place` -/
theorem HeadStart.apply_ends {rule : HeadStart} {place : NodeId} {Q : Unit → Core → Prop}
    {E : Failure → Core → Prop} (hp : k.At place)
    (hn : HeadStart.ofName? k.options.scripting tag.name = some rule)
    (hleaf : ∀ e : Element, e.isHtml tag.name = true → (Token.startTag tag).Makes e →
      tag.name ∈ voidNames →
      tag.name ∈ Mode.inHead.metadataNames k.options.scripting → Q () (k.append place (.element e)))
    (htext : ∀ e : Element, e.isHtml tag.name = true → (Token.startTag tag).Makes e →
      tag.name ∈ textOnlyNames →
      tag.name ∈ Mode.inHead.metadataNames k.options.scripting → Q () (k.opened place e).forText)
    (hnoscript : ∀ e : Element, e.isHtml tag.name = true → (Token.startTag tag).Makes e →
      tag.name = "noscript" → Q () { k.opened place e with mode := .inHeadNoscript })
    (hfail : E (.unsupportedInput k.mode (.startTag tag)) k) : Ends (rule.apply tag) k Q E := by
  have hnames := HeadStart.admits_of_ofName? hn
  have hmeta := HeadStart.metadata_of_ofName? hn
  have he := Element.isHtml_ofTag_self tag
  have hmade := Token.Makes.ofTag tag
  have hdone : ∀ {x : Step Unit} {k' : Core}, Does x k () k' → Q () k' → Ends x k Q E :=
    fun hx hq => Ends.mono hx (fun _ _ h => by rw [h.2]; exact hq) fun _ _ h => h.elim
  cases rule with
  | void => exact hdone (.insertVoid tag hp) (hleaf _ he hmade hnames (hmeta (by decide) (by decide)))
  | title | rawText | script =>
    exact hdone (.insertTextOnly tag _ hp) (htext _ he hmade hnames (hmeta (by decide) (by decide)))
  | noscript => exact hdone ((Does.insertHtml tag hp).bind (.switchTo _ _)) (hnoscript _ he hmade hnames)
  | template =>
    rintro c rfl
    exact hfail

/-- an element of this name is one of those -/
theorem Element.isHtmlOneOf_of_isHtml {e : Element} {name : String} {names : List String}
    (he : e.isHtml name = true) (hn : name ∈ names) : e.isHtmlOneOf names = true := by
  obtain ⟨hns, rfl⟩ := Element.isHtml_iff.mp he
  unfold Element.isHtmlOneOf
  rw [hns, List.contains_iff_mem.mpr hn]
  rfl

/-- metadata where HTML may be put and, up to the body, metadata of this name may be -/
theorem Core.Opens.ofMetadata {e : Element} {name : String} (ht : k.tree.TakesHtml k.entries)
    (he : e.isHtml name = true) (hn : name ∈ Mode.inHead.metadataNames k.options.scripting)
    (hm : k.mode.isBody = false → name ∈ k.mode.metadataNames k.options.scripting) : k.Opens e where
  room := .ofPlain ht he (Mode.metadataNames_plain _ name hn)
  metadata := fun hbody => Element.isHtmlOneOf_of_isHtml he (hm hbody)

/-- metadata in a mode in which text-only elements may begin; a `noscript` that holds elements
stands in the head only -/
theorem HeadStart.apply_leads {rule : HeadStart} {place : NodeId} (hm : k.mode.hostsText = true)
    (he : k.mode.hostsElements = true) (hp : k.At place) (ht : k.tree.TakesHtml k.entries)
    (hn : HeadStart.ofName? k.options.scripting tag.name = some rule)
    (hmeta : tag.name ∈ Mode.inHead.metadataNames k.options.scripting → k.mode.isBody = false →
      tag.name ∈ k.mode.metadataNames k.options.scripting)
    (hno : tag.name = "noscript" → k.mode = .inHead) :
    Leads byBody (.startTag tag) (rule.apply tag) k fun _ _ => True := by
  have hplace : k.TakesElement place := Or.inl ⟨he, hp.current⟩
  refine HeadStart.apply_ends hp hn (fun e he hmade hname hmem => ⟨.one ?_, trivial⟩)
    (fun e he hmade hname hmem => ⟨.one ?_, trivial⟩) (fun e he hmade hname => ⟨.one ?_, trivial⟩) ?_
  · have hopens := Core.Opens.ofMetadata ht he hmem (hmeta hmem)
    exact .leaf hplace (Or.inr (Element.isHtmlOneOf_of_isHtml he hname)) hopens hmade
  · have hopens := Core.Opens.ofMetadata ht he hmem (hmeta hmem)
    exact .textOnly hm hplace (Element.isHtmlOneOf_of_isHtml he hname) hopens hmade
  · rw [hname] at he
    have hroom := Tree.HasRoom.ofPlain ht he (by decide)
    exact .openNoscript (hno hname) hp.current he hroom hmade
  · exact ⟨.refl _, rfl, Or.inl rfl⟩

theorem headContent_leads {place : NodeId} (hm : k.mode.hostsText = true)
    (he : k.mode.hostsElements = true) (hp : k.At place) (ht : k.tree.TakesHtml k.entries)
    (hmeta : tag.name ∈ Mode.inHead.metadataNames k.options.scripting → k.mode.isBody = false →
      tag.name ∈ k.mode.metadataNames k.options.scripting)
    (hno : tag.name = "noscript" → k.mode = .inHead) :
    Leads byBody (.startTag tag) (headContent tag) k fun _ _ => True := by
  refine .ask fun c hc => ?_
  subst hc
  split
  · exact HeadStart.apply_leads hm he hp ht ‹_› hmeta hno
  · exact .value trivial

/-! ## in head -/

theorem leaveFor_does (m : Mode) (k : Core) :
    Does (leaveFor m) k () { k with entries := k.entries.tail, mode := m } :=
  (Does.popElement k).bind (.switchTo m _)

theorem closeHead_leads (h : k.In .inHead) :
    Leads byBody token (leaveFor .afterHead) k fun _ k' =>
      k'.mode = .afterHead ∧ k'.stopped = false :=
  .doing (leaveFor_does _ k) (.one (.closeHead h.mode)) ⟨rfl, h.active⟩

theorem implyHeadEnd_leads (h : k.In .inHead) :
    Leads byBody token (implyHeadEnd token) k (Settled token k) :=
  .reprocess .inHead .afterHead (by decide) (by decide) h.mode (closeHead_leads h)

theorem inHeadStartTag_leads (h : k.In .inHead) :
    Leads byBody (.startTag tag) (inHeadStartTag tag) k (Settled (.startTag tag) k) := by
  obtain ⟨place, hp⟩ := h.exists_at (by decide) (by decide)
  refine .ask fun c hc => ?_
  subst hc
  split
  · refine (HeadStart.apply_leads (by rw [h.mode]; rfl) (by rw [h.mode]; rfl) hp
      (h.takesHtml rfl (by decide)) ‹_› (fun hmem _ => ?_) fun _ => h.mode).settled
    rw [h.mode]
    exact hmem
  · refine .ite (fun hn => (repeatedHtml_leads h (by decide) hn).settled) fun _ => ?_
    exact .ite (fun _ => .parseError_settled _) fun _ => implyHeadEnd_leads h

theorem inHeadEndTag_leads {name : String} (h : k.In .inHead) :
    Leads byBody (.endTag name) (inHeadEndTag name) k (Settled (.endTag name) k) := by
  refine .ite (fun _ => (closeHead_leads h).settled) fun _ => ?_
  refine .ite (fun _ => .unsupported) fun _ => ?_
  exact .ite (fun _ => implyHeadEnd_leads h) fun _ => .parseError_settled _

theorem inHeadRules_leads (h : k.In .inHead) :
    Leads byBody token (inHeadRules token) k (Settled token k) := by
  obtain ⟨place, hp⟩ := h.exists_at (by decide) (by decide)
  unfold inHeadRules
  split
  · exact .ite (fun _ => .value trivial) fun _ => implyHeadEnd_leads h
  · exact (insertComment_leads h (by decide) hp).settled
  · exact .parseError_settled _
  · exact inHeadStartTag_leads h
  · exact inHeadEndTag_leads h
  · exact implyHeadEnd_leads h

/-! ## in head noscript -/

theorem closeNoscript_leads (h : k.In .inHeadNoscript) :
    Leads byBody token (leaveFor .inHead) k fun _ k' => k'.mode = .inHead ∧ k'.stopped = false :=
  .doing (leaveFor_does _ k) (.one (.closeNoscript h.mode)) ⟨rfl, h.active⟩

theorem implyNoscriptEnd_leads (h : k.In .inHeadNoscript) :
    Leads byBody token (implyNoscriptEnd token) k (Settled token k) :=
  .parseErrorThen _ <| .reprocess .inHeadNoscript .inHead (by decide) (by decide) h.mode
    (closeNoscript_leads h)

theorem inHeadNoscriptRules_leads (h : k.In .inHeadNoscript) :
    Leads byBody token (inHeadNoscriptRules token) k (Settled token k) := by
  obtain ⟨place, hp⟩ := h.exists_at (by decide) (by decide)
  unfold inHeadNoscriptRules
  split
  · exact .parseError_settled _
  · exact .ite (fun _ => .value trivial) fun _ => implyNoscriptEnd_leads h
  · exact (insertComment_leads h (by decide) hp).settled
  · refine .ite (fun hn => (repeatedHtml_leads h (by decide) hn).settled) fun _ => ?_
    refine .ite (fun hn => ?_) fun _ => ?_
    · refine (headContent_leads (by rw [h.mode]; rfl) (by rw [h.mode]; rfl) hp
        (h.takesHtml rfl (by decide)) (fun _ _ => ?_) fun he => ?_).settled
      · rw [h.mode]
        exact hn
      · rw [he] at hn
        exact absurd hn (by decide)
    · exact .ite (fun _ => .parseError_settled _) fun _ => implyNoscriptEnd_leads h
  · refine .ite (fun _ => (closeNoscript_leads h).settled) fun _ => ?_
    exact .ite (fun _ => implyNoscriptEnd_leads h) fun _ => .parseError_settled _
  · exact implyNoscriptEnd_leads h

/-! ## after head -/

/-- a change that follows a step also where the step failed -/
theorem Ends.ensure {x : Step Unit} {g : Constructor → Constructor} (g' : Core → Core)
    {Q : Unit → Core → Prop} {E : Failure → Core → Prop} (hg : ∀ c, (g c).core = g' c.core)
    (hx : Ends x k (fun a k' => Q a (g' k')) fun e k' => E e (g' k')) :
    Ends (do
      tryCatch x fun e => do
        modify g
        throw e
      modify g) k Q E := by
  intro c hc
  have h := hx c hc
  rw [Step.run_bind, Step.run_tryCatch]
  rcases hr : x.run c with ⟨e | a, c'⟩ <;> rw [hr] at h
  · show E e (g c').core
    rw [hg]
    exact h
  · show Q () (g c').core
    rw [hg]
    exact h

/-- the head is opened just for this tag, and is closed again whatever becomes of it -/
theorem lateHeadContent_leads (h : k.In .afterHead) (hn : tag.name ∈ headContentNames) :
    Leads byBody (.startTag tag) (lateHeadContent tag) k fun _ _ => True := by
  obtain ⟨head, hhead⟩ := Option.isSome_iff_exists.mp (h.fits.head_iff.mpr rfl)
  have hlabel := Tree.label?_isSome_of_isHtml (h.sound.bears.head head hhead)
  have hplace : k.TakesElement head := Or.inr ⟨h.mode, hhead⟩
  have hat : ({ k with entries := head :: k.entries } : Core).At head :=
    ⟨h.sound.bears.grown, rfl, hlabel⟩
  have hnew : (⟨k.tree.size⟩ : NodeId) ≠ head := fun e => by
    have hlt := Tree.index_lt_of_label? hlabel
    rw [← e] at hlt
    exact Nat.lt_irrefl _ hlt
  refine .parseErrorThen _ (.ask fun c hc => ?_)
  rw [show c.head = some head by rw [← hhead, ← hc]; rfl]
  refine (Does.pushElement head k).andThen ?_
  refine Ends.ensure (fun j => { j with entries := j.entries.erase head }) (fun _ => rfl) ?_
  refine Ends.ask fun c' hc' => ?_
  -- the head is the innermost entry, or the one around a new text-only element
  have hself : (head :: k.entries).erase head = k.entries := List.erase_cons_head _ _
  have hinner : (⟨k.tree.size⟩ :: head :: k.entries).erase head = ⟨k.tree.size⟩ :: k.entries := by
    rw [List.erase_cons_tail (by simp [hnew]), hself]
  split
  · rename_i rule hrule
    rw [show c'.options = k.options from congrArg Core.options hc'] at hrule
    have hopens : ∀ e : Element, e.isHtml tag.name = true →
        tag.name ∈ Mode.inHead.metadataNames k.options.scripting → k.Opens e := fun e he hmem => by
      refine .ofMetadata (h.takesHtml rfl (by decide)) he hmem fun _ => ?_
      rw [h.mode]
      exact hmem
    refine HeadStart.apply_ends hat hrule (fun e he hmade hname hmem => ⟨.one ?_, trivial⟩)
      (fun e he hmade hname hmem => ⟨.one ?_, trivial⟩) (fun e _ _ hname => ?_)
      ⟨?_, rfl, Or.inl rfl⟩
    · show Move _ _ k { k.append head (.element e) with entries := (head :: k.entries).erase head }
      rw [hself]
      exact .leaf hplace (Or.inr (Element.isHtmlOneOf_of_isHtml he hname)) (hopens e he hmem) hmade
    · show Move _ _ k { (k.opened head e).forText with
        entries := (⟨k.tree.size⟩ :: head :: k.entries).erase head }
      rw [hinner]
      exact .textOnly (by rw [h.mode]; rfl) hplace (Element.isHtmlOneOf_of_isHtml he hname)
        (hopens e he hmem) hmade
    · rw [hname] at hn
      exact absurd hn (by decide)
    · show Moves _ _ k { k with entries := (head :: k.entries).erase head }
      rw [hself]
      exact .refl k
  · refine .value ⟨?_, trivial⟩
    show Moves _ _ k { k with entries := (head :: k.entries).erase head }
    rw [hself]
    exact .refl k

theorem implyBody_does {place : NodeId} (hp : k.At place) :
    Does (implyBody token) k (.reprocess token)
      { k.opened place (.bare "body" .html) with mode := .inBody } :=
  (Does.insertImplied "body" hp).bind ((Does.switchTo _ _).bind (.value _ _))

theorem implyBody_leads (h : k.In .afterHead)
    (hn : ∀ tag, token = .startTag tag → tag.name ≠ "body") :
    Leads byBody token (implyBody token) k (Settled token k) := by
  obtain ⟨place, hp⟩ := h.exists_at (by decide) (by decide)
  have hbody : (Element.bare "body" .html).isHtml "body" = true := rfl
  have hroom : k.tree.HasRoom k.entries (.bare "body" .html) :=
    .ofPlain (h.takesHtml rfl (by decide)) hbody (by decide)
  have hmove : Move byBody token k _ :=
    .openBody h.mode hp.current rfl hroom (.implied fun tag ht => ⟨by decide, hn tag ht⟩)
  refine .doing (implyBody_does hp) (.one hmove) ?_
  exact settled_reprocess .afterHead .inBody (by decide) (by decide) h.mode rfl h.active

theorem openBody_leads (h : k.In .afterHead) (hn : tag.name = "body") :
    Leads byBody (.startTag tag) (openBody tag) k fun _ _ => True := by
  obtain ⟨place, hp⟩ := h.exists_at (by decide) (by decide)
  have hbody : (Element.ofTag tag.name tag.attributes .html).isHtml "body" = true := by
    rw [Element.isHtml_ofTag, hn]
    rfl
  have hroom := Tree.HasRoom.ofPlain (h.takesHtml rfl (by decide)) hbody (by decide)
  refine .doing (a := ()) ?_ (.one (.openBody h.mode hp.current hbody hroom (.ofTag tag)))
    trivial
  exact (Does.insertHtml tag hp).bind ((Does.framesetNotOk _).bind (.switchTo _ _))

theorem afterHeadRules_leads (h : k.In .afterHead) :
    Leads byBody token (afterHeadRules token) k (Settled token k) := by
  obtain ⟨place, hp⟩ := h.exists_at (by decide) (by decide)
  unfold afterHeadRules
  split
  · refine .ite (fun hblank => ?_) fun _ => implyBody_leads h fun _ => Token.noConfusion
    have htext : k.TakesText _ := Or.inr (Or.inr ⟨h.mode, hblank⟩)
    exact (Leads.insertText (Q := fun _ _ => True) _ rfl htext hp fun _ => trivial).settled
  · exact (insertComment_leads h (by decide) hp).settled
  · exact .parseError_settled _
  · refine .ite (fun hn => (repeatedHtml_leads h (by decide) hn).settled) fun _ => ?_
    refine .ite (fun hn => (openBody_leads h hn).settled) fun hbody => ?_
    refine .ite (fun _ => .unsupported) fun _ => ?_
    refine .ite (fun hn => (lateHeadContent_leads h hn).settled) fun _ => ?_
    refine .ite (fun _ => .parseError_settled _) fun _ => implyBody_leads h fun _ ht => ?_
    cases ht
    exact hbody
  · refine .ite (fun _ => .unsupported) fun _ => ?_
    exact .ite (fun _ => implyBody_leads h fun _ => Token.noConfusion) fun _ =>
      .parseError_settled _
  · exact implyBody_leads h fun _ => Token.noConfusion

end HtmlTree
