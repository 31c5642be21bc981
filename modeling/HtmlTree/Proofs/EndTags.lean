import HtmlTree.Proofs.Session

/-!
# What an end tag of the body closes

The routines that close elements differ in how they look for the element to be closed: in a scope,
among the headings, as the current node, past all that is not special, among foreign elements.  But
each has found the element before it takes anything off the stack, and takes off what is inside the
element and the element itself.  So an end tag either leaves the stack as it is or closes the element
that it names with all that is inside it.

* `Tree.Answers`            the elements that an end tag of a name may close;
* `Core.Closes`             the stack is as before, or such an element was closed with its inside;
* `Yields`                  what holds after a step that succeeds;
* `closeInScope_closes`, `closeHeading_closes`, `closeOther_closes`, `endParagraph_closes`,
  `endLineBreak_closes`     the routines of the body;
* `foreignStage_closes`     those of foreign content;
* `end_tag_closes_named`    **what an end tag of the body leaves of the stack**.
-/

namespace HtmlTree

variable {α β : Type} {k j i : Core} {x : Step α} {f : α → Step β} {Q : α → Core → Prop}
  {R : β → Core → Prop} {name : String} {names : List String} {token : Token}
  {inside outside : List NodeId} {id : NodeId}

/-! ## what an end tag may close -/

/-- an element of this name, a foreign one that has this name in small letters, or for the end tag of
a heading any heading -/
def Tree.Answers (t : Tree) (name : String) (id : NodeId) : Prop :=
  ∃ e, t.element? id = some e ∧
    (e.ns = .html ∧ e.localName = name ∨
      (e.ns = .svg ∨ e.ns = .mathMl) ∧ Text.lower e.localName = name ∨
      name ∈ headingNames ∧ e.ns = .html ∧ e.localName ∈ headingNames)

/-- no element is closed, or one that the end tag names with all that is inside it; a formatting
element is among them only for the end tags of such elements and of those that seal them off -/
def Core.Closes (k : Core) (name : String) (j : Core) : Prop :=
  j.entries = k.entries ∨ ∃ inside id, k.entries = inside ++ id :: j.entries ∧
    k.tree.Answers name id ∧
    ((∃ y ∈ id :: inside, k.tree.isHtmlOneOf formattingNames y = true) →
      name ∈ formattingNames ∨ name ∈ sealNames)

theorem Tree.Answers.ofHtml {t : Tree} (h : t.isHtml name id = true) : t.Answers name id := by
  obtain ⟨e, he, hns, hname⟩ := Tree.exists_of_isHtml h
  exact ⟨e, he, Or.inl ⟨hns, hname⟩⟩

theorem Tree.Answers.ofHeading {t : Tree} (hn : name ∈ headingNames)
    (h : t.isHtmlOneOf headingNames id = true) : t.Answers name id := by
  obtain ⟨e, he, hone⟩ := Tree.elementSatisfies_iff.mp h
  obtain ⟨hns, hmem⟩ := Element.isHtmlOneOf_iff.mp hone
  exact ⟨e, he, Or.inr (Or.inr ⟨hn, hns, hmem⟩)⟩

/-- an element of the name was found with no formatting element inside it -/
theorem Core.Closes.found (hf : Found k names inside id outside) (ha : k.tree.Answers name id)
    (hn : ∀ n ∈ names, n ∉ formattingNames)
    (hin : ∀ y ∈ inside, k.tree.isHtmlOneOf formattingNames y = false) :
    k.Closes name { k with entries := outside } := by
  refine Or.inr ⟨inside, id, hf.split, ha, ?_⟩
  rintro ⟨y, hy, hformat⟩
  have hnot : k.tree.isHtmlOneOf formattingNames y = false := by
    rcases List.mem_cons.mp hy with rfl | hy
    · exact Tree.isHtmlOneOf_disjoint hn hf.named
    · exact hin y hy
  exact absurd (hnot.symm.trans hformat) Bool.noConfusion

/-! ## steps that succeed -/

/-- where the step succeeds, `Q` holds of its answer and the core -/
def Yields (x : Step α) (k : Core) (Q : α → Core → Prop) : Prop := Ends x k Q fun _ _ => True

namespace Yields

theorem mono {Q' : α → Core → Prop} (h : Yields x k Q) (hq : ∀ a j, Q a j → Q' a j) :
    Yields x k Q' := Ends.mono h hq fun _ _ _ => trivial

theorem value {a : α} (h : Q a k) : Yields (pure a) k Q := Ends.value h

theorem bind (hx : Yields x k Q) (hf : ∀ a j, Q a j → Yields (f a) j R) : Yields (x >>= f) k R :=
  Ends.bind hx hf

/-- a step with one outcome, and others after it -/
theorem doThen {a : α} (hx : Does x k a j) (hf : Yields (f a) j R) : Yields (x >>= f) k R :=
  hx.andThen hf

theorem ask {g : Constructor → Step α} (h : ∀ c, c.core = k → Yields (g c) k Q) :
    Yields (get >>= g) k Q := Ends.ask h

theorem ite {p : Prop} [Decidable p] {y : Step α} (hx : p → Yields x k Q)
    (hy : ¬p → Yields y k Q) : Yields (if p then x else y) k Q := by
  split
  · exact hx ‹_›
  · exact hy ‹_›

theorem parseError {Q : Unit → Core → Prop} (kind : ParseErrorKind) (h : Q () k) :
    Yields (HtmlTree.parseError kind) k Q := Ends.parseError kind h fun _ _ => trivial

theorem parseErrorThen {g : Unit → Step β} (kind : ParseErrorKind) (hg : Yields (g ()) k R) :
    Yields (HtmlTree.parseError kind >>= g) k R := Ends.parseErrorThen kind hg fun _ _ => trivial

theorem unsupported (t : Token) : Yields (HtmlTree.unsupported t : Step α) k Q :=
  fun _ _ => trivial

theorem ofTries (h : Tries token x k Q) : Yields x k Q := Ends.mono h (fun _ _ hq => hq)
  fun _ _ _ => trivial

theorem ofLeads {byBody : Bool} (h : Leads byBody token x k Q) : Yields x k Q :=
  Ends.mono h (fun _ _ hq => hq.2) fun _ _ _ => trivial

/-- the rule is done with the token -/
theorem finished {x : Step Unit} {P : Core → Prop} (h : Yields x k fun _ j => P j) :
    Yields (HtmlTree.finished x) k fun v j => v = .done ∧ P j :=
  h.bind fun _ _ hj => value ⟨rfl, hj⟩

end Yields

/-! ## the routines of the body -/

/-- an element that was found is closed, if no formatting element is inside it -/
theorem closeFound_yields {except : Option String} {expected : List String}
    {kind : ParseErrorKind} (hm : k.mode.isBody = true) (hf : Found k names inside id outside)
    (himp : ∀ n ∈ names, n ∈ impliedEndNames → except = some n) :
    Yields (do
      keepFormattingIn names token
      generateImpliedEndTags except
      expectCurrent expected kind
      popUntilOneOf names) k fun _ j => j = { k with entries := outside } ∧
        ∀ y ∈ inside, k.tree.isHtmlOneOf formattingNames y = false := by
  have hkeep : Leads true token (keepFormattingIn names token) k _ := keepFormattingIn_leads hf
  refine Yields.bind (.ofLeads hkeep) fun _ j hj => ?_
  obtain ⟨rfl, hin⟩ := hj
  have hclose : Tries token (do
      generateImpliedEndTags except
      expectCurrent expected kind
      popUntilOneOf names) j fun _ i => i = { j with entries := outside } :=
    closeUpTo_tries hm hf himp
  exact (Yields.ofTries hclose).mono fun _ _ he => ⟨he, hin⟩

theorem closeParagraph_yields (hm : k.mode.isBody = true) (hf : Found k ["p"] inside id outside) :
    Yields (closeParagraph token) k fun _ j => j = { k with entries := outside } ∧
      ∀ y ∈ inside, k.tree.isHtmlOneOf formattingNames y = false :=
  closeFound_yields hm hf fun n hn _ => by rw [List.mem_singleton.mp hn]

theorem Found.answers (hf : Found k [name] inside id outside) : k.tree.Answers name id := by
  have hid := hf.named
  rw [Tree.isHtmlOneOf_singleton] at hid
  exact .ofHtml hid

/-- the end tag of an element that does not seal off -/
theorem closeInScope_closes {scope : Scope} {sparing : Bool} (hm : k.mode.isBody = true)
    (hmarker : name ∉ markerNames) (hformat : name ∉ formattingNames)
    (himp : name ∈ impliedEndNames → sparing = true) :
    Yields (closeInScope name scope sparing token) k fun _ j => k.Closes name j := by
  refine .ask fun c hc => .ite (fun hin => ?_) fun _ => .parseError _ (Or.inl rfl)
  subst hc
  obtain ⟨inside, id, outside, hf, _⟩ := Found.ofScope (k := c.core) hin
  dsimp only
  rw [if_pos hmarker]
  refine (closeFound_yields hm hf fun n hn hi => ?_).mono fun _ j hj => ?_
  · rw [List.mem_singleton.mp hn] at hi ⊢
    rw [if_pos (himp hi)]
  · obtain ⟨rfl, hinside⟩ := hj
    refine .found hf hf.answers (fun n hn => ?_) hinside
    rw [List.mem_singleton.mp hn]
    exact hformat

/-- the end tag of an element that seals off closes whatever it seals off -/
theorem closeSeal_closes {scope : Scope} (hm : k.mode.isBody = true) (hn : name ∈ sealNames) :
    Yields (closeInScope name scope false token) k fun _ j => k.Closes name j := by
  refine (Yields.ofTries (closeSeal_tries hm hn)).mono fun _ j hj => ?_
  rcases hj with rfl | ⟨inside, id, outside, hf, _, rfl⟩
  · exact Or.inl rfl
  · exact Or.inr ⟨inside, id, hf.split, hf.answers, fun _ => Or.inr hn⟩

theorem closeHeading_closes (hm : k.mode.isBody = true) (hn : name ∈ headingNames) :
    Yields (closeHeading name token) k fun _ j => k.Closes name j := by
  have hplain : ∀ n ∈ headingNames, n ∉ formattingNames ∧ n ∉ impliedEndNames := by decide
  refine .ask fun c hc => .ite (fun hin => ?_) fun _ => .parseError _ (Or.inl rfl)
  subst hc
  obtain ⟨inside, id, outside, hf, _⟩ := Found.ofScope (k := c.core) hin
  refine (closeFound_yields hm hf fun n hn hi => ?_).mono fun _ j hj => ?_
  · exact absurd hi (hplain n hn).2
  · obtain ⟨rfl, hinside⟩ := hj
    exact .found hf (.ofHeading hn hf.named) (fun n hn => (hplain n hn).1) hinside

theorem closeFormatting_closes (hn : name ∈ formattingNames) :
    Yields (closeFormatting name token) k fun _ j => k.Closes name j := by
  refine (Yields.ofTries (closeFormatting_tries name k)).mono fun _ j hj => ?_
  rcases hj with rfl | ⟨id, rest, he, hid, rfl⟩
  · exact Or.inl rfl
  · exact Or.inr ⟨[], id, he, .ofHtml hid, fun _ => Or.inl hn⟩

/-- the search passes over elements that are not special; what it stops at is closed if it has the
name -/
theorem closeOther_closes (hformat : name ∉ formattingNames) :
    Yields (closeOther name token) k fun _ j => k.Closes name j := by
  refine .ask fun c hc => ?_
  subst hc
  dsimp only
  split
  · exact .value (Or.inl rfl)
  rename_i inside id outside hsplit
  refine .ite (fun hid => ?_) fun _ => .parseError _ (Or.inl rfl)
  have he : c.core.entries = inside ++ id :: outside := (OpenElements.splitAt?_eq_some hsplit).1
  have hkeep : Leads true token (keepFormatting inside token) c.core _ :=
    keepFormatting_leads inside
  refine Yields.bind (.ofLeads hkeep) fun _ j hj => ?_
  obtain ⟨rfl, hin⟩ := hj
  have hset : ∀ j : Core, Does (modify fun c : Constructor =>
      { c with openElements := ⟨outside⟩ }) j () { j with entries := outside } := fun j =>
    .change fun d hd => congrArg (fun j : Core => { j with entries := outside }) hd
  have hclosed : c.core.Closes name { c.core with entries := outside } := by
    refine Or.inr ⟨inside, id, he, .ofHtml hid, ?_⟩
    rintro ⟨y, hy, hy'⟩
    rcases List.mem_cons.mp hy with rfl | hy
    · have hnot := Tree.isHtmlOneOf_eq_false hid hformat
      exact absurd (hnot.symm.trans hy') Bool.noConfusion
    · exact absurd ((hin y hy).symm.trans hy') Bool.noConfusion
  refine .doThen (generateImpliedEndTags_does (some name) _) (.ask fun _ _ => ?_)
  refine .ite (fun _ => .parseErrorThen _ ?_) fun _ => ?_
  · exact Ends.mono (hset _) (fun _ _ h => h.2 ▸ hclosed) fun _ _ _ => trivial
  · exact Ends.mono (hset _) (fun _ _ h => h.2 ▸ hclosed) fun _ _ _ => trivial

/-- a paragraph that is not open is opened first, and closed at once -/
theorem endParagraph_closes (hk : k.In .inBody) :
    Yields (endParagraph token) k fun _ j => k.Closes "p" j := by
  have hm := hk.isBody rfl
  refine .ask fun c hc => .ite (fun _ => .parseErrorThen _ ?_) fun hin => ?_ <;> subst hc
  · obtain ⟨place, hp⟩ := hk.exists_at (by decide) (by decide)
    refine .doThen (.insertImplied "p" hp) ?_
    have hname : (c.core.opened place (.bare "p" .html)).tree.isHtml "p" ⟨c.core.tree.size⟩ = true :=
      Tree.isHtml_attach_new rfl
    have hf : Found (c.core.opened place (.bare "p" .html)) ["p"] [] ⟨c.core.tree.size⟩
        c.core.entries :=
      ⟨rfl, Tree.isHtmlOneOf_of_isHtml hname (List.mem_singleton_self _),
        fun y hy => absurd hy List.not_mem_nil⟩
    refine (closeParagraph_yields (by exact hm) hf).mono fun _ j hj => ?_
    rw [hj.1]
    exact Or.inl rfl
  · rw [Bool.not_eq_true', Bool.not_eq_false] at hin
    obtain ⟨inside, id, outside, hf, _⟩ := Found.ofScope (k := c.core) hin
    refine (closeParagraph_yields hm hf).mono fun _ j hj => ?_
    obtain ⟨rfl, hinside⟩ := hj
    exact .found hf hf.answers (by decide) hinside

/-- a line break is inserted and closed at once -/
theorem endLineBreak_closes (hk : k.In .inBody) :
    Yields endLineBreak k fun _ j => j.entries = k.entries := by
  obtain ⟨place, hp⟩ := hk.exists_at (by decide) (by decide)
  refine .parseErrorThen _ (.doThen (.insertImplied "br" hp) ?_)
  exact .doThen (.popElement _) (Ends.mono (Does.framesetNotOk _) (fun _ _ h => h.2 ▸ rfl)
    fun _ _ _ => trivial)

theorem BodyEnd.ofName_formatting : ∀ n ∈ formattingNames, ofName n = formatting := by decide

/-- what a rule for an end tag leaves: the tag is done with, or the end of the document goes on behind
the body -/
def Core.EndsTag (k : Core) (name : String) : Verdict → Core → Prop
  | .done, j => k.Closes name j
  | .reprocess t, j => t = .endTag name ∧ name = "html" ∧ j = { k with mode := .afterBody }

theorem Yields.endsTag {x : Step Unit} (h : Yields x k fun _ j => k.Closes name j) :
    Yields (HtmlTree.finished x) k (k.EndsTag name) :=
  h.finished.mono fun v j hj => by
    rw [hj.1]
    exact hj.2

/-- **What an end tag of the body closes**, by its rule. -/
theorem BodyEnd.apply_closes {rule : BodyEnd} (hk : k.In .inBody) (hform : name ≠ "form")
    (hr : BodyEnd.ofName name = rule) : Yields (rule.apply name) k (k.EndsTag name) := by
  have hm := hk.isBody rfl
  have hmem := fun names : List String => mem_of_rule names hr
  cases rule with
  | template => exact .unsupported _
  | body =>
    refine Yields.endsTag (Ends.bind (closeBody_ends k) fun ended j hj => .value (Or.inl ?_))
    rw [hj]
    split <;> rfl
  | html =>
    have hname := List.mem_singleton.mp (hmem ["html"] (by decide) (by decide))
    refine Ends.bind (closeBody_ends k) fun ended j hj => ?_
    rw [hj]
    cases ended with
    | true => exact .value ⟨by rw [hname], hname, rfl⟩
    | false => exact .value (Or.inl rfl)
  | block =>
    have hplain : ∀ n ∈ blockEndNames,
        n ∉ markerNames ∧ n ∉ formattingNames ∧ n ∉ impliedEndNames := by decide
    obtain ⟨hmarker, hformat, himp⟩ :=
      hplain name (hmem blockEndNames (by decide) (by decide))
    exact .endsTag (closeInScope_closes hm hmarker hformat fun hi => absurd hi himp)
  | form => exact absurd (List.mem_singleton.mp (hmem ["form"] (by decide) (by decide))) hform
  | paragraph =>
    have hname := List.mem_singleton.mp (hmem ["p"] (by decide) (by decide))
    subst hname
    exact .endsTag (endParagraph_closes hk)
  | listItem =>
    have hname := List.mem_singleton.mp (hmem ["li"] (by decide) (by decide))
    subst hname
    exact .endsTag (closeInScope_closes hm (by decide) (by decide) fun _ => rfl)
  | description =>
    have hplain : ∀ n ∈ ["dd", "dt"], n ∉ markerNames ∧ n ∉ formattingNames := by decide
    obtain ⟨hmarker, hformat⟩ := hplain name (hmem ["dd", "dt"] (by decide) (by decide))
    exact .endsTag (closeInScope_closes hm hmarker hformat fun _ => rfl)
  | heading =>
    exact .endsTag (closeHeading_closes hm (hmem headingNames (by decide) (by decide)))
  | formatting =>
    exact .endsTag (closeFormatting_closes (hmem formattingNames (by decide) (by decide)))
  | marker => exact .endsTag (closeSeal_closes hm (hmem sealNames (by decide) (by decide)))
  | lineBreak => exact .endsTag ((endLineBreak_closes hk).mono fun _ _ hj => Or.inl hj)
  | other =>
    refine .endsTag (closeOther_closes fun hformat => ?_)
    rw [ofName_formatting name hformat] at hr
    cases hr

/-! ## the routines of foreign content -/

/-- where the search arrives it has passed over foreign elements only, and the outermost entry stays -/
theorem foreignEndSearch_finds {isNamed isHtml : NodeId → Bool} {ids : List NodeId}
    (hid : ∀ y ∈ ids.head?, isHtml y = false)
    (h : foreignEndSearch isNamed isHtml ids = .closeTo outside) :
    ∃ inside id, ids = inside ++ id :: outside ∧ isNamed id = true ∧
      (∀ y ∈ id :: inside, isHtml y = false) ∧ outside ≠ [] := by
  fun_induction foreignEndSearch isNamed isHtml ids with
  | case1 => cases h
  | case2 => cases h
  | case3 y outer r hy =>
    cases h
    refine ⟨[], y, rfl, hy, fun z hz => ?_, List.cons_ne_nil _ _⟩
    rw [List.mem_singleton.mp hz]
    exact hid y rfl
  | case4 y outer r hy ho => cases h
  | case5 y outer r hy ho ih =>
    obtain ⟨inside, id, he, hnamed, hin, hne⟩ :=
      ih (fun z hz => by cases hz; exact Bool.eq_false_iff.mpr ho) h
    refine ⟨y :: inside, id, by rw [he, List.cons_append], hnamed, fun z hz => ?_, hne⟩
    rcases List.mem_cons.mp hz with rfl | hz
    · exact hin _ List.mem_cons_self
    · rcases List.mem_cons.mp hz with rfl | hz
      · exact hid _ rfl
      · exact hin z (List.mem_cons_of_mem _ hz)

/-- an open element that is not HTML is one of SVG or of MathML -/
theorem Tree.Nested.foreign_ns {t : Tree} {e : Element} (h : t.Nested (id :: outside))
    (hne : outside ≠ []) (he : t.element? id = some e) (hns : e.ns ≠ .html) :
    e.ns = .svg ∨ e.ns = .mathMl := by
  obtain ⟨outer, rest, rfl⟩ := List.exists_cons_of_ne_nil hne
  obtain ⟨p, _, hholds⟩ := Tree.elementSatisfies_iff.mp ((h.1 e he).parent outer rfl)
  exact (Element.ns_of_mayHold hholds).resolve_left hns

/-- foreign elements are closed up to one that has the name in small letters -/
theorem Core.Closes.foreign (hs : k.Sound) (he : k.entries = inside ++ id :: outside)
    (hnamed : k.tree.elementSatisfies (Element.hasSmallName name) id = true)
    (hin : ∀ y ∈ id :: inside, k.tree.elementSatisfies (·.ns == .html) y = false)
    (hne : outside ≠ []) : k.Closes name { k with entries := outside } := by
  refine Or.inr ⟨inside, id, he, ?_, ?_⟩
  · obtain ⟨e, hel, hsmall⟩ := Tree.elementSatisfies_iff.mp hnamed
    have hns : e.ns ≠ .html := by
      intro hhtml
      have hnot := hin id List.mem_cons_self
      unfold Tree.elementSatisfies at hnot
      rw [hel, Option.any_some, hhtml] at hnot
      exact Bool.noConfusion hnot
    have hnested := hs.nested
    rw [he] at hnested
    exact ⟨e, hel, Or.inr (Or.inl ⟨hnested.drop.foreign_ns hne hel hns, eq_of_beq hsmall⟩)⟩
  · rintro ⟨y, hy, hformat⟩
    have hnot : k.tree.isHtmlOneOf formattingNames y = false :=
      Tree.isHtmlOneOf_eq_false_of_ns (hin y hy)
    exact absurd (hnot.symm.trans hformat) Bool.noConfusion

/-- what the rules for foreign content leave of an end tag: it is done with, or nothing has happened -/
def Core.EndsForeign (k : Core) (name : String) : ForeignVerdict → Core → Prop
  | .done, j => k.Closes name j
  | .toMode, j => j = k

theorem foreignEndTag_closes (hs : k.Sound) (hid : k.entries.head? = some id)
    (hns : k.tree.elementSatisfies (·.ns == .html) id = false) :
    Yields (foreignEndTag name) k (k.EndsForeign name) := by
  -- the search is the same with and without a report before it
  refine .ask fun c _ => .ite (fun _ => .parseErrorThen _ ?_) fun _ => ?_
  all_goals
    refine .ask fun c hc => ?_
    subst hc
    dsimp only
    split
    · exact .value (Or.inl rfl)
    · rename_i outside hfound
      obtain ⟨inside, id', he, hnamed, hin, hne⟩ := foreignEndSearch_finds (fun y hy => by
        rw [show c.openElements.entries.head? = some id from hid] at hy
        cases hy
        exact hns) hfound
      have hclosed : c.core.Closes name { c.core with entries := outside } :=
        .foreign hs he hnamed hin hne
      refine .doThen (Does.change fun d hd => ?_) (.value hclosed)
      exact congrArg (fun j : Core => { j with entries := outside }) hd
    · exact .value rfl

/-- nothing has to be closed to leave foreign content where it ends at the current node -/
theorem breakOut_idle (kind : ParseErrorKind) (h : k.tree.TakesHtml k.entries) :
    Yields (breakOut kind) k fun v j => v = .toMode ∧ j = k := by
  have hstay : k.entries.dropWhile (k.tree.elementSatisfies fun e => !e.endsForeignContent) =
      k.entries := by
    cases he : k.entries with
    | nil => rfl
    | cons y rest =>
      have hends := h y (by rw [he]; rfl)
      obtain ⟨e, hel, hend⟩ := Tree.elementSatisfies_iff.mp hends
      refine List.dropWhile_cons_of_neg ?_
      unfold Tree.elementSatisfies
      rw [hel, Option.any_some, hend]
      exact Bool.false_ne_true
  refine .parseErrorThen _ (.bind (Q := fun _ j => j = k) (Ends.change fun c hc => ?_)
    fun _ _ hj => .value ⟨rfl, hj⟩)
  subst hc
  exact congrArg (fun ids => { c.core with entries := ids }) hstay

/-- **What an end tag closes in foreign content.** -/
theorem foreignStage_closes (hs : k.Sound)
    (htakes : name = "br" ∨ name = "p" → k.tree.TakesHtml k.entries) :
    Yields (foreignStage (.endTag name)) k (k.EndsForeign name) := by
  refine .ask fun c hc => ?_
  subst hc
  split
  · rename_i ns hforeign
    obtain ⟨id, e, hid, he, rfl, hne⟩ := foreignNamespace?_eq_some hforeign
    have hns : c.core.tree.elementSatisfies (·.ns == .html) id = false := by
      unfold Tree.elementSatisfies
      rw [he, Option.any_some, beq_false_of_ne hne]
    refine .ite (fun hn => ?_) fun _ => .ask fun d hd => .ite (fun hscript => ?_) fun _ => ?_
    · refine (breakOut_idle _ (htakes hn)).mono fun v j hv => ?_
      rw [hv.1]
      exact hv.2
    · -- the current node is the script
      obtain ⟨rfl, hcurrent⟩ := hscript
      obtain ⟨rest, hentries⟩ : ∃ rest, c.core.entries = id :: rest :=
        List.head?_eq_some_iff.mp hid
      have hel : d.currentElement? = some e := by
        show d.core.entries.head?.bind d.core.tree.element? = some e
        rw [hd, hid]
        exact he
      rw [hel, Option.any_some, Bool.and_eq_true, beq_iff_eq, beq_iff_eq] at hcurrent
      have hpop := Does.popElement c.core
      rw [hentries] at hpop
      refine Ends.bind (P := fun _ j => c.core.Closes "script" j) ?_ fun _ _ hj => .value hj
      refine Ends.mono hpop (fun _ j hj => ?_) fun _ _ _ => trivial
      rw [hj.2]
      refine Or.inr ⟨[], id, hentries, ⟨e, he, Or.inr (Or.inl ⟨Or.inl hcurrent.1, ?_⟩)⟩, ?_⟩
      · rw [hcurrent.2]
        decide +kernel
      · rintro ⟨y, hy, hformat⟩
        rw [List.mem_singleton.mp hy, Tree.isHtmlOneOf_eq_false_of_ns hns] at hformat
        exact Bool.noConfusion hformat
    · exact foreignEndTag_closes hs hid hns
  · exact .value rfl

/-! ## all rounds -/

/-- one round in the body -/
theorem dispatch_endsTag (hk : k.In .inBody) (hform : name ≠ "form")
    (htakes : name = "br" ∨ name = "p" → k.tree.TakesHtml k.entries) :
    Yields (dispatch (.endTag name)) k (k.EndsTag name) := by
  refine Yields.bind (foreignStage_closes hk.sound htakes) fun v j hv => ?_
  cases v with
  | done => exact .value hv
  | toMode =>
    have hj : j = k := hv
    subst hj
    exact Ends.ofMode hk.mode (BodyEnd.apply_closes hk hform rfl)

/-- behind the body the end of the document closes nothing but foreign elements -/
theorem dispatch_html (hk : k.In .afterBody) :
    Yields (dispatch (.endTag "html")) k fun v j => v = .done ∧ k.Closes "html" j := by
  refine Yields.bind (foreignStage_closes hk.sound fun hn => absurd hn (by decide)) fun v j hv => ?_
  cases v with
  | done => exact .value ⟨rfl, hv⟩
  | toMode =>
    have hj : j = k := hv
    subst hj
    refine Ends.ofMode hk.mode (Yields.finished (P := j.Closes "html") ?_)
    exact Ends.mono (Does.switchTo .afterAfterBody j) (fun _ i hi => by
      rw [hi.2]
      exact Or.inl rfl) fun _ _ _ => trivial

theorem processToken_closes (hk : k.In .inBody) (hform : name ≠ "form")
    (htakes : name = "br" ∨ name = "p" → k.tree.TakesHtml k.entries) :
    Yields (processToken (.endTag name)) k fun _ j => k.Closes name j := by
  have hrounds : Yields (processWithin maxRounds (.endTag name)) k fun _ j => k.Closes name j := by
    refine Yields.bind (dispatch_endsTag hk hform htakes) fun v j hv => ?_
    cases v with
    | done => exact .value hv
    | reprocess t =>
      obtain ⟨rfl, rfl, rfl⟩ := hv
      have hmove : Move true (.endTag "html") k { k with mode := .afterBody } :=
        .goto (hk.isBody rfl) rfl
      have hafter : Core.In { k with mode := .afterBody } .afterBody :=
        ⟨hmove.sound hk.sound, rfl, hk.active⟩
      refine Yields.bind (dispatch_html hafter) fun v i hi => ?_
      obtain ⟨rfl, hclosed⟩ := hi
      exact .value hclosed
  exact Ends.processToken hrounds fun _ _ _ => trivial

/-! ## after any calls -/

/-- **An end tag of the body closes exactly what it names.**  After any calls, an end tag in the body
other than that of a form leaves the stack of open elements as it was, or closes an element that it
names and all that is inside it: an HTML element of this name, an SVG or MathML element that has it
in small letters, or a heading for the end of one.  No formatting element is closed but by the end
tag of such an element or of one that seals formatting off.  For `p` and `br` the current node must
be one in which HTML may stand. -/
theorem end_tag_closes_named (options : Options) (calls : List Call) (name : String) :
    let c := (Constructor.new options).after calls
    let r := c.process (.endTag name)
    c.stopped = false → c.mode = .inBody → name ≠ "form" → r.1 = .ok () →
    (name = "br" ∨ name = "p" → ∀ e, c.currentElement? = some e →
      e.ns = .html ∨ e.isTextIntegrationPoint = true ∨ e.isHtmlIntegrationPoint = true) →
    r.2.openElements.toList = c.openElements.toList ∨
      ∃ id dropped, c.openElements.toList = r.2.openElements.toList ++ id :: dropped ∧
        (∃ e, c.tree.element? id = some e ∧
          (e.ns = .html ∧ e.localName = name ∨
            (e.ns = .svg ∨ e.ns = .mathMl) ∧ Text.lower e.localName = name ∨
            name ∈ headingNames ∧ e.ns = .html ∧ e.localName ∈ headingNames)) ∧
        ((∃ y ∈ id :: dropped, c.tree.isHtmlOneOf formattingNames y = true) →
          name ∈ formattingNames ∨ name ∈ ["applet", "marquee", "object"]) := by
  intro c r hstop hmode hform hok hcurrent
  have hsound : c.core.Sound := Constructor.after_sound options calls
  have hin : c.core.In .inBody := ⟨hsound, hmode, hstop⟩
  have htakes : name = "br" ∨ name = "p" → c.core.tree.TakesHtml c.core.entries := by
    intro hn id hid
    obtain ⟨e, he⟩ := Option.isSome_iff_exists.mp
      ((c.core.tree.element?_isSome id).trans (hsound.current hid))
    refine Tree.elementSatisfies_iff.mpr ⟨e, he, ?_⟩
    have hcur : c.currentElement? = some e := Option.bind_eq_some_iff.mpr ⟨id, hid, he⟩
    unfold Element.endsForeignContent
    rw [Bool.or_eq_true, Bool.or_eq_true, beq_iff_eq, or_assoc]
    exact hcurrent hn e hcur
  have hskip : c.skips (.endTag name) = false := by
    unfold Constructor.skips
    rw [show (Token.endTag name == Token.character '\n') = false from rfl, Bool.and_false]
  have hclosed : c.core.Closes name r.2.core := by
    have hrun := Ends.process (processToken_closes hin hform htakes) hskip
    rw [hok] at hrun
    exact hrun
  rcases hclosed with hsame | ⟨inside, id, he, hanswers, hformat⟩
  · exact Or.inl (congrArg List.reverse hsame)
  · refine Or.inr ⟨id, inside.reverse, ?_, hanswers, ?_⟩
    · have hrev := congrArg List.reverse he
      rw [List.reverse_append, List.reverse_cons, List.append_assoc] at hrev
      exact hrev
    · rintro ⟨y, hy, hformatting⟩
      refine hformat ⟨y, ?_, hformatting⟩
      rwa [List.mem_cons, List.mem_reverse, ← List.mem_cons] at hy

/-- the end of a heading closes one of another rank, with what is inside it -/
theorem end_tag_closes_named_heading :
    let c := (Constructor.new .default).after
      [.run [.startTagNamed "h2", .startTagNamed "span"]]
    let r := c.process (.endTag "h3")
    c.stopped = false ∧ c.mode = .inBody ∧ r.1 = .ok () ∧
      c.openNames = ["html", "body", "h2", "span"] ∧ r.2.openNames = ["html", "body"] ∧
      ∃ id dropped, c.openElements.toList = r.2.openElements.toList ++ id :: dropped ∧
        ∃ e, c.tree.element? id = some e ∧
          (e.ns = .html ∧ e.localName = "h3" ∨
            (e.ns = .svg ∨ e.ns = .mathMl) ∧ Text.lower e.localName = "h3" ∨
            "h3" ∈ headingNames ∧ e.ns = .html ∧ e.localName ∈ headingNames) := by
  have h := end_tag_closes_named .default [.run [.startTagNamed "h2", .startTagNamed "span"]] "h3"
    (by decide +kernel) (by decide +kernel) (by decide) (by decide +kernel)
    fun hn => absurd hn (by decide)
  obtain ⟨id, dropped, hsplit, hnamed, _⟩ := h.resolve_left (by decide +kernel)
  exact ⟨by decide +kernel, by decide +kernel, by decide +kernel, by decide +kernel,
    by decide +kernel, id, dropped, hsplit, hnamed⟩

end HtmlTree
