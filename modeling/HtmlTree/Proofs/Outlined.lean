import HtmlTree.Proofs.Lineage
import HtmlTree.Proofs.Outline

/-!
# Every document has its outline

A node arrives in the root, in the `html` element, in the head and in a `noscript` there in few modes
only: the current node is known in every mode up to the body and is none of these from the body on.

* `Mode.currentName?`    the modes in which the current node is known;
* `Arrives.at_root`, `Arrives.at_html`, `Arrives.at_head`, `Arrives.at_noscript`   what arrives there;
* `Move.children_cases`  what a move does to a child list;
* `Move.outlined`        every move keeps the outline;
* `after_outlined`       **every document has it**.
-/

namespace HtmlTree

/-! ## the current node -/

/-- the name of the current node in the modes where it is always the same -/
def Mode.currentName? : Mode → Option String
  | beforeHead | afterHead => some "html"
  | inHead => some "head"
  | inHeadNoscript => some "noscript"
  | _ => none

namespace Core
variable {k : Core} {place id : NodeId} {d : NodeData} {e : Element} {name : String} {ch : Char}

theorem Framed.current_named (hf : k.Framed) (hs : k.Sound) {m : Mode} (hk : k.mode = m)
    (hp : k.entries.head? = some place) (hname : m.currentName? = some name) :
    k.tree.isHtml name place = true := by
  have hstack := (hs.fits (hf.active_of_current hp)).stack
  rw [hk] at hstack
  cases m <;> cases hname <;>
    exact Tree.Spells.isHtml_head (hstack Mode.noConfusion) hp

/-- a node with one name is the current node only where that has this name -/
theorem Framed.name_eq (hf : k.Framed) (hs : k.Sound) {m : Mode} {other : String} (hk : k.mode = m)
    (hp : k.entries.head? = some place) (hname : k.tree.isHtml name place = true)
    (hm : m.currentName? = some other) : name = other := by
  by_contra hne
  have hother := hf.current_named hs hk hp hm
  rw [Tree.isHtml_eq_false hother hne] at hname
  cases hname

theorem Framed.bodyStack (hf : k.Framed) (hs : k.Sound) (hm : k.mode.isBody = true)
    (hp : k.entries.head? = some place) : k.tree.BodyStack k.entries :=
  (hs.fits (hf.active_of_current hp)).bodyStack hm

/-- where text goes: a text-only element, an element of the body, or blanks behind the head -/
theorem Framed.current_of_text (hf : k.Framed) (hs : k.Sound) (hp : k.entries.head? = some place)
    (ht : k.TakesText ch) :
    k.mode = .text ∧ k.tree.isHtmlOneOf textOnlyNames place = true ∨ k.mode.isBody = true ∨
      k.mode = .afterHead ∧ Text.isBlank ch = true := by
  refine ht.imp_left fun hk => ⟨hk, ?_⟩
  obtain ⟨id, outside, m, he, _, _, htext, _⟩ := (hs.fits (hf.active_of_current hp)).text hk
  rw [he] at hp
  cases hp
  exact htext

/-- the body is around every other element of the body, so no `noscript` of the head is open there -/
theorem Lineage.not_headNoscript (hl : k.Lineage) (hs : k.Sound) (hf : k.Framed)
    (hb : k.tree.BodyStack k.entries) (hid : id ∈ k.entries) : ¬k.tree.HeadNoscript id := by
  rintro ⟨hname, head, hparent, hhead⟩
  have hg := hs.bears.grown
  obtain ⟨inner, outer, he, hspells, _⟩ := hb
  rw [he] at hid
  rcases List.mem_append.mp hid with hid | hid
  · obtain ⟨inside, around, rfl⟩ := List.append_of_mem hid
    have hrooted := hl.rooted
    rw [he, List.append_assoc, List.cons_append] at hrooted
    have hpath := hrooted.drop.1.subset
    obtain ⟨html, hpar, hhtml⟩ := hl.head head hhead
    rw [Tree.ancestors_of_parent hg.acyclic hg.parentsKnown hparent,
      Tree.ancestors_of_parent hg.acyclic hg.parentsKnown hpar,
      Tree.ancestors_of_parent hg.acyclic hg.parentsKnown (hf.tree.html html hhtml),
      hg.ancestors_root] at hpath
    cases hspells with
    | @cons _ body _ rest hbody _ =>
      have hmem : body ∈ [head, html, .root] := hpath (List.mem_append_right _ List.mem_cons_self)
      simp only [List.mem_cons, List.not_mem_nil, or_false] at hmem
      rcases hmem with rfl | rfl | rfl
      · rw [Tree.isHtml_eq_false hbody (by decide)] at hhead
        cases hhead
      · rw [Tree.isHtml_eq_false hbody (by decide)] at hhtml
        cases hhtml
      · exact hg.ne_root (Tree.label?_isSome_of_isHtml hbody) rfl
  · obtain ⟨other, hmem, hother⟩ := hspells.mem hid
    have hne : ∀ n ∈ ["body", "html"], "noscript" ≠ n := by decide
    rw [Tree.isHtml_eq_false hother (hne other hmem)] at hname
    cases hname

/-! ## what arrives where -/

/-- comments, the doctype and the `html` element -/
theorem Arrives.at_root (h : k.Arrives .root d) (hs : k.Sound) :
    d.kind = .comment ∨ k.mode = .initial ∧ d.kind = .documentType ∨
      k.mode = .beforeHtml ∧ ∃ e : Element, d = .element e ∧ e.isHtml "html" = true := by
  have hcur : k.entries.head? ≠ some .root := fun hp =>
    hs.bears.grown.ne_root (hs.current hp) rfl
  cases h with
  | doctype _ hm => exact Or.inr (Or.inl ⟨hm, rfl⟩)
  | html hm he => exact Or.inr (Or.inr ⟨hm, _, rfl, he⟩)
  | head _ hp | noscript _ hp | body _ hp => exact absurd hp hcur
  | comment => exact Or.inl rfl
  | text hp => exact absurd hp hcur
  | content hp => exact absurd rfl (hs.bears.grown.ne_root (hs.takesElement hp))

/-- comments, the head, blanks behind it and the body -/
theorem Arrives.at_html (h : k.Arrives place d) (hs : k.Sound) (hf : k.Framed)
    (hplace : k.tree.isHtml "html" place = true) :
    d.kind = .comment ∨
      k.mode = .beforeHead ∧ (∃ e : Element, d = .element e ∧ e.isHtml "head" = true) ∨
      k.mode = .afterHead ∧ (∃ e : Element, d = .element e ∧ e.isHtml "body" = true) ∨
      k.mode = .afterHead ∧ ∃ ch, d = .text ⟨String.singleton ch⟩ ∧ Text.isBlank ch = true := by
  have hne := hs.bears.grown.ne_root (Tree.label?_isSome_of_isHtml hplace)
  cases h with
  | doctype | html => exact absurd rfl hne
  | head hm _ he => exact Or.inr (Or.inl ⟨hm, _, rfl, he⟩)
  | noscript hm hp => exact absurd (hf.name_eq hs hm hp hplace rfl) (by decide)
  | body hm _ he => exact Or.inr (Or.inr (Or.inl ⟨hm, _, rfl, he⟩))
  | comment => exact Or.inl rfl
  | content hp => exact absurd (hf.tree.mem_outer hplace) (hf.takesElement hs hp).2.2
  | text hp ht =>
    rcases hf.current_of_text hs hp ht with ⟨_, htext⟩ | hbody | ⟨hm, hblank⟩
    · rw [Tree.isHtmlOneOf_eq_false hplace (by decide)] at htext
      cases htext
    · rw [(hf.bodyStack hs hbody hp).head_not_html hp] at hplace
      cases hplace
    · exact Or.inr (Or.inr (Or.inr ⟨hm, _, rfl, hblank⟩))

/-- comments and metadata -/
theorem Arrives.at_head (h : k.Arrives place d) (hs : k.Sound) (hf : k.Framed)
    (hplace : k.tree.isHtml "head" place = true) :
    d.kind = .comment ∨ ∃ e : Element, d = .element e ∧
      e.isHtmlOneOf ["base", "basefont", "bgsound", "link", "meta", "title", "noscript", "noframes",
        "style", "script"] = true := by
  have hne := hs.bears.grown.ne_root (Tree.label?_isSome_of_isHtml hplace)
  have hnobody : k.entries.head? = some place → k.mode.isBody = false := fun hp => by
    rw [← Bool.not_eq_true]
    intro hbody
    have hno := (hf.bodyStack hs hbody hp).no_head place (List.mem_of_mem_head? hp)
    rw [hno] at hplace
    cases hplace
  cases h with
  | doctype | html => exact absurd rfl hne
  | head hm hp => exact absurd (hf.name_eq hs hm hp hplace rfl) (by decide)
  | body hm hp => exact absurd (hf.name_eq hs hm hp hplace rfl) (by decide)
  | noscript _ _ he => exact Or.inr ⟨_, rfl, Element.isHtmlOneOf_of_isHtml he (by decide)⟩
  | comment => exact Or.inl rfl
  | text hp ht =>
    rcases hf.current_of_text hs hp ht with ⟨_, htext⟩ | hbody | ⟨hm, _⟩
    · rw [Tree.isHtmlOneOf_eq_false hplace (by decide)] at htext
      cases htext
    · rw [hnobody hp] at hbody
      cases hbody
    · exact absurd (hf.name_eq hs hm hp hplace rfl) (by decide)
  | content hp _ hopens =>
    have hbody : k.mode.isBody = false := by
      rcases hp with ⟨_, hp⟩ | ⟨hm, _⟩
      · exact hnobody hp
      · rw [hm]
        rfl
    have hsub : ∀ n ∈ k.mode.metadataNames k.options.scripting, n ∈ ["base", "basefont", "bgsound",
        "link", "meta", "title", "noscript", "noframes", "style", "script"] := by
      cases k.mode <;> cases k.options.scripting <;> decide
    obtain ⟨hns, hmem⟩ := Element.isHtmlOneOf_iff.mp (hopens.metadata hbody)
    exact Or.inr ⟨_, rfl, Element.isHtmlOneOf_iff.mpr ⟨hns, hsub _ hmem⟩⟩

/-- in a text with scripts off the current node is no `noscript` of the head -/
def TextOutside (k : Core) : Prop :=
  k.options.scripting = false → k.mode = .text → ∀ id ∈ k.entries.head?, ¬k.tree.HeadNoscript id

/-- comments and the metadata that is shown where scripts do not run -/
theorem Arrives.at_noscript (h : k.Arrives place d) (hl : k.Lineage) (hs : k.Sound) (hf : k.Framed)
    (htext : k.TextOutside) (hscript : k.options.scripting = false)
    (hplace : k.tree.HeadNoscript place) :
    d.kind = .comment ∨ ∃ e : Element, d = .element e ∧
      e.isHtmlOneOf ["basefont", "bgsound", "link", "meta", "noframes", "style"] = true := by
  have hname := hplace.1
  have hne := hs.bears.grown.ne_root (Tree.label?_isSome_of_isHtml hname)
  have hnobody : k.entries.head? = some place → k.mode.isBody = true → False := fun hp hbody =>
    hl.not_headNoscript hs hf (hf.bodyStack hs hbody hp) (List.mem_of_mem_head? hp) hplace
  cases h with
  | doctype | html => exact absurd rfl hne
  | head hm hp => exact absurd (hf.name_eq hs hm hp hname rfl) (by decide)
  | noscript hm hp => exact absurd (hf.name_eq hs hm hp hname rfl) (by decide)
  | body hm hp => exact absurd (hf.name_eq hs hm hp hname rfl) (by decide)
  | comment => exact Or.inl rfl
  | text hp ht =>
    rcases hf.current_of_text hs hp ht with ⟨hm, _⟩ | hbody | ⟨hm, _⟩
    · exact absurd hplace (htext hscript hm place hp)
    · exact (hnobody hp hbody).elim
    · exact absurd (hf.name_eq hs hm hp hname rfl) (by decide)
  | content hp _ hopens =>
    rcases hp with ⟨hm, hp⟩ | ⟨_, hp⟩
    · rcases Mode.of_hostsElements hm with hk | hk | hbody
      · exact absurd (hf.name_eq hs hk hp hname rfl) (by decide)
      · have hmeta := hopens.metadata (by rw [hk]; rfl)
        rw [hk] at hmeta
        exact Or.inr ⟨_, rfl, hmeta⟩
      · exact (hnobody hp hbody).elim
    · rw [Tree.isHtml_eq_false (hs.bears.head place hp) (by decide)] at hname
      cases hname

end Core

/-! ## what a move does to child lists and texts -/

namespace Tree
variable {t u : Tree} {ids : List NodeId} {id place c : NodeId} {d : NodeData} {kind : NodeKind}
  {names : List String}

theorem isKind_attach_new (t : Tree) (place : NodeId) (d : NodeData) (kind : NodeKind) :
    (t.attach place d).isKind kind ⟨t.size⟩ = (d.kind == kind) :=
  isKind_of_get? (get?_attach_new t place d)

theorem Spells.filter_within (hw : t.Within u) (hids : ∀ id ∈ ids, id.index < t.size)
    (h : t.Spells names (ids.filter (t.isKind .element))) :
    u.Spells names (ids.filter (u.isKind .element)) := by
  rw [List.filter_congr fun id hid => isKind_within hw .element (hids id hid)]
  exact h.within hw

theorem text?_attach_old (d : NodeData) (hid : id.index < t.size) :
    (t.attach place d).text? id = t.text? id := by
  unfold text?
  rw [get?_attach_old hid]
  cases t.get? id <;> rfl

theorem text?_lengthen (t : Tree) (id c : NodeId) (ch : Char) :
    (t.modifyData id (.lengthen ch)).text? c =
      if c = id then (t.text? c).map (· ++ String.singleton ch) else t.text? c := by
  unfold text? modifyData
  rw [get?_modify]
  by_cases hc : c = id
  · rw [if_pos hc, if_pos hc]
    cases t.get? c with
    | none => rfl
    | some n =>
      show (n.data.lengthen ch).text? = n.data.text?.map _
      cases n.data <;> rfl
  · rw [if_neg hc, if_neg hc]

theorem text?_merge (t : Tree) (id c : NodeId) (given : List TagAttribute) :
    (t.modifyData id (.merge given)).text? c = t.text? c := by
  unfold text? modifyData
  rw [get?_modify]
  split
  · cases t.get? c with
    | none => rfl
    | some n =>
      show (n.data.merge given).text? = n.data.text?
      cases n.data <;> rfl
  · rfl

theorem HeadNoscript.of_within (hw : t.Within u) (hid : id.index < t.size) (hg : t.Grown)
    (h : u.HeadNoscript id) : t.HeadNoscript id := by
  obtain ⟨hname, head, hparent, hhead⟩ := h
  rw [hw.parent? hid] at hparent
  have hlt := hg.parentsKnown id head hparent
  rw [isHtml_congr (hw.label? hid)] at hname
  rw [isHtml_congr (hw.label? hlt)] at hhead
  exact ⟨hname, head, hparent, hhead⟩

end Tree

variable {byBody : Bool} {token : Token} {k k' : Core} {id html c : NodeId} {names : List String}

/-- a node has the children that it had, or one has arrived there -/
theorem Move.children_cases (hm : Move byBody token k k') (hs : k.Sound) (id : NodeId) :
    k'.tree.children id = k.tree.children id ∨
      ∃ d m, k.Arrives id d ∧ k'.tree = (k.tree.attach id d).setMode m ∧
        k'.tree.children id = k.tree.children id ++ [⟨k.tree.size⟩] := by
  have hgrows := hm.grows
  generalize k'.tree = u at hgrows
  cases hgrows with
  | keep m => exact Or.inl rfl
  | @arrive place d m harr =>
    have hc : ((k.tree.attach place d).setMode m).children id = _ :=
      Tree.children_attach (harr.place_lt hs) d id
    by_cases hid : id = place
    · subst hid
      rw [if_pos rfl] at hc
      exact Or.inr ⟨d, m, harr, rfl, hc⟩
    · rw [if_neg hid, List.append_nil] at hc
      exact Or.inl hc
  | lengthen | merge => exact Or.inl (Tree.children_modifyData _ _ _ _)

theorem Move.children_of_le (hm : Move byBody token k k') (hs : k.Sound)
    (hid : k.tree.size ≤ id.index) : k'.tree.children id = [] := by
  rcases hm.children_cases hs id with hc | ⟨d, m, harr, _⟩
  · rw [hc, Tree.children_of_le hid]
  · exact absurd (harr.place_lt hs) (Nat.not_lt.mpr hid)

theorem Move.holdsOnly (hm : Move byBody token k k') (hs : k.Sound)
    (h : k.tree.HoldsOnly names id)
    (harr : ∀ d, k.Arrives id d →
      d.kind = .comment ∨ ∃ e : Element, d = .element e ∧ e.isHtmlOneOf names = true) :
    k'.tree.HoldsOnly names id := by
  have hw := hm.within
  have hold : ∀ c ∈ k.tree.children id,
      k'.tree.isKind .comment c = true ∨ k'.tree.isHtmlOneOf names c = true := fun c hc =>
    (h c hc).imp hw.isKind (Tree.isHtmlOneOf_within hw)
  unfold Tree.HoldsOnly
  rcases hm.children_cases hs id with hc | ⟨d, m, ha, hu, hc⟩
  · rw [hc]
    exact hold
  · rw [hc]
    refine List.forall_mem_append.mpr ⟨hold, fun x hx => ?_⟩
    rw [List.mem_singleton.mp hx, hu]
    rcases harr d ha with hcomment | ⟨e, rfl, he⟩
    · left
      show (k.tree.attach id d).isKind .comment ⟨k.tree.size⟩ = true
      rw [Tree.isKind_attach_new, hcomment]
      rfl
    · right
      show (k.tree.attach id (.element e)).isHtmlOneOf names ⟨k.tree.size⟩ = true
      rw [Tree.isHtmlOneOf_attach_new, he]

/-- white space in the `html` element is lengthened by white space only -/
theorem Move.blankText (hm : Move byBody token k k') (hs : k.Sound) (hf : k.Framed)
    (hhtml : k.tree.isHtml "html" html = true) (hc : c ∈ k.tree.children html)
    (hb : k.tree.BlankText c) : k'.tree.BlankText c := by
  have hg := hs.bears.grown
  obtain ⟨text, htext, hblank⟩ := hb
  have hgrows := hm.grows
  generalize k'.tree = u at hgrows
  cases hgrows with
  | keep m => exact ⟨text, htext, hblank⟩
  | @arrive place d m harr =>
    have hold : ((k.tree.attach place d).setMode m).text? c = _ :=
      Tree.text?_attach_old d (hg.child_lt hc)
    exact ⟨text, hold.trans htext, hblank⟩
  | merge given => exact ⟨text, (Tree.text?_merge _ _ _ given).trans htext, hblank⟩
  | @lengthen place id ch hp hlast _ ht =>
    by_cases hid : c = id
    · -- the parent of the text is the current node, so this is the time behind the head
      subst hid
      have hparent := hg.parent?_of_mem (List.mem_of_getLast? hlast)
      rw [hg.parent?_of_mem hc] at hparent
      cases hparent
      have hch : Text.isBlank ch = true := by
        rcases hf.current_of_text hs hp ht with ⟨_, hone⟩ | hbody | ⟨_, hch⟩
        · rw [Tree.isHtmlOneOf_eq_false hhtml (by decide)] at hone
          cases hone
        · rw [(hf.bodyStack hs hbody hp).head_not_html hp] at hhtml
          cases hhtml
        · exact hch
      refine ⟨text ++ String.singleton ch, ?_, ?_⟩
      · rw [Tree.text?_lengthen, if_pos rfl, htext]
        rfl
      · rw [String.toList_append, String.toList_singleton]
        refine List.forall_mem_append.mpr ⟨hblank, fun x hx => ?_⟩
        rw [List.mem_singleton.mp hx, hch]
    · exact ⟨text, by rw [Tree.text?_lengthen, if_neg hid, htext], hblank⟩

/-! ## every move keeps the outline -/

theorem Move.rootOutline (hm : Move byBody token k k') (hs : k.Sound)
    (h : k.tree.RootOutline (k.tree.children .root)) :
    k'.tree.RootOutline (k'.tree.children .root) := by
  have hw := hm.within
  have hkept := h.within hw
  have hnone : ∀ {kind : NodeKind}, k.tree.rootHas kind = false →
      k'.tree.anyOfKind kind (k.tree.children .root) = false := fun hno => by
    rw [Tree.anyOfKind_within hw fun id hid => hs.bears.grown.child_lt hid]
    exact hno
  rcases hm.children_cases hs .root with hc | ⟨d, m, harr, hu, hc⟩ <;> rw [hc]
  · exact hkept
  · have hkind : ∀ kind, d.kind = kind → k'.tree.isKind kind ⟨k.tree.size⟩ = true := by
      rintro kind rfl
      rw [hu]
      show (k.tree.attach .root d).isKind d.kind ⟨k.tree.size⟩ = true
      rw [Tree.isKind_attach_new]
      exact beq_self_eq_true _
    rcases harr.at_root hs with hcomment | ⟨hk, hdoctype⟩ | ⟨hk, e, rfl, he⟩
    · exact hkept.comment (hkind _ hcomment)
    · exact hkept.doctype (hnone (hs.noDoctype hk)) (hnone (hs.noElement (Or.inl hk)))
        (hkind _ hdoctype)
    · refine hkept.html (hnone (hs.noElement (Or.inr hk))) ?_
      rw [hu]
      exact Tree.isHtml_attach_new he

theorem Move.htmlOutline (hm : Move byBody token k k') (hs : k.Sound) (hf : k.Framed)
    (hhtml : k.tree.isHtml "html" html = true) (h : k.tree.HtmlOutline (k.tree.children html)) :
    k'.tree.HtmlOutline (k'.tree.children html) := by
  have hw := hm.within
  have hkept := h.within hw fun c hc => hm.blankText hs hf hhtml hc
  -- the elements that are there already are those of the frame
  have hframe : ∀ {m : Mode}, k.mode = m → m ≠ .text →
      k'.tree.Spells m.frame.2 ((k.tree.children html).filter (k'.tree.isKind .element)) :=
    fun hk hne => by
      have htree := hf.of_mode hs hk hne
      exact Tree.Spells.filter_within hw (fun id hid => hs.bears.grown.child_lt hid)
        (htree.inner html (htree.mem_outer hhtml))
  rcases hm.children_cases hs html with hc | ⟨d, m, harr, hu, hc⟩ <;> rw [hc]
  · exact hkept
  · rcases harr.at_html hs hf hhtml with hcomment | ⟨hk, e, rfl, he⟩ | ⟨hk, e, rfl, he⟩ |
      ⟨hk, ch, rfl, hch⟩
    · refine hkept.comment ?_
      rw [hu]
      show (k.tree.attach html d).isKind .comment ⟨k.tree.size⟩ = true
      rw [Tree.isKind_attach_new, hcomment]
      rfl
    · refine hkept.head (hframe hk (by decide)) ?_
      rw [hu]
      exact Tree.isHtml_attach_new he
    · refine hkept.body (hframe hk (by decide)) ?_
      rw [hu]
      exact Tree.isHtml_attach_new he
    · refine hkept.blank (hframe hk (by decide)) ⟨String.singleton ch, ?_, fun x hx => ?_⟩
      · rw [hu]
        show (k.tree.attach html _).text? ⟨k.tree.size⟩ = _
        unfold Tree.text?
        rw [Tree.get?_attach_new]
        rfl
      · rw [String.toList_singleton] at hx
        rw [List.mem_singleton.mp hx, hch]

/-- a text-only element that arrives in the head is no `noscript` where scripts are off -/
theorem Core.Opens.not_headNoscript {e : Element} {place : NodeId} (h : k.Opens e) (hs : k.Sound)
    (hf : k.Framed) (hp : k.TakesElement place) (hhead : k.tree.isHtml "head" place = true)
    (hscript : k.options.scripting = false) : e.isHtml "noscript" = false := by
  have hbody : k.mode.isBody = false := by
    rcases hp with ⟨_, hp⟩ | ⟨hm, _⟩
    · rw [← Bool.not_eq_true]
      intro hbody
      have hno := (hf.bodyStack hs hbody hp).no_head place (List.mem_of_mem_head? hp)
      rw [hno] at hhead
      cases hhead
    · rw [hm]
      rfl
  have hnames : "noscript" ∉ k.mode.metadataNames k.options.scripting := by
    rw [hscript]
    cases k.mode <;> decide
  rw [← Bool.not_eq_true]
  intro hname
  obtain ⟨hns, hlocal⟩ := Element.isHtml_iff.mp hname
  have hmem := (Element.isHtmlOneOf_iff.mp (h.metadata hbody)).2
  rw [hlocal] at hmem
  exact hnames hmem

theorem Move.textOutside (hm : Move byBody token k k') (hs : k.Sound) (hf : k.Framed)
    (h : k.TextOutside) : k'.TextOutside := by
  have hg := hs.bears.grown
  have hkept : k'.mode = k.mode → k'.entries = k.entries → k'.TextOutside := by
    intro hmode hentries hscript htext id hid hno
    rw [hm.options] at hscript
    rw [hmode] at htext
    rw [hentries] at hid
    have hlt := hs.bears.index_lt id (List.mem_of_mem_head? hid)
    exact h hscript htext id hid (hno.of_within hm.within hlt hg)
  have hleft : k'.mode ≠ .text → k'.TextOutside := fun hne _ htext => absurd htext hne
  cases hm with
  | comment | text | lengthen | merge | leaf | setForm => exact hkept rfl rfl
  | doctype | noDoctype | openHtml | openHead | openNoscript | closeNoscript | closeHead
  | openBody => exact hleft Mode.noConfusion
  | element _ hk | drop _ hk | closeFormatting _ hk | closeSeal _ hk | removeForm hk | stop _ hk =>
    exact hleft (Mode.isBody_facts hk).1
  | leaveText _ _ hk => exact hleft (Mode.hostsText_facts hk).1
  | goto _ hk => exact hleft (Mode.isBody_facts hk).1
  | @textOnly place e hk hp he hopens =>
    intro hscript _ id hid hno
    cases hid
    obtain ⟨hname, head, hparent, hhead⟩ := hno
    rw [show ((k.opened place e).forText).tree.parent? ⟨k.tree.size⟩ = some place from
      Tree.parent?_attach_new _ _ _] at hparent
    cases hparent
    have hlt := Tree.index_lt_of_label? (hs.takesElement hp)
    have hhead' : k.tree.isHtml "head" place = true := by
      rw [← Tree.isHtml_congr ((Tree.within_attach k.tree place (.element e)).label? hlt)]
      exact hhead
    obtain ⟨f, hf', hname⟩ := Tree.elementSatisfies_iff.mp hname
    cases (Tree.element?_attach_new k.tree place (.element e)).symm.trans hf'
    rw [hopens.not_headNoscript hs hf hp hhead' hscript] at hname
    cases hname

/-- the outline and what is open inside it -/
structure Core.Outlined (k : Core) : Prop where
  tree : k.tree.Outlined k.options.scripting
  text : k.TextOutside

theorem Core.new_outlined (options : Options) : (Constructor.new options).core.Outlined where
  tree := {
    root := .nil _
    html := by
      rintro ⟨_ | i⟩ h <;> cases h
    head := by
      rintro ⟨_ | i⟩ h <;> cases h
    noscript := by
      rintro _ ⟨_ | i⟩ ⟨h, _⟩ <;> cases h }
  text := fun _ h => by cases h

/-- **Every move keeps the outline.** -/
theorem Move.outlined (hm : Move byBody token k k') (hs : k.Sound) (hf : k.Framed) (hl : k.Lineage)
    (h : k.Outlined) : k'.Outlined := by
  have hw := hm.within
  have hg := hs.bears.grown
  -- a node that has just arrived holds nothing
  have hcases : ∀ {p : NodeId → Prop} (id : NodeId), (k'.tree.children id = [] → p id) →
      (id.index < k.tree.size → p id) → p id := fun id hnew hold => by
    rcases Nat.lt_or_ge id.index k.tree.size with hlt | hle
    · exact hold hlt
    · exact hnew (hm.children_of_le hs hle)
  have hnothing : ∀ {id : NodeId} {names : List String}, k'.tree.children id = [] →
      k'.tree.HoldsOnly names id := fun hnil c hc => by
    rw [hnil] at hc
    cases hc
  refine ⟨⟨hm.rootOutline hs h.tree.root, fun id => ?_, fun id => ?_, fun hscript id => ?_⟩,
    hm.textOutside hs hf h.text⟩
  · refine hcases (p := fun id => _ → _) id (fun hnil _ => ?_) fun hlt hname => ?_
    · rw [hnil]
      exact .nil _
    · rw [Tree.isHtml_congr (hw.label? hlt)] at hname
      exact hm.htmlOutline hs hf hname (h.tree.html id hname)
  · refine hcases (p := fun id => _ → _) id (fun hnil _ => hnothing hnil) fun hlt hname => ?_
    rw [Tree.isHtml_congr (hw.label? hlt)] at hname
    exact hm.holdsOnly hs (h.tree.head id hname) fun d harr => harr.at_head hs hf hname
  · rw [hm.options] at hscript
    refine hcases (p := fun id => _ → _) id (fun hnil _ => hnothing hnil) fun hlt hname => ?_
    have hname := hname.of_within hw hlt hg
    exact hm.holdsOnly hs (h.tree.noscript hscript id hname) fun d harr =>
      harr.at_noscript hl hs hf h.text hscript hname

/-- **Every document has the outline**, finished or not, whatever calls were made: the root, the
`html` element, the head and a `noscript` in the head hold only what belongs there, in its order. -/
theorem after_outlined (options : Options) (calls : List Call) :
    ((Constructor.new options).after calls).tree.Outlined options.scripting := by
  have h : ((Constructor.new options).after calls).core.Lineage ∧
      ((Constructor.new options).after calls).core.Outlined :=
    Constructor.after_keeps (P := fun k => k.Lineage ∧ k.Outlined) options calls
      ⟨Core.new_lineage options, Core.new_outlined options⟩
      fun hs hf hm h => ⟨hm.lineage hs hf h.1, hm.outlined hs hf h.1 h.2⟩
  have htree := h.2.tree
  rw [show ((Constructor.new options).after calls).core.options = options from
    Constructor.after_options options calls] at htree
  exact htree

end HtmlTree
