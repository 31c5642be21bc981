import HtmlTree.Proofs.Outlined

/-!
# Leaves stay leaves

Some elements never hold other nodes: they are closed as soon as they are inserted, so that they are
never open when something comes.  Others hold a text and nothing else: they are the current node in
the text mode, where characters are all that is inserted, and are closed when it is left.

* `Core.holders`        the open elements that may hold other elements;
* `Tree.Bare`           void elements hold nothing, text-only elements one text at most;
* `Move.holders_open`   every move keeps both kinds from among the holders;
* `Arrives.place_cases` what arrives is put elsewhere, or is the text of a text-only element;
* `Move.bare`           every move keeps leaves as they are;
* `after_bare`          **every document has its leaves bare**.
-/

namespace HtmlTree

/-- elements that hold only text, whether scripts run or not -/
def textHolderNames : List String :=
  ["title", "textarea", "style", "script", "xmp", "iframe", "noembed", "noframes"]

/-- void elements have no children, nothing is called `image`, and text-only elements have one text
as their only child or none -/
structure Tree.Bare (t : Tree) : Prop where
  void : ∀ id, t.isHtmlOneOf voidNames id = true → t.children id = []
  image : ∀ id, t.isHtml "image" id = false
  text : ∀ id, t.isHtmlOneOf textHolderNames id = true →
    t.children id = [] ∨ ∃ c, t.children id = [c] ∧ t.isKind .text c = true

theorem voidNames_unopened : ∀ n ∈ voidNames, n ∈ unopenedNames := by decide

theorem textHolderNames_unopened : ∀ n ∈ textHolderNames, n ∈ unopenedNames := by decide

variable {byBody : Bool} {token : Token} {k k' : Core} {place id : NodeId} {d : NodeData}
  {e : Element}

/-! ## the holders -/

namespace Core

/-- the open elements that may hold other elements: in the text mode all but the current node -/
def holders (k : Core) : List NodeId := if k.mode = .text then k.entries.tail else k.entries

/-- none of the holders has the name of a leaf -/
def HoldersOpen (k : Core) : Prop := ∀ id ∈ k.holders, k.tree.isHtmlOneOf unopenedNames id = false

theorem holders_of_ne (h : k.mode ≠ .text) : k.holders = k.entries := if_neg h

theorem holders_subset (k : Core) : k.holders ⊆ k.entries := by
  unfold holders
  split
  · exact (List.tail_sublist _).subset
  · exact List.Subset.refl _

theorem HoldersOpen.mono {u : Tree} (h : k.HoldersOpen) (hs : k.Sound) (hw : k.tree.Within u)
    (ht : k'.tree = u) (hsub : k'.holders ⊆ k.holders) : k'.HoldersOpen := fun id hid => by
  have hlt := hs.bears.index_lt id (k.holders_subset (hsub hid))
  rw [ht, Tree.isHtmlOneOf_congr (hw.label? hlt)]
  exact h id (hsub hid)

/-- a new element that is no leaf may become the current node -/
theorem HoldersOpen.opened (h : k.HoldersOpen) (hs : k.Sound)
    (he : e.isHtmlOneOf unopenedNames = false)
    (ht : k'.tree = k.tree.attach place (.element e))
    (hsub : k'.holders ⊆ ⟨k.tree.size⟩ :: k.holders) : k'.HoldersOpen := fun id hid => by
  rw [ht]
  rcases List.mem_cons.mp (hsub hid) with rfl | hid
  · rw [Tree.isHtmlOneOf_attach_new, he]
  · have hlt := hs.bears.index_lt id (k.holders_subset hid)
    rw [Tree.isHtmlOneOf_congr ((Tree.within_attach k.tree place (.element e)).label? hlt)]
    exact h id hid

end Core

theorem Element.not_unopened {name : String} (h : e.isHtml name = true)
    (hn : name ∉ unopenedNames) : e.isHtmlOneOf unopenedNames = false := by
  rw [← Bool.not_eq_true, Element.isHtmlOneOf_iff, (Element.isHtml_iff.mp h).2]
  exact fun hmem => hn hmem.2

/-- **Every move keeps leaves from among the holders.** -/
theorem Move.holders_open (hm : Move byBody token k k') (hs : k.Sound) (h : k.HoldersOpen) :
    k'.HoldersOpen := by
  have hw := hm.within
  -- most moves change neither the mode nor the stack, or leave a mode that is not the one for text
  have hkept : k'.mode = k.mode → k'.entries ⊆ k.entries → k.mode ≠ .text → k'.HoldersOpen :=
    fun hmode hsub hne => h.mono hs hw rfl <| by
      rw [Core.holders_of_ne hne, Core.holders_of_ne (by rw [hmode]; exact hne)]
      exact hsub
  have hsame : k'.mode = k.mode → k'.entries = k.entries → k'.HoldersOpen := fun hmode he =>
    h.mono hs hw rfl (by unfold Core.holders; rw [hmode, he]; exact List.Subset.refl _)
  have hleft : k.mode ≠ .text → k'.mode ≠ .text → k'.entries ⊆ k.entries → k'.HoldersOpen :=
    fun hne hne' hsub => h.mono hs hw rfl <| by
      rw [Core.holders_of_ne hne, Core.holders_of_ne hne']
      exact hsub
  have hopened : ∀ {place : NodeId} {e : Element}, k.mode ≠ .text → k'.mode ≠ .text →
      k'.tree = k.tree.attach place (.element e) → k'.entries = ⟨k.tree.size⟩ :: k.entries →
      e.isHtmlOneOf unopenedNames = false → k'.HoldersOpen := fun hne hne' ht he hnames =>
    h.opened hs hnames ht <| by
      rw [Core.holders_of_ne hne, Core.holders_of_ne hne', he]
      exact List.Subset.refl _
  cases hm with
  | comment | text | lengthen | merge | leaf | setForm => exact hsame rfl rfl
  | doctype _ _ hk | noDoctype _ hk =>
    exact hleft (by rw [hk]; decide) Mode.noConfusion (List.Subset.refl _)
  | openHtml hk he | openHead hk _ he | openNoscript hk _ he | openBody hk _ he =>
    exact hopened (by rw [hk]; decide) Mode.noConfusion rfl rfl
      (Element.not_unopened he (by decide))
  | closeNoscript hk | closeHead hk =>
    exact hleft (by rw [hk]; decide) Mode.noConfusion ((List.tail_sublist _).subset)
  | element _ hk _ _ _ _ hnames =>
    have hne := (Mode.isBody_facts hk).1
    exact hopened hne hne rfl rfl hnames
  | textOnly hk =>
    refine h.mono hs hw rfl ?_
    rw [Core.holders_of_ne (Mode.hostsText_facts hk).1]
    exact List.Subset.refl _
  | leaveText hk _ hm =>
    refine h.mono hs hw rfl ?_
    rw [Core.holders_of_ne (Mode.hostsText_facts hm).1, Core.holders, if_pos hk]
    exact List.Subset.refl _
  | drop _ hk he =>
    exact hkept rfl (by rw [he]; exact List.subset_append_right _ _) (Mode.isBody_facts hk).1
  | closeFormatting _ hk _ _ he =>
    exact hkept rfl (by rw [he]; exact List.subset_cons_self _ _) (Mode.isBody_facts hk).1
  | closeSeal _ hk _ _ he =>
    refine hkept rfl ?_ (Mode.isBody_facts hk).1
    rw [he]
    exact ((List.sublist_cons_self _ _).trans (List.sublist_append_right _ _)).subset
  | removeForm hk => exact hkept rfl (List.erase_subset) (Mode.isBody_facts hk).1
  | goto hk hm =>
    exact hleft (Mode.isBody_facts hk).1 (Mode.isBody_facts hm).1 (List.Subset.refl _)
  | stop _ hk => exact hkept rfl (List.nil_subset _) (Mode.isBody_facts hk).1

/-! ## where nodes arrive -/

theorem Tree.isHtmlOneOf_root {t : Tree} (hg : t.Grown) (names : List String) :
    t.isHtmlOneOf names .root = false := by
  rw [← Bool.not_eq_true]
  intro h
  obtain ⟨name, _, hl⟩ := Tree.isHtmlOneOf_iff.mp h
  rw [Tree.label?_root hg] at hl
  cases hl

/-- **What arrives is put into no leaf**, unless it is the first text of a text-only element. -/
theorem Core.Arrives.place_cases (h : k.Arrives place d) (hs : k.Sound) (hf : k.Framed)
    (ho : k.HoldersOpen) :
    k.tree.isHtmlOneOf unopenedNames place = false ∨
      k.tree.isHtmlOneOf textOnlyNames place = true ∧ d.kind = .text ∧
        ∀ id ∈ k.tree.lastChild? place, k.tree.isKind .text id = false := by
  have hcur : k.mode ≠ .text → place ∈ k.entries →
      k.tree.isHtmlOneOf unopenedNames place = false := fun hne hp =>
    ho place (by rw [Core.holders_of_ne hne]; exact hp)
  cases h with
  | doctype | html => exact Or.inl (Tree.isHtmlOneOf_root hs.bears.grown _)
  | head hm hp | noscript hm hp | body hm hp =>
    exact Or.inl (hcur (by rw [hm]; decide) (List.mem_of_mem_head? hp))
  | comment _ hp hne =>
    rcases hp with hp | ⟨_, hp⟩ | ⟨_, rfl⟩
    · exact Or.inl (hcur hne (List.mem_of_mem_head? hp))
    · exact Or.inl (hcur hne (List.mem_of_getLast? hp))
    · exact Or.inl (Tree.isHtmlOneOf_root hs.bears.grown _)
  | text hp ht hlast =>
    by_cases hm : k.mode = .text
    · rcases hf.current_of_text hs hp ht with ⟨_, hone⟩ | hbody | ⟨hafter, _⟩
      · exact Or.inr ⟨hone, rfl, hlast⟩
      · exact absurd hm (Mode.isBody_facts hbody).1
      · rw [hm] at hafter
        cases hafter
    · exact Or.inl (hcur hm (List.mem_of_mem_head? hp))
  | content hp =>
    rcases hp with ⟨hm, hp⟩ | ⟨_, hp⟩
    · refine Or.inl (hcur (fun he => ?_) (List.mem_of_mem_head? hp))
      rw [he] at hm
      cases hm
    · exact Or.inl (Tree.isHtmlOneOf_eq_false (hs.bears.head place hp) (by decide))

theorem Core.Arrives.not_image (h : k.Arrives place (.element e)) : e.isHtml "image" = false := by
  have hother : ∀ {name : String}, e.isHtml name = true → "image" ≠ name →
      e.isHtml "image" = false := fun he hne => Bool.eq_false_iff.mpr fun himage =>
    hne ((Element.isHtml_iff.mp himage).2.symm.trans (Element.isHtml_iff.mp he).2)
  cases h with
  | html _ he | head _ _ he | noscript _ _ he | body _ _ he => exact hother he (by decide)
  | content _ _ _ himage => exact himage

/-! ## leaves -/

/-- leaves are bare, and no leaf is open but for text -/
structure Core.Bare (k : Core) : Prop where
  tree : k.tree.Bare
  holders : k.HoldersOpen

/-- no void element gets a child -/
theorem Move.void_bare (hm : Move byBody token k k') (hs : k.Sound) (hf : k.Framed) (h : k.Bare)
    (hid : k.tree.isHtmlOneOf voidNames id = true) : k'.tree.children id = [] := by
  rcases hm.children_cases hs id with hc | ⟨d, m, harr, _⟩
  · rw [hc, h.tree.void id hid]
  · exfalso
    rcases harr.place_cases hs hf h.holders with hno | ⟨htext, _⟩
    · rw [Tree.isHtmlOneOf_subset voidNames_unopened hno] at hid
      cases hid
    · obtain ⟨name, hn, hl⟩ := Tree.isHtmlOneOf_iff.mp hid
      have hdis : ∀ n ∈ voidNames, n ∉ textOnlyNames := by decide
      rw [Tree.isHtmlOneOf_eq_false (Tree.isHtml_iff.mpr hl) (hdis name hn)] at htext
      cases htext

/-- a text-only element gets its first text at most -/
theorem Move.text_bare (hm : Move byBody token k k') (hs : k.Sound) (hf : k.Framed) (h : k.Bare)
    (hid : k.tree.isHtmlOneOf textHolderNames id = true) :
    k'.tree.children id = [] ∨ ∃ c, k'.tree.children id = [c] ∧ k'.tree.isKind .text c = true := by
  have hold := h.tree.text id hid
  rcases hm.children_cases hs id with hc | ⟨d, m, harr, hu, hc⟩ <;> rw [hc]
  · exact hold.imp_right fun ⟨c, hone, hkind⟩ => ⟨c, hone, hm.within.isKind hkind⟩
  · rcases harr.place_cases hs hf h.holders with hno | ⟨_, hkind, hlast⟩
    · rw [Tree.isHtmlOneOf_subset textHolderNames_unopened hno] at hid
      cases hid
    · rcases hold with hnil | ⟨c, hone, htext⟩
      · refine Or.inr ⟨⟨k.tree.size⟩, by rw [hnil]; rfl, ?_⟩
        rw [hu]
        show (k.tree.attach id d).isKind .text ⟨k.tree.size⟩ = true
        rw [Tree.isKind_attach_new, hkind]
        rfl
      · have hfalse := hlast c (by unfold Tree.lastChild?; rw [hone]; rfl)
        rw [htext] at hfalse
        cases hfalse

/-- **Every move keeps leaves as they are.** -/
theorem Move.bare (hm : Move byBody token k k') (hs : k.Sound) (hf : k.Framed) (h : k.Bare) :
    k'.Bare := by
  -- a node that has just arrived holds nothing
  have hcases : ∀ {names : List String} {id : NodeId}, k'.tree.isHtmlOneOf names id = true →
      k'.tree.children id = [] ∨ k.tree.isHtmlOneOf names id = true := fun {_ id} hid => by
    rcases Nat.lt_or_ge id.index k.tree.size with hlt | hle
    · rw [Tree.isHtmlOneOf_congr (hm.within.label? hlt)] at hid
      exact Or.inr hid
    · exact Or.inl (hm.children_of_le hs hle)
  refine ⟨⟨fun id hid => ?_, fun id => ?_, fun id hid => ?_⟩, hm.holders_open hs h.holders⟩
  · exact (hcases hid).elim (fun hnil => hnil) fun hid => hm.void_bare hs hf h hid
  · refine Bool.eq_false_iff.mpr fun hid => ?_
    obtain ⟨e, he, himage⟩ := Tree.elementSatisfies_iff.mp hid
    rcases hm.element_cases he with ⟨e₀, he₀, _, _⟩ | ⟨place, rfl, _, harr⟩
    · have hlt := Tree.index_lt_of_element? he₀
      rw [Tree.isHtml_congr (hm.within.label? hlt), h.tree.image id] at hid
      cases hid
    · rw [harr.not_image] at himage
      cases himage
  · exact (hcases hid).elim Or.inl fun hid => hm.text_bare hs hf h hid

/-- **Leaf elements stay leaves.**  After any calls, whatever the options, no void element has a
child, no HTML element is called `image`, and an element that holds only text has no child or just
one, which is a text. -/
theorem after_bare (options : Options) (calls : List Call) :
    ((Constructor.new options).after calls).tree.Bare := by
  have h : ((Constructor.new options).after calls).core.Bare :=
    Constructor.after_keeps (P := Core.Bare) options calls
      ⟨⟨?_, ?_, ?_⟩, fun _ h => absurd h List.not_mem_nil⟩ fun hs hf hm h => hm.bare hs hf h
  · exact h.tree
  all_goals rintro ⟨_ | i⟩ <;> first | rfl | exact fun h => Bool.noConfusion h

end HtmlTree
