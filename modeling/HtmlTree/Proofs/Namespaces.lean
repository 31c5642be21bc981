import HtmlTree.Proofs.Arrivals

/-!
# Namespaces

A document mixes HTML, SVG and MathML, and where one may go over into another is laid down.  What is
opened has room in the current node, and that is the parent of what is opened, or the parent is the
head.  So every element of the document is in an element that may hold it.

* `Element.HoldsHtml`   where HTML may be: in HTML and at points of integration;
* `Tree.Namespaced`     every element has a parent that its namespace allows;
* `Tree.Housed`         the same as every arrival keeps it, `Move.housed`;
* `after_namespaced`    **every document is namespaced**.
-/

namespace HtmlTree

/-! ## where HTML may be -/

/-- HTML may be inside HTML, in text of MathML, in three elements of SVG and in annotations of
MathML that are said to be HTML -/
inductive Element.HoldsHtml (p : Element) : Prop
  | html : p.ns = .html → HoldsHtml p
  | mathText : p.ns = .mathMl → p.localName ∈ ["mi", "mo", "mn", "ms", "mtext"] → HoldsHtml p
  | svgPoint : p.ns = .svg → p.localName ∈ ["foreignObject", "desc", "title"] → HoldsHtml p
  | markedHtml {encoding : String} : p.ns = .mathMl → p.localName = "annotation-xml" →
      p.attributes.get? "encoding" = some encoding →
      (Text.sameIgnoringCase encoding "text/html" ∨
        Text.sameIgnoringCase encoding "application/xhtml+xml") → HoldsHtml p

namespace Tree

/-- the element that a node is a child of -/
def parentElement? (t : Tree) (id : NodeId) : Option Element := (t.parent? id).bind t.element?

/-- every element has a parent that its namespace allows, the `html` element apart -/
structure Namespaced (t : Tree) : Prop where
  known : ∀ id e, t.element? id = some e → e.ns = .html ∨ e.ns = .svg ∨ e.ns = .mathMl
  html : ∀ id e, t.element? id = some e → e.ns = .html → e.localName ≠ "html" →
    ∃ p, t.parentElement? id = some p ∧ p.HoldsHtml
  /-- `svg` and `math` are where HTML may be, `svg` in any annotation of MathML as well -/
  foreign : ∀ id e, t.element? id = some e → e.ns ≠ .html →
    ∃ p, t.parentElement? id = some p ∧
      (p.ns = e.ns ∨
        e.ns = .svg ∧ e.localName = "svg" ∧
          (p.HoldsHtml ∨ p.ns = .mathMl ∧ p.localName = "annotation-xml") ∨
        e.ns = .mathMl ∧ e.localName = "math" ∧ p.HoldsHtml)

/-- every element is in one that may hold it -/
def Housed (t : Tree) : Prop :=
  ∀ id e, t.element? id = some e →
    e.isHtml "html" = true ∨ ∃ p, t.parentElement? id = some p ∧ p.mayHold e = true

end Tree

/-! ## what elements hold -/

namespace Element
variable {p e : Element}

theorem holdsHtml_of_ends (h : p.endsForeignContent = true) : p.HoldsHtml := by
  unfold endsForeignContent at h
  rcases Bool.or_eq_true_iff.mp h with h | h
  · rcases Bool.or_eq_true_iff.mp h with h | h
    · exact .html (eq_of_beq h)
    · obtain ⟨hns, hname⟩ := Bool.and_eq_true_iff.mp h
      exact .mathText (eq_of_beq hns) (List.contains_iff_mem.mp hname)
  · unfold isHtmlIntegrationPoint at h
    split at h
    · rename_i hns
      obtain ⟨hname, hencoding⟩ := Bool.and_eq_true_iff.mp h
      obtain ⟨encoding, hget, hsame⟩ := (Option.any_eq_true _ _).mp hencoding
      exact .markedHtml hns (eq_of_beq hname) hget (Bool.or_eq_true_iff.mp hsame)
    · exact .svgPoint ‹_› (List.contains_iff_mem.mp h)
    · cases h

theorem isAnnotation_iff : p.isAnnotation = true ↔ p.ns = .mathMl ∧ p.localName = "annotation-xml" := by
  unfold isAnnotation
  rw [Bool.and_eq_true, beq_iff_eq, beq_iff_eq]

theorem of_mayHold_foreign (h : p.mayHold e = true) (hne : e.ns ≠ .html) :
    p.ns = e.ns ∨
      e.ns = .svg ∧ e.localName = "svg" ∧
        (p.HoldsHtml ∨ p.ns = .mathMl ∧ p.localName = "annotation-xml") ∨
      e.ns = .mathMl ∧ e.localName = "math" ∧ p.HoldsHtml := by
  rcases ns_of_mayHold h with hns | hns | hns
  · exact absurd hns hne
  · rw [mayHold_of_svg hns] at h
    rcases Bool.or_eq_true_iff.mp h with h | h
    · exact Or.inl ((eq_of_beq h).trans hns.symm)
    · obtain ⟨hname, h⟩ := Bool.and_eq_true_iff.mp h
      refine Or.inr (Or.inl ⟨hns, eq_of_beq hname, ?_⟩)
      exact (Bool.or_eq_true_iff.mp h).imp holdsHtml_of_ends isAnnotation_iff.mp
  · rw [mayHold_of_mathMl hns] at h
    rcases Bool.or_eq_true_iff.mp h with h | h
    · exact Or.inl ((eq_of_beq h).trans hns.symm)
    · obtain ⟨hname, h⟩ := Bool.and_eq_true_iff.mp h
      exact Or.inr (Or.inr ⟨hns, eq_of_beq hname, holdsHtml_of_ends h⟩)

end Element

namespace Tree
variable {t : Tree} {id place : NodeId} {e p : Element}

theorem parentElement?_eq_some :
    t.parentElement? id = some p ↔ ∃ parent, t.parent? id = some parent ∧ t.element? parent = some p :=
  Option.bind_eq_some_iff

theorem Housed.namespaced (h : t.Housed) : t.Namespaced where
  known := fun id e he => by
    rcases h id e he with hhtml | ⟨p, _, hp⟩
    · exact Or.inl (Element.isHtml_iff.mp hhtml).1
    · exact Element.ns_of_mayHold hp
  html := fun id e he hns hname => by
    rcases h id e he with hhtml | ⟨p, hparent, hp⟩
    · exact absurd (Element.isHtml_iff.mp hhtml).2 hname
    · rw [Element.mayHold_of_html hns] at hp
      exact ⟨p, hparent, Element.holdsHtml_of_ends hp⟩
  foreign := fun id e he hne => by
    rcases h id e he with hhtml | ⟨p, hparent, hp⟩
    · exact absurd (Element.isHtml_iff.mp hhtml).1 hne
    · exact ⟨p, hparent, Element.of_mayHold_foreign hp hne⟩

end Tree

/-! ## every arrival is housed -/

variable {byBody : Bool} {token : Token} {k k' : Core} {place : NodeId} {e : Element}

theorem Core.Arrives.mayHold (h : k.Arrives place (.element e)) (hs : k.Sound) :
    e.isHtml "html" = true ∨ ∃ p, k.tree.element? place = some p ∧ p.mayHold e = true := by
  have hcur : k.entries.head? = some place →
      ∃ p, k.tree.element? place = some p ∧ p.mayHold e = true := fun hp =>
    Tree.elementSatisfies_iff.mp (h.room.parent _ hp)
  cases h with
  | html _ he => exact Or.inl he
  | head _ hp | noscript _ hp | body _ hp => exact Or.inr (hcur hp)
  | content hp _ hopens =>
    rcases hp with ⟨_, hp⟩ | ⟨hm, hp⟩
    · exact Or.inr (hcur hp)
    · -- what goes to the head once that is closed is metadata, so both are HTML
      obtain ⟨head, hhead, hns, _⟩ := Tree.exists_of_isHtml (hs.bears.head place hp)
      have hmeta := hopens.metadata (by rw [hm]; rfl)
      refine Or.inr ⟨head, hhead, ?_⟩
      rw [Element.mayHold_of_html (Element.isHtmlOneOf_iff.mp hmeta).1]
      exact Element.endsForeignContent_of_html hns

/-- **Every move keeps the elements housed.** -/
theorem Move.housed (hm : Move byBody token k k') (hs : k.Sound) (h : k.tree.Housed) :
    k'.tree.Housed := by
  have holder : ∀ {parent : NodeId} {p e e' : Element}, k.tree.element? parent = some p →
      p.mayHold e = true → e.Like e' →
      ∃ p', k'.tree.element? parent = some p' ∧ p'.mayHold e' = true := fun hp hhold hlike => by
    obtain ⟨p', hp', hlike'⟩ := hm.retains.elements _ _ hp
    exact ⟨p', hp', by rw [hlike'.mayHold hlike, hhold]⟩
  intro id e he
  rcases hm.element_cases he with ⟨e₀, he₀, hlike, hparent⟩ | ⟨place, rfl, hparent, harr⟩
  · rcases h id e₀ he₀ with hhtml | ⟨p, hp, hhold⟩
    · left
      rw [Element.isHtml, hlike.ns, hlike.localName]
      exact hhtml
    · right
      obtain ⟨parent, hpar, hp⟩ := Tree.parentElement?_eq_some.mp hp
      obtain ⟨p', hp', hhold'⟩ := holder hp hhold hlike
      exact ⟨p', Tree.parentElement?_eq_some.mpr ⟨parent, hparent.trans hpar, hp'⟩, hhold'⟩
  · rcases harr.mayHold hs with hhtml | ⟨p, hp, hhold⟩
    · exact Or.inl hhtml
    · obtain ⟨p', hp', hhold'⟩ := holder hp hhold (.refl e)
      exact Or.inr ⟨p', Tree.parentElement?_eq_some.mpr ⟨place, hparent, hp'⟩, hhold'⟩

theorem Core.new_housed (options : Options) : (Constructor.new options).core.tree.Housed := by
  rintro ⟨_ | i⟩ e he <;> cases he

/-- **Every element is where its namespace allows it**, whatever calls were made: HTML in HTML and
at points of integration, SVG and MathML in themselves, and `svg` and `math` where HTML may be as
well, `svg` in annotations of MathML, too. -/
theorem after_namespaced (options : Options) (calls : List Call) :
    ((Constructor.new options).after calls).tree.Namespaced :=
  (Constructor.after_keeps (P := fun k => k.tree.Housed) options calls (Core.new_housed options)
    fun hs _ hm h => hm.housed hs h).namespaced

end HtmlTree
