import HtmlTree.Proofs.Planted

/-!
# The first value of an attribute

An element that is made for a start tag has the tag's attributes, each under the name that its
namespace writes, and of several with the same name the first.  Elements that are implied have none.
Later tags of its name may add to the attributes of an `html` or `body` element, by the same rule;
nothing else ever changes an element.

* `firstValue?`           the value of the first attribute of a name;
* `get?_union`            merging by it;
* `Element.StandsFor`     an element with the name and the attributes of a start tag;
* `Token.Made`            the elements that a token may make;
* `Move.element_origin`   an element was there before, has gained attributes or is new;
* `Moves.new_satisfies`, `Moves.element_old`, `Moves.element_new`   the same of any number of moves.
-/

namespace HtmlTree

/-! ## attributes -/

/-- the value of the first attribute of this name -/
def firstValue? (given : List TagAttribute) (name : String) : Option String :=
  (given.find? (·.name == name)).map (·.value)

/-- the attributes under the names that the namespace writes -/
def StartTag.attributesIn (tag : StartTag) (ns : Namespace) : List TagAttribute :=
  tag.attributes.map fun a => { a with name := adjustAttributeName ns a.name }

theorem firstValue?_append (given more : List TagAttribute) (name : String) :
    firstValue? (given ++ more) name = (firstValue? given name).or (firstValue? more name) := by
  unfold firstValue?
  rw [List.find?_append, Option.map_or]

theorem firstValue?_cons (g : TagAttribute) (given : List TagAttribute) (name : String) :
    firstValue? (g :: given) name =
      if g.name = name then some g.value else firstValue? given name := by
  unfold firstValue?
  rw [List.find?_cons]
  by_cases hn : g.name = name
  · rw [if_pos hn, beq_iff_eq.mpr hn]
    rfl
  · rw [if_neg hn, beq_false_of_ne hn]

theorem StartTag.attributesIn_html (tag : StartTag) : tag.attributesIn .html = tag.attributes :=
  List.map_id _

/-- a merge leaves the values that are there, and takes the first one for each other name -/
theorem Attributes.get?_union_eq (a : Attributes) (given : List TagAttribute) (name : String) :
    (a.union given).get? name = (a.get? name).or (firstValue? given name) := by
  induction given generalizing a with
  | nil => exact (Option.or_none).symm
  | cons g given ih =>
    rw [firstValue?_cons, show a.union (g :: given) = (a.insertIfNew g.name g.value).union given
      from rfl, ih]
    by_cases hn : g.name = name
    · rw [if_pos hn, ← hn, get?_insertIfNew_self]
      cases a.get? g.name <;> rfl
    · rw [if_neg hn, get?_insertIfNew_ne a fun e => hn e.symm]

theorem Attributes.get?_union_empty (given : List TagAttribute) (name : String) :
    (Attributes.union .empty given).get? name = firstValue? given name := by
  rw [get?_union_eq, get?_empty, Option.none_or]

/-! ## elements and their tags -/

/-- the element has the name of this start tag and its attributes, as its namespace writes them,
with the first value of each; an `image` in HTML is called `img` -/
structure Element.StandsFor (e : Element) (tag : StartTag) : Prop where
  name : e.localName = adjustTagName e.ns tag.name ∨ tag.name = "image" ∧ e.localName = "img"
  values : ∀ name, e.attributes.get? name = firstValue? (tag.attributesIn e.ns) name

/-- an element that is implied, and for a start tag is not the one that it names -/
def Token.Implies (token : Token) (e : Element) : Prop :=
  ∃ name, e = .bare name .html ∧ ∀ tag, token = .startTag tag → name ∈ outerNames ∧ name ≠ tag.name

/-- an element that the token may have made -/
def Token.Made (token : Token) (e : Element) : Prop :=
  token.Implies e ∨ ∃ tag, token = .startTag tag ∧ e.StandsFor tag

variable {byBody : Bool} {token : Token} {tag : StartTag} {k k' : Core} {id : NodeId}
  {e : Element} {given : List TagAttribute} {name : String}

namespace Element

theorem StandsFor.ofForeignTag (tag : StartTag) (ns : Namespace) :
    (Element.ofForeignTag tag ns).StandsFor tag :=
  ⟨Or.inl rfl, Attributes.get?_union_empty _⟩

theorem StandsFor.ofTag (tag : StartTag) :
    (Element.ofTag tag.name tag.attributes .html).StandsFor tag where
  name := Or.inl rfl
  values := fun name => by
    rw [show (Element.ofTag tag.name tag.attributes .html).ns = .html from rfl,
      tag.attributesIn_html]
    exact Attributes.get?_union_empty _ name

/-- an element for the tag that an `image` tag goes on as -/
theorem StandsFor.ofImage (h : e.StandsFor { tag with name := "img" }) (hn : tag.name = "image") :
    e.StandsFor tag where
  name := by
    have himg : ∀ ns, adjustTagName ns "img" = "img" := fun ns => by
      cases ns <;> decide +kernel
    rcases h.name with h | ⟨h, _⟩
    · exact Or.inr ⟨hn, h.trans (himg e.ns)⟩
    · exact absurd (show "img" = "image" from h) (by decide)
  values := h.values

/-- the tag's attributes are no news for its element -/
theorem StandsFor.merge (h : e.StandsFor tag) (hns : e.ns = .html) :
    { e with attributes := e.attributes.union tag.attributes }.StandsFor tag where
  name := h.name
  values := fun name => by
    have hvalue := h.values name
    rw [hns, tag.attributesIn_html] at hvalue
    rw [Attributes.get?_union_eq, hvalue, hns, tag.attributesIn_html, Option.or_self]

theorem StandsFor.localName_of_html (h : e.StandsFor tag) (hns : e.ns = .html) :
    e.localName = tag.name ∨ e.localName = "img" := by
  have hname := h.name
  rw [hns] at hname
  exact hname.imp_right And.right

end Element

namespace Token

theorem Makes.made (h : token.Makes e) : token.Made e := by
  have hstands : ∀ {tag : StartTag}, token.Stands (.startTag tag) → e.StandsFor tag →
      token.Made e := by
    rintro tag (rfl | ⟨other, rfl, hn, hother⟩) he
    · exact Or.inr ⟨tag, rfl, he⟩
    · cases hother
      exact Or.inr ⟨other, rfl, he.ofImage hn⟩
  cases h with
  | tag ht => exact hstands ht (.ofTag _)
  | foreign ht => exact hstands ht (.ofForeignTag _ _)
  | @implied name ht => exact Or.inl ⟨name, rfl, fun tag htag => (ht tag htag).imp_right Ne.symm⟩

/-- a further tag of its name adds nothing to an element that this tag has made -/
theorem Made.merge (h : (Token.startTag tag).Made e) (he : e.isHtml tag.name = true) :
    (Token.startTag tag).Made { e with attributes := e.attributes.union tag.attributes } := by
  obtain ⟨hns, hname⟩ := Element.isHtml_iff.mp he
  rcases h with ⟨name, rfl, himplied⟩ | ⟨other, ht, hstands⟩
  · exact absurd hname (himplied tag rfl).2
  · cases ht
    exact Or.inr ⟨tag, rfl, hstands.merge hns⟩

end Token

/-! ## what a move does to an element -/

namespace Tree
variable {t : Tree} {other : NodeId}

theorem element?_lengthen (t : Tree) (id other : NodeId) (ch : Char) :
    (t.modifyData id (.lengthen ch)).element? other = t.element? other := by
  unfold element? modifyData
  rw [get?_modify]
  split
  · cases t.get? other with
    | none => rfl
    | some n => obtain ⟨d, p, cs⟩ := n; cases d <;> rfl
  · rfl

theorem element?_merge (t : Tree) (id other : NodeId) (given : List TagAttribute) :
    (t.modifyData id (.merge given)).element? other =
      if other = id then
        (t.element? other).map fun e => { e with attributes := e.attributes.union given }
      else t.element? other := by
  unfold element? modifyData
  rw [get?_modify]
  split
  · cases t.get? other with
    | none => rfl
    | some n => obtain ⟨d, p, cs⟩ := n; cases d <;> rfl
  · rfl

/-- an element of a tree that has gained a node was there before, or it is the new node -/
theorem element?_attach_cases {place : NodeId} {d : NodeData}
    (h : (t.attach place d).element? id = some e) :
    t.element? id = some e ∨ id = ⟨t.size⟩ ∧ d = .element e := by
  have hlt := index_lt_of_element? h
  rw [size_attach] at hlt
  by_cases hnew : id.index = t.size
  · have hid : id = ⟨t.size⟩ := NodeId.ext_index hnew
    rw [hid, element?_attach_new] at h
    refine Or.inr ⟨hid, ?_⟩
    cases d <;> cases h
    rfl
  · rw [element?_attach_old d (by omega)] at h
    exact Or.inl h

end Tree

/-- what becomes of an element in a move, seen from behind -/
inductive Core.Origin (k : Core) (token : Token) (id : NodeId) : Element → Prop
  | same {e : Element} : k.tree.element? id = some e → Origin k token id e
  | gained {e : Element} {tag : StartTag} : k.tree.element? id = some e → token = .startTag tag →
      e.isHtml tag.name = true → k.tree.isHtmlOneOf ["html", "body"] id = true →
      Origin k token id { e with attributes := e.attributes.union tag.attributes }
  | new {e : Element} : id = ⟨k.tree.size⟩ → token.Makes e → Origin k token id e

/-- **An element was there before**, without the attributes that its tag has given it, **or it has
been made for the token.** -/
theorem Move.element_origin (hm : Move byBody token k k') (he : k'.tree.element? id = some e) :
    k.Origin token id e := by
  have hnew : ∀ {place : NodeId} {f : Element}, token.Makes f →
      (k.tree.attach place (.element f)).element? id = some e → k.Origin token id e := by
    intro place f hmade he
    rcases Tree.element?_attach_cases he with hold | ⟨hid, hf⟩
    · exact .same hold
    · cases hf
      exact .new hid hmade
  have hother : ∀ {place : NodeId} {d : NodeData}, d.element? = none →
      (k.tree.attach place d).element? id = some e → k.Origin token id e := by
    intro place d hd he
    rcases Tree.element?_attach_cases he with hold | ⟨_, rfl⟩
    · exact .same hold
    · cases hd
  cases hm with
  | doctype => exact hother rfl he
  | comment => exact hother rfl he
  | text => exact hother rfl he
  | openHtml _ _ _ hmade | openHead _ _ _ _ hmade | openNoscript _ _ _ _ hmade
  | openBody _ _ _ _ hmade | leaf _ _ _ hmade | element _ _ _ _ _ hmade
  | textOnly _ _ _ _ hmade => exact hnew hmade he
  | lengthen ch =>
    rw [Tree.element?_lengthen] at he
    exact .same he
  | merge given _ hone hgives =>
    rw [Tree.element?_merge] at he
    split at he
    · rename_i hid
      subst hid
      obtain ⟨tag, rfl, rfl, hname⟩ := hgives
      obtain ⟨f, hf, rfl⟩ := Option.map_eq_some_iff.mp he
      obtain ⟨f', hf', hn⟩ := Tree.elementSatisfies_iff.mp hname
      cases hf.symm.trans hf'
      exact .gained hf rfl hn hone
    · exact .same he
  | noDoctype | closeNoscript | closeHead | leaveText | drop | closeFormatting | closeSeal
  | removeForm | setForm | goto | stop => exact .same he

/-! ## any number of moves -/

/-- an element made on the way has what all elements have that the token may make, if a start tag's
attributes do not take it from them -/
theorem Moves.new_satisfies {P : Element → Prop} (h : Moves byBody token k k')
    (hmakes : ∀ e, token.Makes e → P e)
    (hgains : ∀ tag e, token = .startTag tag → e.isHtml tag.name = true → P e →
      P { e with attributes := e.attributes.union tag.attributes })
    (hid : k.tree.size ≤ id.index) (he : k'.tree.element? id = some e) : P e := by
  induction h generalizing e with
  | refl => exact absurd (Tree.index_lt_of_element? he) (Nat.not_lt.mpr hid)
  | tail _ hm ih =>
    rcases hm.element_origin he with hold | ⟨hold, ht, hname, _⟩ | ⟨_, hmade⟩
    · exact ih hold
    · exact hgains _ _ ht hname (ih hold)
    · exact hmakes e hmade

/-- an element made on the way is one that the token may have made -/
theorem Moves.element_new (h : Moves byBody token k k') (hid : k.tree.size ≤ id.index)
    (he : k'.tree.element? id = some e) : token.Made e :=
  h.new_satisfies (fun _ hmakes => hmakes.made)
    (fun _ _ ht hname hmade => by subst ht; exact hmade.merge hname) hid he

/-- an element that was there before is left as it was, but for a start tag of its name -/
theorem Moves.element_old (h : Moves byBody token k k') (he : k.tree.element? id = some e)
    (hn : ∀ tag, token = .startTag tag → e.isHtml tag.name = false) :
    k'.tree.element? id = some e := by
  induction h with
  | refl => exact he
  | tail hj hm ih =>
    obtain ⟨e', he', hlike⟩ := hm.retains.elements id e ih
    rcases hm.element_origin he' with hold | ⟨hold, ht, hname, _⟩ | ⟨hid, _⟩
    · rw [he', ← hold, ih]
    · cases hold.symm.trans ih
      exact absurd hname (by rw [hn _ ht]; decide)
    · have hlt := Tree.index_lt_of_element? ih
      rw [hid] at hlt
      exact absurd hlt (Nat.lt_irrefl _)

end HtmlTree
