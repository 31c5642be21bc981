import HtmlTree.Proofs.Growth

/-!
# Arrivals

A move adds at most one node to the document, and what it may add where depends on the mode, on the
stack and on the element pointers.  Put together this says all about the growth of a document that
later invariants of its shape need: each is kept by every arrival, by a text that becomes longer and
by an element that gains attributes, and so by a whole session.

* `Core.Arrives`         the nodes that may be added, and where;
* `Core.Grows`           what a move does to the document, with its conditions;
* `Move.grows`           every move does so;
* `Move.element_cases`   an element was there before in the same place, or it has just arrived;
* `after_keeps`          what every move keeps holds after any calls.
-/

namespace HtmlTree

/-! ## the nodes that may be added -/

namespace Core

/-- a node that a move may add under `place` -/
inductive Arrives (k : Core) : NodeId → NodeData → Prop
  | doctype (d : Doctype) : k.mode = .initial → Arrives k .root (.documentType d)
  | html {e : Element} : k.mode = .beforeHtml → e.isHtml "html" = true →
      k.tree.HasRoom k.entries e → Arrives k .root (.element e)
  | head {place : NodeId} {e : Element} : k.mode = .beforeHead → k.entries.head? = some place →
      e.isHtml "head" = true → k.tree.HasRoom k.entries e → Arrives k place (.element e)
  | noscript {place : NodeId} {e : Element} : k.mode = .inHead → k.entries.head? = some place →
      e.isHtml "noscript" = true → k.tree.HasRoom k.entries e → Arrives k place (.element e)
  | body {place : NodeId} {e : Element} : k.mode = .afterHead → k.entries.head? = some place →
      e.isHtml "body" = true → k.tree.HasRoom k.entries e → Arrives k place (.element e)
  | comment {place : NodeId} (data : String) : k.TakesComment place → k.mode ≠ .text →
      Arrives k place (.comment ⟨data⟩)
  | text {place : NodeId} {ch : Char} : k.entries.head? = some place → k.TakesText ch →
      (∀ id ∈ k.tree.lastChild? place, k.tree.isKind .text id = false) →
      Arrives k place (.text ⟨String.singleton ch⟩)
  | content {place : NodeId} {e : Element} : k.TakesElement place →
      e.isHtmlOneOf outerNames = false → k.Opens e → e.isHtml "image" = false →
      Arrives k place (.element e)

/-- what a move does to the document -/
inductive Grows (k : Core) : Tree → Prop
  | keep (m : DocumentMode) : Grows k (k.tree.setMode m)
  | arrive {place : NodeId} {d : NodeData} (m : DocumentMode) : k.Arrives place d →
      Grows k ((k.tree.attach place d).setMode m)
  | lengthen {place id : NodeId} {ch : Char} : k.entries.head? = some place →
      k.tree.lastChild? place = some id → k.tree.isKind .text id = true → k.TakesText ch →
      Grows k (k.tree.modifyData id (.lengthen ch))
  | merge {id : NodeId} (given : List TagAttribute) :
      k.tree.isHtmlOneOf ["html", "body"] id = true → Grows k (k.tree.modifyData id (.merge given))

end Core

variable {byBody : Bool} {token : Token} {k k' : Core} {place id : NodeId} {d : NodeData}
  {e : Element} {u : Tree}

/-- an element with another name or of another namespace is none of those -/
theorem Element.isHtmlOneOf_disjoint {names others : List String}
    (h : e.ns ≠ .html ∨ e.isHtmlOneOf names = true) (hdis : ∀ n ∈ names, n ∉ others) :
    e.isHtmlOneOf others = false := by
  rw [← Bool.not_eq_true, Element.isHtmlOneOf_iff]
  rintro ⟨hns, hmem⟩
  rcases h with h | h
  · exact h hns
  · exact hdis _ (Element.isHtmlOneOf_iff.mp h).2 hmem

theorem Element.isHtml_disjoint {names : List String} {name : String}
    (h : e.ns ≠ .html ∨ e.isHtmlOneOf names = true) (hn : name ∉ names) :
    e.isHtml name = false := by
  rw [← Bool.not_eq_true]
  intro he
  rw [Element.isHtml_iff] at he
  rcases h with h | h
  · exact h he.1
  · exact hn (he.2 ▸ (Element.isHtmlOneOf_iff.mp h).2)

/-- an element that has none of the names that are not opened -/
theorem Core.Arrives.unbarred (hp : k.TakesElement place) (hout : e.isHtmlOneOf outerNames = false)
    (hopens : k.Opens e) (hnames : e.isHtmlOneOf unopenedNames = false) :
    k.Arrives place (.element e) := by
  refine .content hp hout hopens (Bool.eq_false_iff.mpr fun he => ?_)
  rw [Element.isHtmlOneOf_of_isHtml he (by decide)] at hnames
  cases hnames

/-- a foreign element, or an HTML element with one of some other names -/
theorem Core.Arrives.ofNames {names : List String} (hp : k.TakesElement place)
    (he : e.ns ≠ .html ∨ e.isHtmlOneOf names = true) (hopens : k.Opens e)
    (hdis : ∀ n ∈ names, n ∉ outerNames) (himage : "image" ∉ names) :
    k.Arrives place (.element e) :=
  .content hp (Element.isHtmlOneOf_disjoint he hdis) hopens (Element.isHtml_disjoint he himage)

/-- **Every move grows the document so.** -/
theorem Move.grows (hm : Move byBody token k k') : k.Grows k'.tree := by
  cases hm with
  | doctype d m hk => exact .arrive m (.doctype d hk)
  | noDoctype m => exact .keep m
  | openHtml hk he hroom => exact .arrive k.tree.mode (.html hk he hroom)
  | openHead hk hp he hroom => exact .arrive k.tree.mode (.head hk hp he hroom)
  | openNoscript hk hp he hroom => exact .arrive k.tree.mode (.noscript hk hp he hroom)
  | openBody hk hp he hroom => exact .arrive k.tree.mode (.body hk hp he hroom)
  | comment _ hp hk => exact .arrive k.tree.mode (.comment _ hp hk)
  | text ch _ hp htext hlast => exact .arrive k.tree.mode (.text hp htext hlast)
  | lengthen ch _ hp hlast hkind htext => exact .lengthen hp hlast hkind htext
  | merge given _ hone => exact .merge given hone
  | leaf hp he hopens =>
    exact .arrive k.tree.mode (.ofNames hp he hopens (by decide) (by decide))
  | textOnly _ hp he hopens =>
    exact .arrive k.tree.mode (.ofNames hp (Or.inr he) hopens (by decide) (by decide))
  | element _ hk hp hout hopens _ hnames =>
    have hplace : k.TakesElement _ := Or.inl ⟨Mode.hostsElements_of_isBody hk, hp⟩
    exact .arrive k.tree.mode (.unbarred hplace hout hopens hnames)
  | closeNoscript | closeHead | leaveText | drop | closeFormatting | closeSeal | removeForm
  | setForm | goto | stop =>
    exact .keep k.tree.mode

/-- an element arrives where it has room inside those that are open -/
theorem Core.Arrives.room (h : k.Arrives place (.element e)) : k.tree.HasRoom k.entries e := by
  cases h with
  | html _ _ hroom => exact hroom
  | head _ _ _ hroom | noscript _ _ _ hroom | body _ _ _ hroom => exact hroom
  | content _ _ hopens => exact hopens.room

theorem Core.Arrives.place_lt (h : k.Arrives place d) (hs : k.Sound) :
    place.index < k.tree.size := by
  have hcur : ∀ {place : NodeId}, k.entries.head? = some place → place.index < k.tree.size :=
    fun hp => Tree.index_lt_of_label? (hs.current hp)
  cases h with
  | doctype | html => exact hs.bears.grown.root_lt
  | head _ hp | noscript _ hp | body _ hp => exact hcur hp
  | text hp => exact hcur hp
  | comment _ hp => exact hs.takesComment_lt hp
  | content hp => exact Tree.index_lt_of_label? (hs.takesElement hp)

/-! ## elements -/

theorem Tree.eq_new_or_lt {t : Tree} (h : id.index < (t.attach place d).size) :
    id = ⟨t.size⟩ ∨ id.index < t.size := by
  rw [size_attach] at h
  by_cases hnew : id.index = t.size
  · exact Or.inl (NodeId.ext_index hnew)
  · exact Or.inr (by omega)

/-- **An element was there before**, the same but for attributes of HTML, **or it has arrived.** -/
theorem Move.element_cases (hm : Move byBody token k k') (he : k'.tree.element? id = some e) :
    (∃ e₀, k.tree.element? id = some e₀ ∧ e₀.Like e ∧ k'.tree.parent? id = k.tree.parent? id) ∨
      ∃ place, id = ⟨k.tree.size⟩ ∧ k'.tree.parent? id = some place ∧
        k.Arrives place (.element e) := by
  have hold := fun hid : id.index < _ => hm.retains.element?_old hid he
  have hgrows := hm.grows
  revert hold he
  generalize k'.tree = u at hgrows
  intro he hold
  cases hgrows with
  | keep m => exact Or.inl ⟨e, he, .refl e, rfl⟩
  | @arrive place d m harr =>
    have he' : (k.tree.attach place d).element? id = some e := he
    rcases Tree.eq_new_or_lt (Tree.index_lt_of_element? he') with hnew | hlt
    · rw [hnew, Tree.element?_attach_new] at he'
      refine Or.inr ⟨place, hnew, hnew ▸ Tree.parent?_attach_new _ _ _, ?_⟩
      cases d <;> cases he'
      exact harr
    · obtain ⟨e₀, he₀, hlike⟩ := hold hlt
      exact Or.inl ⟨e₀, he₀, hlike, Tree.parent?_attach hlt⟩
  | lengthen | merge =>
    have hlt := Tree.index_lt_of_element? he
    rw [Tree.size_modifyData] at hlt
    obtain ⟨e₀, he₀, hlike⟩ := hold hlt
    exact Or.inl ⟨e₀, he₀, hlike, Tree.parent?_modifyData _ _ _ _⟩

/-! ## from moves to sessions -/

theorem Core.Becomes.keeps {P : Core → Prop} (h : k.Becomes k') (hs : k.Sound) (hf : k.Framed)
    (hk : P k) (hstep : ∀ {j j' token}, j.Sound → j.Framed → Move true token j j' → P j → P j') :
    P k' := by
  induction h with
  | refl => exact hk
  | tail hj hm ih =>
    obtain ⟨_, hm⟩ := hm
    exact hstep (Core.Becomes.sound hj hs) (Core.Becomes.framed hj hs hf) hm ih

/-- **What every move keeps holds after any calls**, if it does at the beginning. -/
theorem Constructor.after_keeps {P : Core → Prop} (options : Options) (calls : List Call)
    (hnew : P (Constructor.new options).core)
    (hstep : ∀ {j j' token}, j.Sound → j.Framed → Move true token j j' → P j → P j') :
    P ((Constructor.new options).after calls).core :=
  (after_becomes (new_sound options) calls).keeps (new_sound options) (Core.new_framed options) hnew
    hstep

end HtmlTree
