import HtmlTree.Proofs.Nesting
import Mathlib.Logic.Relation

/-!
# The moves of construction

Whatever a rule does to the core of a constructor is one of a few moves, each made only where its
condition holds.  They are listed here once, with their conditions; what every move keeps holds of
all rules.  Two steps are one move where the state between them is never left as it is: an element
that holds only text is opened together with the mode for it.

* `Core.append`, `Core.opened`   a new node, and a new element that is open then;
* `Core.Opens`                   what an element must be to be put somewhere in the content;
* `Move`                         the moves that a token may cause;
* `Move.sound`                   every move keeps a sound core sound;
* `Moves`                        any number of moves, with `Moves.sound` and `Moves.within`.
-/

namespace HtmlTree

/-! ## names -/

/-- elements without content, which are closed at once -/
def voidNames : List String :=
  [ "base", "basefont", "bgsound", "link", "meta", "area", "br", "embed", "img", "keygen", "wbr",
    "input", "param", "source", "track", "hr" ]

/-- elements that are never open but for text, and `image`, which no HTML element is called -/
def unopenedNames : List String :=
  "image" :: voidNames ++ textOnlyNames.filter (· != "noscript")

/-- elements that may be in the head, or in a `noscript` there; where scripts run a `noscript` holds
text only -/
def Mode.metadataNames (scripting : Bool) : Mode → List String
  | inHeadNoscript => noscriptContentNames
  | _ =>
    ["base", "basefont", "bgsound", "link", "meta", "title", "noframes", "style", "script"] ++
      if scripting then ["noscript"] else []

/-- elements that leave the stack in no common way -/
def keptNames : List String := outerNames ++ formattingNames ++ sealNames

/-! ## what a token may make -/

/-- the token that a token may go on as: itself, but for `image` start tags, which are `img` ones -/
def Token.Stands (token t : Token) : Prop :=
  t = token ∨ ∃ tag : StartTag, token = .startTag tag ∧ tag.name = "image" ∧
    t = .startTag { tag with name := "img" }

/-- the elements that the rules for a token may make: that of its tag, or one that needs no tag; a
start tag goes on behind elements around the content that it does not name -/
inductive Token.Makes (token : Token) : Element → Prop
  | tag {tag : StartTag} : token.Stands (.startTag tag) →
      Makes token (.ofTag tag.name tag.attributes .html)
  | foreign {tag : StartTag} {ns : Namespace} : token.Stands (.startTag tag) → ns ≠ .html →
      tag.breaksOut = false → Makes token (.ofForeignTag tag ns)
  | implied {name : String} :
      (∀ tag, token = .startTag tag → name ∈ outerNames ∧ tag.name ≠ name) →
      Makes token (.bare name .html)

/-- the attributes are those of a start tag that has the name of this element -/
def Token.Gives (token : Token) (t : Tree) (id : NodeId) (given : List TagAttribute) : Prop :=
  ∃ tag : StartTag, token = .startTag tag ∧ given = tag.attributes ∧ t.isHtml tag.name id = true

namespace Token
variable {token t : Token} {e : Element}

theorem Stands.refl (token : Token) : token.Stands token := Or.inl rfl

theorem Stands.trans {u : Token} (h : token.Stands t) (h' : t.Stands u) : token.Stands u := by
  rcases h' with rfl | ⟨tag, ht, hn, rfl⟩
  · exact h
  · rcases h with rfl | ⟨other, _, _, he⟩
    · exact Or.inr ⟨tag, ht, hn, rfl⟩
    · -- an `img` tag goes on as itself only
      rw [he] at ht
      cases ht
      exact absurd (show "img" = "image" from hn) (by decide)

/-- only a start tag goes on as another token -/
theorem Stands.eq_of_eq {u : Token} (h : token.Stands t) (ht : t = u)
    (hu : u.isStartTag = false) : token = u := by
  rcases h with rfl | ⟨_, _, _, rfl⟩
  · exact ht
  · rw [← ht] at hu
    cases hu

theorem Stands.isCharacter (h : token.Stands t) (ht : t.isCharacter = true) :
    token.isCharacter = true := by
  rcases h with rfl | ⟨_, _, _, rfl⟩
  · exact ht
  · cases ht

theorem Makes.stands (hm : t.Makes e) (h : token.Stands t) : token.Makes e := by
  cases hm with
  | tag ht => exact .tag (h.trans ht)
  | foreign ht hns hstay => exact .foreign (h.trans ht) hns hstay
  | @implied name ht =>
    refine .implied fun tag htag => ?_
    rcases h with rfl | ⟨other, hother, hn, rfl⟩
    · exact ht tag htag
    · have hout := (ht _ rfl).1
      rw [htag] at hother
      cases hother
      refine ⟨hout, fun he => ?_⟩
      rw [← he, hn] at hout
      exact absurd hout (by decide)

/-- a tag makes its element -/
theorem Makes.ofTag (tag : StartTag) :
    (Token.startTag tag).Makes (.ofTag tag.name tag.attributes .html) := .tag (.refl _)

/-- any other token makes elements that need no tag -/
theorem Makes.ofNoTag (ht : token.isStartTag = false) (name : String) :
    token.Makes (.bare name .html) := .implied fun tag he => by
  rw [he] at ht
  cases ht

/-- for a tag that stands for another one no element is given attributes -/
theorem Gives.stands {tree : Tree} {id : NodeId} {given : List TagAttribute}
    (hg : t.Gives tree id given) (h : token.Stands t)
    (hone : tree.isHtmlOneOf ["html", "body"] id = true) : token.Gives tree id given := by
  rcases h with rfl | ⟨tag, _, _, rfl⟩
  · exact hg
  · obtain ⟨other, he, _, hname⟩ := hg
    cases he
    rw [Tree.isHtmlOneOf_eq_false (show tree.isHtml "img" id = true from hname) (by decide)] at hone
    cases hone

end Token

/-! ## changes of a core -/

namespace Core

/-- a new node under `place` -/
def append (k : Core) (place : NodeId) (d : NodeData) : Core :=
  { k with tree := k.tree.attach place d }

/-- a new element under `place`, which is the current node then -/
def opened (k : Core) (place : NodeId) (e : Element) : Core :=
  { k with tree := k.tree.attach place (.element e), entries := ⟨k.tree.size⟩ :: k.entries }

/-- the mode for text-only elements, from which the mode of now is to be returned to -/
def forText (k : Core) : Core := { k with originalMode := some k.mode, mode := .text }

/-- where an element goes: to the current node, or to the head once that is closed -/
def TakesElement (k : Core) (place : NodeId) : Prop :=
  k.mode.hostsElements = true ∧ k.entries.head? = some place ∨
    k.mode = .afterHead ∧ k.head = some place

/-- where a comment goes -/
def TakesComment (k : Core) (place : NodeId) : Prop :=
  k.entries.head? = some place ∨ k.mode = .afterBody ∧ k.entries.getLast? = some place ∨
    (k.mode = .initial ∨ k.mode = .beforeHtml ∨ k.mode = .afterAfterBody) ∧ place = .root

/-- where text goes: into text-only elements and into the body, blanks also behind the head -/
def TakesText (k : Core) (ch : Char) : Prop :=
  k.mode = .text ∨ k.mode.isBody = true ∨ k.mode = .afterHead ∧ Text.isBlank ch = true

/-- an element of the content can be put here: there is room for it, and up to the body it is
metadata -/
structure Opens (k : Core) (e : Element) : Prop where
  room : k.tree.HasRoom k.entries e
  metadata : k.mode.isBody = false →
    e.isHtmlOneOf (k.mode.metadataNames k.options.scripting) = true

end Core

/-- gives an element the attributes that it does not have yet -/
def NodeData.merge (given : List TagAttribute) : NodeData → NodeData :=
  mapElement fun e => { e with attributes := e.attributes.union given }

/-- lengthens a text -/
def NodeData.lengthen (ch : Char) : NodeData → NodeData :=
  mapCharacterData (·.append (String.singleton ch))

/-! ## moves -/

/-- what a token may do to a core in one go; HTML elements of the content are opened, and those that
leave the stack by an end tag of their own are closed, by the rules of the body only -/
inductive Move (byBody : Bool) (token : Token) (k : Core) : Core → Prop
  /-- the document's doctype and with it the document's mode -/
  | doctype (d : Doctype) (m : DocumentMode) : k.mode = .initial →
      Move byBody token k
        { k with tree := (k.tree.attach .root (.documentType d)).setMode m, mode := .beforeHtml }
  | noDoctype (m : DocumentMode) : k.mode = .initial →
      Move byBody token k { k with tree := k.tree.setMode m, mode := .beforeHtml }
  | openHtml {e : Element} : k.mode = .beforeHtml → e.isHtml "html" = true →
      k.tree.HasRoom k.entries e → token.Makes e →
      Move byBody token k { k.opened .root e with mode := .beforeHead }
  | openHead {place : NodeId} {e : Element} : k.mode = .beforeHead →
      k.entries.head? = some place → e.isHtml "head" = true →
      k.tree.HasRoom k.entries e → token.Makes e →
      Move byBody token k { k.opened place e with mode := .inHead, head := some ⟨k.tree.size⟩ }
  | openNoscript {place : NodeId} {e : Element} : k.mode = .inHead →
      k.entries.head? = some place → e.isHtml "noscript" = true →
      k.tree.HasRoom k.entries e → token.Makes e →
      Move byBody token k { k.opened place e with mode := .inHeadNoscript }
  | closeNoscript : k.mode = .inHeadNoscript →
      Move byBody token k { k with entries := k.entries.tail, mode := .inHead }
  | closeHead : k.mode = .inHead →
      Move byBody token k { k with entries := k.entries.tail, mode := .afterHead }
  | openBody {place : NodeId} {e : Element} : k.mode = .afterHead →
      k.entries.head? = some place → e.isHtml "body" = true →
      k.tree.HasRoom k.entries e → token.Makes e →
      Move byBody token k { k.opened place e with mode := .inBody }
  | comment {place : NodeId} {data : String} : token = .comment data → k.TakesComment place →
      k.mode ≠ .text →
      Move byBody token k (k.append place (.comment ⟨data⟩))
  | text {place : NodeId} (ch : Char) : token.isCharacter = true →
      k.entries.head? = some place → k.TakesText ch →
      (∀ id ∈ k.tree.lastChild? place, k.tree.isKind .text id = false) →
      Move byBody token k (k.append place (.text ⟨String.singleton ch⟩))
  /-- the text at the end of the current node becomes longer -/
  | lengthen {place id : NodeId} (ch : Char) : token.isCharacter = true →
      k.entries.head? = some place → k.tree.lastChild? place = some id →
      k.tree.isKind .text id = true → k.TakesText ch →
      Move byBody token k { k with tree := k.tree.modifyData id (.lengthen ch) }
  /-- a further tag of the document element or the body -/
  | merge {id : NodeId} (given : List TagAttribute) : id ∈ k.entries →
      k.tree.isHtmlOneOf ["html", "body"] id = true → token.Gives k.tree id given →
      Move byBody token k { k with tree := k.tree.modifyData id (.merge given) }
  /-- an element that is closed at once -/
  | leaf {place : NodeId} {e : Element} : k.TakesElement place →
      e.ns ≠ .html ∨ e.isHtmlOneOf voidNames = true → k.Opens e → token.Makes e →
      Move byBody token k (k.append place (.element e))
  | element {place : NodeId} {e : Element} : byBody = true ∨ e.ns ≠ .html →
      k.mode.isBody = true → k.entries.head? = some place → e.isHtmlOneOf outerNames = false →
      k.Opens e → token.Makes e → e.isHtmlOneOf unopenedNames = false →
      Move byBody token k (k.opened place e)
  | textOnly {place : NodeId} {e : Element} : k.mode.hostsText = true → k.TakesElement place →
      e.isHtmlOneOf textOnlyNames = true → k.Opens e → token.Makes e →
      Move byBody token k (k.opened place e).forText
  | leaveText {m : Mode} : k.mode = .text → k.originalMode = some m → m.hostsText = true →
      Move byBody token k { k with entries := k.entries.tail, originalMode := none, mode := m }
  /-- elements are closed that may be closed by the way -/
  | drop (inside : List NodeId) {rest : List NodeId} : k.mode.isBody = true →
      k.entries = inside ++ rest →
      (∀ id ∈ inside, k.tree.isHtmlOneOf keptNames id = false) →
      Move byBody token k { k with entries := rest }
  | closeFormatting {id : NodeId} {rest : List NodeId} {name : String} : byBody = true →
      k.mode.isBody = true → token = .endTag name → name ∈ formattingNames →
      k.entries = id :: rest → k.tree.isHtml name id = true →
      Move byBody token k { k with entries := rest }
  /-- an element that seals off is closed, with all that it seals off -/
  | closeSeal {inside outside : List NodeId} {id : NodeId} {name : String} :
      byBody = true → k.mode.isBody = true → token = .endTag name → name ∈ sealNames →
      k.entries = inside ++ id :: outside → k.tree.isHtml name id = true →
      (∀ x ∈ inside, k.tree.isHtmlOneOf sealNames x = false) →
      Move byBody token k { k with entries := outside }
  | removeForm {id : NodeId} : k.mode.isBody = true → k.tree.isHtml "form" id = true →
      Move byBody token k { k with entries := k.entries.erase id }
  | setForm {form : Option NodeId} : (∀ id ∈ form, k.tree.isHtml "form" id = true) →
      Move byBody token k { k with form }
  /-- on to the end of the body or of the document, and back -/
  | goto {m : Mode} : k.mode.isBody = true → m.isBody = true →
      Move byBody token k { k with mode := m }
  | stop : token = .endOfFile → k.mode.isBody = true →
      Move byBody token k { k with entries := [], stopped := true }

/-! ## what a coherent core offers -/

theorem Mode.isBody_facts {m : Mode} (h : m.isBody = true) :
    m ≠ .text ∧ m ≠ .initial ∧ m ≠ .beforeHtml ∧ m.beforeHeadThere = false := by
  cases m <;> cases h <;> decide

theorem Mode.hostsElements_of_isBody {m : Mode} (h : m.isBody = true) : m.hostsElements = true := by
  cases m <;> first | exact h | rfl

theorem Mode.hostsText_facts {m : Mode} (h : m.hostsText = true) :
    m ≠ .text ∧ m ≠ .initial ∧ m ≠ .beforeHtml ∧ m.beforeHeadThere = false := by
  cases m <;> cases h <;> decide

namespace Tree
variable {t u : Tree} {ids rest : List NodeId} {m m' : Mode} {original : Option Mode}
  {head head' : Option NodeId} {id place : NodeId}

theorem stackOf_iff_of_isBody (h : m.isBody = true) : t.StackOf ids m ↔ t.BodyStack ids := by
  cases m <;> first | exact Iff.rfl | cases h

theorem Fits.original_none (h : t.Fits ids m original head) (hm : m ≠ .text) : original = none := by
  cases original with
  | none => rfl
  | some _ => exact absurd (h.original_iff.mp rfl) hm

/-- on to another mode and its stack -/
theorem Fits.onto (h : t.Fits ids m original head) (hm : m ≠ .text) (hs : u.StackOf rest m')
    (hh : head'.isSome = true ↔ m'.beforeHeadThere = false) : u.Fits rest m' original head' := by
  rw [h.original_none hm]
  exact .ofStack hs hh

theorem Fits.bodyStack (h : t.Fits ids m original head) (hm : m.isBody = true) : t.BodyStack ids :=
  (stackOf_iff_of_isBody hm).mp (h.stack (Mode.isBody_facts hm).1)

theorem label?_root (h : t.Grown) : t.label? .root = none := by
  obtain ⟨_, hr⟩ := h.root
  unfold label? element?
  rw [hr]
  rfl

theorem Grown.ne_root (h : t.Grown) (hl : (t.label? id).isSome = true) : id ≠ .root := fun e => by
  rw [e, label?_root h] at hl
  cases hl

theorem label?_isSome_of_isHtml {name : String} (h : t.isHtml name id = true) :
    (t.label? id).isSome = true := by
  rw [isHtml_iff.mp h]
  rfl

/-- what a new element is called -/
theorem isHtml_attach_new {e : Element} {name : String} (h : e.isHtml name = true) :
    (t.attach place (.element e)).isHtml name ⟨t.size⟩ = true := by
  unfold isHtml elementSatisfies
  rw [element?_attach_new]
  exact h

theorem isHtmlOneOf_attach_new (t : Tree) (place : NodeId) (e : Element) (names : List String) :
    (t.attach place (.element e)).isHtmlOneOf names ⟨t.size⟩ = e.isHtmlOneOf names := by
  unfold isHtmlOneOf elementSatisfies
  rw [element?_attach_new]
  rfl

end Tree

namespace Core
variable {k : Core} {place id : NodeId} {e : Element} {ids : List NodeId} {u : Tree}

theorem Coherent.current (hs : k.Coherent) (h : k.entries.head? = some id) :
    (k.tree.label? id).isSome = true :=
  hs.bears.element id (List.mem_of_mem_head? (Option.mem_def.mpr h))

theorem Coherent.takesElement (hs : k.Coherent) (h : k.TakesElement id) :
    (k.tree.label? id).isSome = true := by
  rcases h with ⟨_, h⟩ | ⟨_, h⟩
  · exact hs.current h
  · exact Tree.label?_isSome_of_isHtml (hs.bears.head id h)

/-- the document grows, and has no child more than before that counts -/
theorem Coherent.grow (hs : k.Coherent) (hg : u.Grown) (hw : k.tree.Within u)
    (he : u.rootHas .element = k.tree.rootHas .element)
    (hd : u.rootHas .documentType = k.tree.rootHas .documentType) :
    ({ k with tree := u } : Core).Coherent where
  bears := hs.bears.within hg hw
  noElement := fun hm => he.trans (hs.noElement hm)
  noDoctype := fun hm => hd.trans (hs.noDoctype hm)
  fits := fun h => (hs.fits h).within hw hs.bears.index_lt

/-- a node is appended inside an element, or as a comment of the document -/
theorem Coherent.append (hs : k.Coherent) {d : NodeData}
    (h : (k.tree.label? place).isSome = true ∨ place = .root ∧ d.kind = .comment) :
    (k.append place d).Coherent := by
  have hg := hs.bears.grown
  have hlt : place.index < k.tree.size := by
    rcases h with h | ⟨rfl, _⟩
    · exact Tree.index_lt_of_label? h
    · exact hg.root_lt
  have hside : ∀ kind : NodeKind, kind ≠ .comment → place ≠ .root ∨ d.kind ≠ kind := by
    intro kind hk
    rcases h with h | ⟨_, h⟩
    · exact Or.inl (hg.ne_root h)
    · exact Or.inr (by rw [h]; exact Ne.symm hk)
  exact hs.grow (hg.attach hlt) (Tree.within_attach _ _ _)
    (Tree.rootHas_attach hg (hside _ (by decide))) (Tree.rootHas_attach hg (hside _ (by decide)))

/-- what a node holds changes, but not its kind and name -/
theorem Coherent.modifyData (hs : k.Coherent) {f : NodeData → NodeData} (hf : f .document = .document)
    (hk : ∀ d, (f d).kind = d.kind) (hl : ∀ d, (f d).label? = d.label?) (target : NodeId) :
    ({ k with tree := k.tree.modifyData target f } : Core).Coherent :=
  have hg := hs.bears.grown
  hs.grow (hg.modifyData hf) (Tree.within_modifyData _ _ hk hl)
    (Tree.rootHas_modifyData hg _ hk hl _) (Tree.rootHas_modifyData hg _ hk hl _)

/-- a core in a mode in which the document may have children of any kind -/
theorem Coherent.ofBears {k' : Core} (hb : k'.tree.Bears k'.entries k'.head k'.form)
    (hi : k'.mode ≠ .initial) (hh : k'.mode ≠ .beforeHtml)
    (hf : k'.stopped = false → k'.tree.Fits k'.entries k'.mode k'.originalMode k'.head) :
    k'.Coherent where
  bears := hb
  noElement := fun hm => (hm.elim hi hh).elim
  noDoctype := fun hm => absurd hm hi
  fits := hf

/-- elements of the body are closed -/
theorem Coherent.cut (hs : k.Coherent) (hm : k.mode.isBody = true) (hsub : ids.Sublist k.entries)
    (hb : k.tree.BodyStack k.entries → k.tree.BodyStack ids) :
    ({ k with entries := ids } : Core).Coherent := by
  obtain ⟨ht, hi, hh, hhead⟩ := Mode.isBody_facts hm
  refine .ofBears (hs.bears.sublist hsub) hi hh fun h => ?_
  have hf := hs.fits h
  exact hf.onto ht ((Tree.stackOf_iff_of_isBody hm).mpr (hb (hf.bodyStack hm))) hf.head_iff

theorem Coherent.opened_bears (hs : k.Coherent) (h : (k.tree.label? place).isSome = true) :
    (k.opened place e).tree.Bears (k.opened place e).entries k.head k.form :=
  hs.bears.opened (Tree.index_lt_of_label? h)

end Core

theorem NodeData.kind_merge (given : List TagAttribute) (d : NodeData) :
    (d.merge given).kind = d.kind := kind_mapElement _ d

theorem NodeData.label?_merge (given : List TagAttribute) (d : NodeData) :
    (d.merge given).label? = d.label? := by
  unfold merge
  rw [label?_mapElement]
  exact fun _ => ⟨rfl, rfl⟩

theorem NodeData.kind_lengthen (ch : Char) (d : NodeData) : (d.lengthen ch).kind = d.kind :=
  kind_mapCharacterData _ d

theorem NodeData.label?_lengthen (ch : Char) (d : NodeData) : (d.lengthen ch).label? = d.label? :=
  label?_mapCharacterData _ d

/-! ## every move keeps the parts together -/

namespace Tree
variable {t u : Tree} {ids : List NodeId} {place : NodeId} {e : Element} {names : List String}
  {name : String}

theorem Spells.tail (h : t.Spells (name :: names) ids) : t.Spells names ids.tail := by
  cases h with
  | cons _ h => exact h

/-- a new element inside those that are open -/
theorem Spells.opened (h : t.Spells names ids) (he : e.isHtml name = true) :
    (t.attach place (.element e)).Spells (name :: names) (⟨t.size⟩ :: ids) :=
  .cons (isHtml_attach_new he) (h.within (within_attach _ _ _))

end Tree

theorem Tree.isHtmlOneOf_subset {t : Tree} {id : NodeId} {names more : List String}
    (hsub : ∀ n ∈ names, n ∈ more) (h : t.isHtmlOneOf more id = false) :
    t.isHtmlOneOf names id = false := by
  rw [← Bool.not_eq_true] at h ⊢
  intro hid
  obtain ⟨name, hn, hl⟩ := Tree.isHtmlOneOf_iff.mp hid
  exact h (Tree.isHtmlOneOf_iff.mpr ⟨name, hsub name hn, hl⟩)

theorem formattingNames_not_outer : ∀ name ∈ formattingNames, name ∉ outerNames := by decide

theorem sealNames_not_outer : ∀ name ∈ sealNames, name ∉ outerNames := by decide

variable {byBody : Bool} {token : Token} {k k' : Core}

/-- **Every move keeps a coherent core coherent.** -/
theorem Move.coherent (hm : Move byBody token k k') (hs : k.Coherent) : k'.Coherent := by
  have hg := hs.bears.grown
  cases hm with
  | doctype d m hk =>
    have hlt := hg.root_lt
    have hw := Tree.within_attach k.tree .root (.documentType d)
    have hgrow := hs.bears.within (hg.attach hlt) hw
    refine ⟨hgrow.within (hgrow.grown.setMode m) (Tree.within_setMode _ m), fun _ => ?_,
      fun h => Mode.noConfusion h, fun h => ?_⟩
    · show (k.tree.attach .root (.documentType d)).rootHas .element = false
      rw [Tree.rootHas_attach hg (Or.inr (by exact NodeKind.noConfusion)), hs.noElement (Or.inl hk)]
    · have hf := hs.fits h
      rw [hk] at hf
      exact hf.onto Mode.noConfusion (hf.stack Mode.noConfusion) hf.head_iff
  | noDoctype m hk =>
    refine ⟨hs.bears.within (hg.setMode m) (Tree.within_setMode _ m),
      fun _ => hs.noElement (Or.inl hk), fun h => Mode.noConfusion h, fun h => ?_⟩
    have hf := hs.fits h
    rw [hk] at hf
    exact hf.onto Mode.noConfusion (hf.stack Mode.noConfusion) hf.head_iff
  | openHtml hk he =>
    refine .ofBears (hs.bears.opened hg.root_lt) Mode.noConfusion Mode.noConfusion fun h => ?_
    have hf := hs.fits h
    rw [hk] at hf
    have hnil : k.entries = [] := hf.stack Mode.noConfusion
    refine hf.onto Mode.noConfusion ?_ hf.head_iff
    show Tree.Spells _ ["html"] (_ :: k.entries)
    rw [hnil]
    exact Tree.Spells.opened .nil he
  | @openHead place e hk hp he =>
    have hb := hs.opened_bears (e := e) (hs.current hp)
    refine .ofBears ⟨hb.grown, hb.element, hb.sorted, ?_, hb.form⟩ Mode.noConfusion
      Mode.noConfusion fun h => ?_
    · intro id hid
      cases hid
      exact Tree.isHtml_attach_new he
    · have hf := hs.fits h
      rw [hk] at hf
      have hstack : k.tree.Spells ["html"] k.entries := hf.stack Mode.noConfusion
      exact hf.onto Mode.noConfusion (hstack.opened he) ⟨fun _ => rfl, fun _ => rfl⟩
  | openNoscript hk hp he =>
    refine .ofBears (hs.opened_bears (hs.current hp)) Mode.noConfusion Mode.noConfusion fun h => ?_
    have hf := hs.fits h
    rw [hk] at hf
    have hstack : k.tree.Spells ["head", "html"] k.entries := hf.stack Mode.noConfusion
    exact hf.onto Mode.noConfusion (hstack.opened he) hf.head_iff
  | closeNoscript hk =>
    refine .ofBears (hs.bears.sublist (List.tail_sublist _)) Mode.noConfusion Mode.noConfusion
      fun h => ?_
    have hf := hs.fits h
    rw [hk] at hf
    have hstack : k.tree.Spells ["noscript", "head", "html"] k.entries := hf.stack Mode.noConfusion
    exact hf.onto Mode.noConfusion hstack.tail hf.head_iff
  | closeHead hk =>
    refine .ofBears (hs.bears.sublist (List.tail_sublist _)) Mode.noConfusion Mode.noConfusion
      fun h => ?_
    have hf := hs.fits h
    rw [hk] at hf
    have hstack : k.tree.Spells ["head", "html"] k.entries := hf.stack Mode.noConfusion
    exact hf.onto Mode.noConfusion hstack.tail hf.head_iff
  | openBody hk hp he =>
    refine .ofBears (hs.opened_bears (hs.current hp)) Mode.noConfusion Mode.noConfusion fun h => ?_
    have hf := hs.fits h
    rw [hk] at hf
    have hstack : k.tree.Spells ["html"] k.entries := hf.stack Mode.noConfusion
    refine hf.onto Mode.noConfusion ?_ hf.head_iff
    exact ⟨[], _, rfl, hstack.opened he, fun x hx => absurd hx List.not_mem_nil⟩
  | comment _ hp =>
    refine hs.append ?_
    rcases hp with hp | ⟨_, hp⟩ | ⟨_, hp⟩
    · exact Or.inl (hs.current hp)
    · exact Or.inl (hs.bears.element _ (List.mem_of_getLast? hp))
    · exact Or.inr ⟨hp, rfl⟩
  | text ch _ hp => exact hs.append (Or.inl (hs.current hp))
  | lengthen ch =>
    exact hs.modifyData rfl (NodeData.kind_lengthen ch) (NodeData.label?_lengthen ch) _
  | merge given =>
    exact hs.modifyData rfl (NodeData.kind_merge given) (NodeData.label?_merge given) _
  | leaf hp => exact hs.append (Or.inl (hs.takesElement hp))
  | @element place e _ hk hp he =>
    obtain ⟨ht, hi, hh, _⟩ := Mode.isBody_facts hk
    refine .ofBears (hs.opened_bears (hs.current hp)) hi hh fun h => ?_
    have hf := hs.fits h
    have hw := Tree.within_attach k.tree place (.element e)
    have hstack := (hf.bodyStack hk).within hw hs.bears.index_lt
    refine hf.onto ht ((Tree.stackOf_iff_of_isBody hk).mpr (hstack.push ?_)) hf.head_iff
    rw [Tree.isHtmlOneOf_attach_new, he]
  | textOnly hk hp he =>
    obtain ⟨ht, _, _, hhead⟩ := Mode.hostsText_facts hk
    refine .ofBears (hs.opened_bears (hs.takesElement hp)) Mode.noConfusion Mode.noConfusion
      fun h => ?_
    have hf := hs.fits h
    refine ⟨fun hne => absurd rfl hne, fun _ => ?_, ⟨fun _ => rfl, fun _ => rfl⟩, ?_⟩
    · refine ⟨_, _, _, rfl, rfl, hk, ?_, ?_⟩
      · exact (Tree.isHtmlOneOf_attach_new _ _ _ _).trans he
      · exact (hf.stack ht).within (Tree.within_attach _ _ _) hs.bears.index_lt
    · exact hf.head_iff.trans ⟨fun _ => rfl, fun _ => hhead⟩
  | leaveText hk ho hm =>
    obtain ⟨ht, hi, hh, hhead⟩ := Mode.hostsText_facts hm
    refine .ofBears (hs.bears.sublist (List.tail_sublist _)) hi hh fun h => ?_
    have hf := hs.fits h
    obtain ⟨id, outside, n, he, hn, _, _, hstack⟩ := hf.text hk
    cases ho.symm.trans hn
    refine .ofStack ?_ ?_
    · rw [he]
      exact hstack
    · rw [hk] at hf
      exact hf.head_iff.trans ⟨fun _ => hhead, fun _ => rfl⟩
  | drop inside hk he hi =>
    refine hs.cut hk ?_ ?_ <;> rw [he]
    · exact List.sublist_append_right _ _
    · exact fun hb => hb.drop fun id hid => Tree.isHtmlOneOf_subset (by decide) (hi id hid)
  | closeFormatting _ hk _ hn he hid =>
    have hout := Tree.isHtmlOneOf_eq_false hid (formattingNames_not_outer _ hn)
    refine hs.cut hk ?_ ?_ <;> rw [he]
    · exact List.sublist_cons_self _ _
    · exact fun hb => hb.pop hout
  | @closeSeal inside outside id name _ hk _ hn he hid _ =>
    have hout := Tree.isHtmlOneOf_eq_false hid (sealNames_not_outer _ hn)
    refine hs.cut hk ?_ ?_ <;> rw [he]
    · exact (List.sublist_cons_self _ _).trans (List.sublist_append_right _ _)
    · exact fun hb => (hb.drop (hb.inside hout)).pop hout
  | removeForm hk hid =>
    refine hs.cut hk List.erase_sublist fun hb => hb.erase ?_
    exact Tree.isHtmlOneOf_eq_false hid (by decide)
  | setForm hform =>
    exact ⟨⟨hg, hs.bears.element, hs.bears.sorted, hs.bears.head, hform⟩, hs.noElement,
      hs.noDoctype, hs.fits⟩
  | goto hk hm =>
    obtain ⟨_, hi, hh, hhead⟩ := Mode.isBody_facts hm
    obtain ⟨ht, _, _, hhead'⟩ := Mode.isBody_facts hk
    refine .ofBears hs.bears hi hh fun h => ?_
    have hf := hs.fits h
    refine hf.onto ht ((Tree.stackOf_iff_of_isBody hm).mpr (hf.bodyStack hk)) ?_
    exact hf.head_iff.trans ⟨fun _ => hhead, fun _ => hhead'⟩
  | stop _ hk =>
    obtain ⟨_, hi, hh, _⟩ := Mode.isBody_facts hk
    exact .ofBears (hs.bears.sublist (List.nil_sublist _)) hi hh fun h => Bool.noConfusion h

/-! ## every move keeps the open elements nested -/

theorem NodeData.merge_element (given : List TagAttribute) (e : Element) :
    merge given (.element e) = .element { e with attributes := e.attributes.union given } := rfl

/-- every move leaves the elements as they are, but for the attributes of HTML -/
theorem Move.retains (hm : Move byBody token k k') : k.tree.Retains k'.tree := by
  cases hm with
  | doctype d m =>
    have hr := Tree.retains_attach k.tree .root (.documentType d)
    exact ⟨hr.within.trans (Tree.within_setMode _ m), hr.elements⟩
  | noDoctype m => exact ⟨Tree.within_setMode _ m, (Tree.Retains.refl k.tree).elements⟩
  | openHtml | openHead | openNoscript | openBody | comment | text | leaf | element | textOnly =>
    exact Tree.retains_attach _ _ _
  | lengthen ch =>
    exact Tree.retains_modifyData (NodeData.kind_lengthen ch) (NodeData.label?_lengthen ch)
      fun e _ => ⟨e, rfl, .refl e⟩
  | merge given _ hone =>
    refine Tree.retains_modifyData (NodeData.kind_merge given) (NodeData.label?_merge given)
      fun e he => ⟨_, NodeData.merge_element given e, rfl, rfl, ?_⟩
    obtain ⟨f, hf, hn⟩ := Tree.elementSatisfies_iff.mp hone
    cases he.symm.trans hf
    exact fun hne => absurd (eq_of_beq (Bool.and_eq_true_iff.mp hn).1) hne
  | closeNoscript | closeHead | leaveText | drop | closeFormatting | closeSeal | removeForm
  | setForm | goto | stop =>
    exact Tree.Retains.refl _

/-- what is opened has room, and what is closed is closed from the inside but for forms -/
theorem Move.nested (hm : Move byBody token k k') (hs : k.Coherent)
    (hn : k.tree.Nested k.entries) : k'.tree.Nested k'.entries := by
  have hknown := hs.bears.index_lt
  have hkept := hn.retained hm.retains hknown
  cases hm with
  | doctype | noDoctype | comment | text | lengthen | merge | leaf | setForm | goto => exact hkept
  | openHtml _ _ hroom | openHead _ _ _ hroom | openNoscript _ _ _ hroom | openBody _ _ _ hroom =>
    exact hn.opened hknown hroom _
  | element _ _ _ _ hopens | textOnly _ _ _ hopens => exact hn.opened hknown hopens.room _
  | closeNoscript | closeHead | leaveText => exact hn.tail
  | drop inside _ he =>
    rw [he] at hn
    exact hn.drop
  | closeFormatting _ _ _ _ he =>
    rw [he] at hn
    exact hn.2
  | closeSeal _ _ _ _ he =>
    rw [he] at hn
    exact hn.drop.2
  | removeForm _ hid => exact hn.erase hid
  | stop => trivial

/-- **Every move keeps a sound core sound.** -/
theorem Move.sound (hm : Move byBody token k k') (hs : k.Sound) : k'.Sound :=
  ⟨hm.coherent hs.toCoherent, hm.nested hs.toCoherent hs.nested⟩

/-! ## what every move leaves as it is -/

theorem Move.options (hm : Move byBody token k k') : k'.options = k.options := by
  cases hm <;> rfl

/-- every move lets the document grow only -/
theorem Move.within (hm : Move byBody token k k') : k.tree.Within k'.tree := hm.retains.within

/-- what a token may do, another may do that goes on as this one, and the rules of the body may do
what any rules may -/
theorem Move.stands {t : Token} {b : Bool} (hb : b = true → byBody = true) (h : token.Stands t)
    (hm : Move b t k k') : Move byBody token k k' := by
  cases hm with
  | doctype d m hk => exact .doctype d m hk
  | noDoctype m hk => exact .noDoctype m hk
  | openHtml hk he hroom hmade => exact .openHtml hk he hroom (hmade.stands h)
  | openHead hk hp he hroom hmade => exact .openHead hk hp he hroom (hmade.stands h)
  | openNoscript hk hp he hroom hmade => exact .openNoscript hk hp he hroom (hmade.stands h)
  | closeNoscript hk => exact .closeNoscript hk
  | closeHead hk => exact .closeHead hk
  | openBody hk hp he hroom hmade => exact .openBody hk hp he hroom (hmade.stands h)
  | comment ht hp hk => exact .comment (h.eq_of_eq ht rfl) hp hk
  | text ch ht hp htext hlast =>
    exact .text ch (h.isCharacter ht) hp htext hlast
  | lengthen ch ht hp hl hk htext => exact .lengthen ch (h.isCharacter ht) hp hl hk htext
  | merge given hid hn hgives => exact .merge given hid hn (hgives.stands h hn)
  | leaf hp he hopens hmade => exact .leaf hp he hopens (hmade.stands h)
  | element hbody hk hp he hopens hmade hnames =>
    exact .element (hbody.imp_left hb) hk hp he hopens (hmade.stands h) hnames
  | textOnly hk hp he hopens hmade => exact .textOnly hk hp he hopens (hmade.stands h)
  | leaveText hk ho hm => exact .leaveText hk ho hm
  | drop inside hk he hin => exact .drop inside hk he hin
  | closeFormatting hbody hk ht hn he hid =>
    exact .closeFormatting (hb hbody) hk (h.eq_of_eq ht rfl) hn he hid
  | closeSeal hbody hk ht hn he hid hin =>
    exact .closeSeal (hb hbody) hk (h.eq_of_eq ht rfl) hn he hid hin
  | removeForm hk hid => exact .removeForm hk hid
  | setForm hf => exact .setForm hf
  | goto hk hm => exact .goto hk hm
  | stop ht hk => exact .stop (h.eq_of_eq ht rfl) hk

theorem Move.ofPlain (hm : Move false token k k') : Move byBody token k k' :=
  hm.stands (fun h => Bool.noConfusion h) (.refl token)

/-! ## any number of moves -/

/-- what a token may do to a core in any number of moves -/
def Moves (byBody : Bool) (token : Token) : Core → Core → Prop :=
  Relation.ReflTransGen (Move byBody token)

namespace Moves
variable {k'' : Core}

theorem refl (k : Core) : Moves byBody token k k := Relation.ReflTransGen.refl

theorem one (h : Move byBody token k k') : Moves byBody token k k' := Relation.ReflTransGen.single h

theorem trans (h : Moves byBody token k k') (h' : Moves byBody token k' k'') :
    Moves byBody token k k'' :=
  Relation.ReflTransGen.trans h h'

theorem sound (h : Moves byBody token k k') (hs : k.Sound) : k'.Sound := by
  induction h with
  | refl => exact hs
  | tail _ hm ih => exact hm.sound ih

theorem options (h : Moves byBody token k k') : k'.options = k.options := by
  induction h with
  | refl => rfl
  | tail _ hm ih => exact hm.options.trans ih

theorem within (h : Moves byBody token k k') : k.tree.Within k'.tree := by
  induction h with
  | refl => exact Tree.Within.refl _
  | tail _ hm ih => exact ih.trans hm.within

/-- what any rules may do the rules of the body may do too -/
theorem ofPlain (h : Moves false token k k') : Moves byBody token k k' :=
  Relation.ReflTransGen.mono (fun _ _ => Move.ofPlain) k k' h

end Moves

end HtmlTree
