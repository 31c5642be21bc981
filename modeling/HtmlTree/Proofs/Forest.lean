import HtmlTree.Proofs.Move

/-!
# Forests, written and shown

A forest is content apart from any document: comments, texts and HTML elements in their order, the
elements with a forest inside each.  It is written as tokens, and the nodes of a document may show it.

* `Forest.Plain`      texts can be told from each other, and no tag does more than open and close;
* `Forest.Written`    the tokens that a forest may be written as, `Plain.written` there always are some;
* `Attributes.union_written`   attributes come back from a tag in whatever order they stand there;
* `Tree.Shows`        the children of a node are this forest, `Shows.unique` and no other;
* `Tree.Gains`        a tree with more children at one node, `Shows.gains` what that leaves.
-/

namespace HtmlTree

inductive Forest where
  | nil
  | comment (data : String) (rest : Forest)
  | text (data : String) (rest : Forest)
  | element (name : String) (attributes : Attributes) (children rest : Forest)
  deriving DecidableEq

/-! ## plain forests -/

/-- elements that may hold anything: blocks other than paragraphs, formatting elements other than
anchors and `nobr`, and what start and end tags have no rule of their own for.  Where scripts do not
run, `noscript` has none either. -/
def HoldsContent (name : String) : Prop :=
  name ∈ blockNames ∧ name ≠ "p" ∨
    name ∈ formattingNames ∧ name ∉ ["a", "nobr"] ∨
    BodyStart.ofName name ∈ [.noscript, .other] ∧ BodyEnd.ofName name = .other

instance (name : String) : Decidable (HoldsContent name) := by
  unfold HoldsContent
  infer_instance

namespace Forest

def startsWithText : Forest → Bool
  | text _ _ => true
  | _ => false

def append : Forest → Forest → Forest
  | nil, G => G
  | comment data rest, G => comment data (rest.append G)
  | text data rest, G => text data (rest.append G)
  | element name attributes children rest, G => element name attributes children (rest.append G)

/-- texts are not empty, without U+0000 and not next to each other; void elements have no children -/
def Plain : Forest → Prop
  | nil => True
  | comment _ rest => rest.Plain
  | text data rest =>
    data ≠ "" ∧ '\x00' ∉ data.toList ∧ rest.startsWithText = false ∧ rest.Plain
  | element name _ children rest =>
    (name ∈ voidNames ∧ children = nil ∨ HoldsContent name ∧ children.Plain) ∧ rest.Plain

def decidePlain : (F : Forest) → Decidable F.Plain
  | nil => inferInstanceAs (Decidable True)
  | comment _ rest => rest.decidePlain
  | text data rest =>
    have := rest.decidePlain
    inferInstanceAs (Decidable
      (data ≠ "" ∧ '\x00' ∉ data.toList ∧ rest.startsWithText = false ∧ rest.Plain))
  | element name _ children rest =>
    have := children.decidePlain
    have := rest.decidePlain
    inferInstanceAs (Decidable
      ((name ∈ voidNames ∧ children = nil ∨ HoldsContent name ∧ children.Plain) ∧ rest.Plain))

instance (F : Forest) : Decidable F.Plain := F.decidePlain

end Forest

/-! ## written forests -/

/-- the attributes as a tag has them, in the order of their names -/
def Attributes.written (a : Attributes) : List TagAttribute :=
  a.entries.map fun e => ⟨e.1, e.2⟩

namespace Forest

/-- a forest may be written so: attributes in any order, an end tag for each element but the void ones,
which may be self-closing -/
inductive Written : Forest → List Token → Prop
  | nil : Written nil []
  | comment (data : String) {rest : Forest} {tokens : List Token} : Written rest tokens →
      Written (comment data rest) (.comment data :: tokens)
  | text (data : String) {rest : Forest} {tokens : List Token} : Written rest tokens →
      Written (text data rest) (Token.characters data ++ tokens)
  | void {name : String} {attributes : Attributes} {given : List TagAttribute} (selfClosing : Bool)
      {rest : Forest} {tokens : List Token} : name ∈ voidNames → given.Perm attributes.written →
      Written rest tokens →
      Written (element name attributes nil rest) (.startTag ⟨name, selfClosing, given⟩ :: tokens)
  | element {name : String} {attributes : Attributes} {given : List TagAttribute}
      {children rest : Forest} {inner tokens : List Token} : name ∉ voidNames →
      given.Perm attributes.written → Written children inner → Written rest tokens →
      Written (element name attributes children rest)
        (.startTag ⟨name, false, given⟩ :: (inner ++ .endTag name :: tokens))

/-- one of the ways, with the attributes in the order of their names -/
def tokens : Forest → List Token
  | nil => []
  | comment data rest => .comment data :: rest.tokens
  | text data rest => Token.characters data ++ rest.tokens
  | element name attributes children rest =>
    .startTag ⟨name, false, attributes.written⟩ ::
      if name ∈ voidNames then rest.tokens
      else children.tokens ++ .endTag name :: rest.tokens

theorem Plain.written {F : Forest} (h : F.Plain) : F.Written F.tokens := by
  induction F with
  | nil => exact .nil
  | comment data rest ih => exact .comment data (ih h)
  | text data rest ih => exact .text data (ih h.2.2.2)
  | element name attributes children rest ihc ihr =>
    unfold tokens
    by_cases hn : name ∈ voidNames
    · have hno : ∀ n ∈ voidNames, ¬HoldsContent n := by decide
      obtain ⟨_, rfl⟩ := h.1.resolve_right fun hc => hno name hn hc.1
      rw [if_pos hn]
      exact .void false hn (.refl _) (ihr h.2)
    · obtain ⟨_, hchildren⟩ := h.1.resolve_left fun hv => hn hv.1
      rw [if_neg hn]
      exact .element hn (.refl _) (ihc hchildren) (ihr h.2)

end Forest

namespace Attributes
variable {keep : String → String → String} {name value : String}

theorem place_perm {entries : List (String × String)} (h : ∀ e ∈ entries, e.1 ≠ name) :
    (place keep name value entries).Perm ((name, value) :: entries) := by
  induction entries with
  | nil => exact .refl _
  | cons d r ih =>
    unfold place
    split
    · exact .refl _
    · rw [if_neg (Ne.symm (h d List.mem_cons_self))]
      exact ((ih fun e he => h e (List.mem_cons_of_mem _ he)).cons d).trans (.swap _ _ _)

theorem union_perm (given : List TagAttribute) (a : Attributes)
    (hnodup : (given.map (·.name)).Nodup) (hnew : ∀ g ∈ given, ∀ e ∈ a.entries, e.1 ≠ g.name) :
    (a.union given).entries.Perm (given.map (fun g => (g.name, g.value)) ++ a.entries) := by
  induction given generalizing a with
  | nil => exact .refl _
  | cons g given ih =>
    obtain ⟨hg, hnodup⟩ := List.nodup_cons.mp hnodup
    have hplace : (a.insertIfNew g.name g.value).entries.Perm ((g.name, g.value) :: a.entries) :=
      place_perm fun e he => hnew g List.mem_cons_self e he
    have hrest := ih (a.insertIfNew g.name g.value) hnodup fun f hf e he => by
      rcases List.mem_cons.mp (hplace.mem_iff.mp he) with rfl | he
      · exact fun heq => hg (List.mem_map.mpr ⟨f, hf, heq.symm⟩)
      · exact hnew f (List.mem_cons_of_mem _ hf) e he
    exact hrest.trans ((hplace.append_left _).trans List.perm_middle)

/-- **Attributes come back from a tag**, in whatever order they stand there. -/
theorem union_written {a : Attributes} {given : List TagAttribute} (h : given.Perm a.written) :
    Attributes.empty.union given = a := by
  have hnames : (given.map (·.name)).Nodup := by
    rw [(h.map _).nodup_iff, written, List.map_map, List.nodup_iff_pairwise_ne, List.pairwise_map]
    refine List.Pairwise.imp (fun {x y} hlt (he : x.1 = y.1) => ?_) a.increasing
    exact String.lt_irrefl y.1 (he ▸ hlt)
  have hback : a.written.map (fun g => (g.name, g.value)) = a.entries := by
    rw [written, List.map_map]
    exact List.map_id _
  have hperm := union_perm given .empty hnames fun _ _ e he => absurd he List.not_mem_nil
  rw [show Attributes.empty.entries = [] from rfl, List.append_nil] at hperm
  have hall := hperm.trans (h.map _)
  rw [hback] at hall
  refine ext_entries (hall.eq_of_pairwise (fun x y _ _ hxy hyx => ?_) (increasing _) a.increasing)
  exact absurd (String.lt_trans hxy hyx) (String.lt_irrefl _)

end Attributes

/-! ## shown forests -/

namespace Tree

/-- these nodes, children of `parent`, are this forest, and nothing else is in them -/
inductive Shows (t : Tree) : NodeId → List NodeId → Forest → Prop
  | nil (parent : NodeId) : t.Shows parent [] .nil
  | comment {parent id : NodeId} {ids : List NodeId} {data : String} {rest : Forest} :
      t.get? id = some ⟨.comment ⟨data⟩, some parent, []⟩ → t.Shows parent ids rest →
      t.Shows parent (id :: ids) (.comment data rest)
  | text {parent id : NodeId} {ids : List NodeId} {data : String} {rest : Forest} :
      t.get? id = some ⟨.text ⟨data⟩, some parent, []⟩ → t.Shows parent ids rest →
      t.Shows parent (id :: ids) (.text data rest)
  | element {parent id : NodeId} {ids inner : List NodeId} {name : String}
      {attributes : Attributes} {children rest : Forest} :
      t.get? id = some ⟨.element ⟨name, .html, attributes⟩, some parent, inner⟩ →
      t.Shows id inner children → t.Shows parent ids rest →
      t.Shows parent (id :: ids) (.element name attributes children rest)

variable {t u v : Tree} {place parent id : NodeId} {ids more : List NodeId} {F G : Forest}

/-- nodes show one forest only -/
theorem Shows.unique (h : t.Shows parent ids F) (h' : t.Shows parent ids G) : F = G := by
  induction h generalizing G with
  | nil => cases h'; rfl
  | comment hid _ ih =>
    cases h' with
    | comment hid' hrest =>
      cases hid.symm.trans hid'
      rw [ih hrest]
    | text hid' => cases hid.symm.trans hid'
    | element hid' => cases hid.symm.trans hid'
  | text hid _ ih =>
    cases h' with
    | text hid' hrest =>
      cases hid.symm.trans hid'
      rw [ih hrest]
    | comment hid' => cases hid.symm.trans hid'
    | element hid' => cases hid.symm.trans hid'
  | element hid _ _ ihc ihr =>
    cases h' with
    | element hid' hchildren hrest =>
      cases hid.symm.trans hid'
      rw [ihc hchildren, ihr hrest]
    | comment hid' => cases hid.symm.trans hid'
    | text hid' => cases hid.symm.trans hid'

theorem Shows.append (h : t.Shows parent ids F) (h' : t.Shows parent more G) :
    t.Shows parent (ids ++ more) (F.append G) := by
  induction h with
  | nil => exact h'
  | comment hid _ ih => exact .comment hid (ih h')
  | text hid _ ih => exact .text hid (ih h')
  | element hid hchildren _ _ ih => exact .element hid hchildren (ih h')

/-! ### more children at one node -/

/-- all nodes are as before, but for new children at the end of those of `place` -/
structure Gains (t u : Tree) (place : NodeId) (new : List NodeId) : Prop where
  old : ∀ id, id.index < t.size → u.get? id = (t.get? id).map fun n =>
    { n with children := if id = place then n.children ++ new else n.children }
  fresh : ∀ id ∈ new, t.size ≤ id.index

namespace Gains

theorem refl (t : Tree) (place : NodeId) : t.Gains t place [] where
  old := fun id _ => by
    cases t.get? id with
    | none => rfl
    | some n => rw [Option.map_some, List.append_nil, ite_self]
  fresh := nofun

theorem attach (t : Tree) (place : NodeId) (d : NodeData) :
    t.Gains (t.attach place d) place [⟨t.size⟩] where
  old := fun _ hid => get?_attach_old hid
  fresh := fun _ hid => Nat.le_of_eq (congrArg NodeId.index (List.mem_singleton.mp hid).symm)

theorem within (h : t.Gains u place ids) : t.Within u := fun id n hn => by
  rw [h.old id (index_lt_of_get? hn), hn]
  exact ⟨_, rfl, rfl, rfl, rfl⟩

/-- all other nodes stay -/
theorem get?_of_ne (h : t.Gains u place ids) (hid : id.index < t.size) (hne : id ≠ place) :
    u.get? id = t.get? id := by
  rw [h.old id hid]
  cases t.get? id with
  | none => rfl
  | some n => rw [Option.map_some, if_neg hne]

theorem get?_place (h : t.Gains u place ids) {n : Node} (hn : t.get? place = some n) :
    u.get? place = some { n with children := n.children ++ ids } := by
  rw [h.old place (index_lt_of_get? hn), hn, Option.map_some, if_pos rfl]

theorem trans (h : t.Gains u place ids) (h' : u.Gains v place more) :
    t.Gains v place (ids ++ more) where
  old := fun id hid => by
    rw [h'.old id (Nat.lt_of_lt_of_le hid h.within.size_le), h.old id hid, Option.map_map]
    refine congrArg (fun f => (t.get? id).map f) (funext fun n => ?_)
    by_cases he : id = place
    · simp only [Function.comp, if_pos he, List.append_assoc]
    · simp only [Function.comp, if_neg he]
  fresh := fun id hid => by
    rcases List.mem_append.mp hid with hid | hid
    · exact h.fresh id hid
    · exact Nat.le_trans h.within.size_le (h'.fresh id hid)

/-- what happens inside a node that has just come does not show among the older ones -/
theorem inside {x : NodeId} (h : t.Gains u place ids) (hx : t.size ≤ x.index)
    (h' : u.Gains v x more) : t.Gains v place ids where
  old := fun id hid => by
    have hne : id ≠ x := fun e => by
      rw [e] at hid
      exact absurd hid (Nat.not_lt.mpr hx)
    rw [h'.get?_of_ne (Nat.lt_of_lt_of_le hid h.within.size_le) hne, h.old id hid]
  fresh := h.fresh

/-- nor does it show there when such a node is changed -/
theorem modifyData {x : NodeId} (h : t.Gains u place ids) (hx : t.size ≤ x.index)
    (f : NodeData → NodeData) : t.Gains (u.modifyData x f) place ids where
  old := fun id hid => by
    have hne : id ≠ x := fun e => by
      rw [e] at hid
      exact absurd hid (Nat.not_lt.mpr hx)
    rw [← h.old id hid]
    exact get?_modify_ne u _ hne
  fresh := h.fresh

/-- a node that came last is the last child -/
theorem lastChild? {x : NodeId} (h : t.Gains u place [x]) (hp : place.index < t.size) :
    u.lastChild? place = some x := by
  obtain ⟨n, hn⟩ := exists_get?_of_lt hp
  unfold Tree.lastChild?
  rw [children_of_get? (h.get?_place hn)]
  exact List.getLast?_concat

end Gains

/-- a forest is still shown when a node gains children that is not in it -/
theorem Shows.gains (hg : t.Grown) (h : t.Gains u place more) (hs : t.Shows parent ids F)
    (hp : place.index ≤ parent.index) : u.Shows parent ids F := by
  have hkept : ∀ {parent id : NodeId} {d : NodeData} {inner : List NodeId},
      place.index ≤ parent.index → t.get? id = some ⟨d, some parent, inner⟩ →
      place.index < id.index ∧ u.get? id = some ⟨d, some parent, inner⟩ := fun hp hid => by
    have hlt := Nat.lt_of_le_of_lt hp (hg.parent_lt _ _ (parent?_of_get? hid))
    refine ⟨hlt, ?_⟩
    rw [h.get?_of_ne (index_lt_of_get? hid) fun e => Nat.lt_irrefl _ (e ▸ hlt), hid]
  induction hs with
  | nil => exact .nil _
  | comment hid _ ih => exact .comment (hkept hp hid).2 (ih hp)
  | text hid _ ih => exact .text (hkept hp hid).2 (ih hp)
  | element hid _ _ ihc ihr =>
    obtain ⟨hlt, hid'⟩ := hkept hp hid
    exact .element hid' (ihc (Nat.le_of_lt hlt)) (ihr hp)

end Tree

end HtmlTree
