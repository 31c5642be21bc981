import HtmlTree.Proofs.Descent
import HtmlTree.Proofs.Move
import Mathlib.Data.List.Find

/-!
# Planted trees

A document under construction is planted in its root: every node hangs from it, and the children of
a node stand in the order in which they were made.  What a move does to the document is one of four
steps of growth.  They leave every node in its place, and what it holds as it was, apart from a text
at the end of its parent and from the attributes of the `html` and the `body` element.

* `Tree.Planted`     parents and child lists agree, nothing is detached, children stand in order;
* `Planted.inOrder`  what this says about the whole tree;
* `Planted.attach`, `Planted.modifyData`   new nodes are planted, too;
* `Tree.Growth`      the four steps;
* `Tree.GrowsTo`     what is left of a tree in a later one, `Growth.growsTo`, `GrowsTo.trans`.
-/

namespace HtmlTree

namespace Tree

structure Planted (t : Tree) : Prop where
  grown : t.Grown
  attached : ∀ id, id.index < t.size → id ≠ .root → (t.parent? id).isSome = true
  listed : ∀ c p, t.parent? c = some p → c ∈ t.children p
  increasing : ∀ p, (t.children p).Pairwise fun a b => a.index < b.index

variable {t u v : Tree} {place parent id c p : NodeId} {d : NodeData} {n : Node}

/-! ## grown trees -/

theorem Grown.parent?_of_mem (h : t.Grown) (hc : c ∈ t.children p) : t.parent? c = some p := by
  obtain ⟨n, hn, hmem⟩ := get?_of_mem_children hc
  exact h.parent_child p n c hn hmem

theorem Grown.child_lt (h : t.Grown) (hc : c ∈ t.children p) : c.index < t.size :=
  index_lt_of_parent? (h.parent?_of_mem hc)

theorem Grown.parentsKnown (h : t.Grown) : t.ParentsKnown := fun c p hp =>
  Nat.lt_trans (h.parent_lt c p hp) (index_lt_of_parent? hp)

/-- an ancestor is older -/
theorem Grown.acyclic (h : t.Grown) : t.Acyclic := by
  have older : ∀ x y, Relation.TransGen t.ChildOf x y → y.index < x.index := by
    intro x y hxy
    induction hxy with
    | single hp => exact h.parent_lt _ _ hp
    | tail _ hp ih => exact Nat.lt_trans (h.parent_lt _ _ hp) ih
  exact fun id hid => Nat.lt_irrefl _ (older id id hid)

/-! ## what planted trees look like -/

/-- the order of a document: every node descends from the root, children are younger than their
parent, and each is younger than those before it -/
structure InOrder (t : Tree) : Prop where
  attached : ∀ id, id.index < t.size → id ≠ .root →
    ∃ p, t.parent? id = some p ∧ id ∈ t.children p
  descends : ∀ id, id.index < t.size → t.isInclusiveAncestor .root id = true
  younger : ∀ p c, c ∈ t.children p → p.index < c.index
  increasing : ∀ p, (t.children p).Pairwise fun a b => a.index < b.index

namespace Planted

theorem reaches_root (h : t.Planted) (n : Nat) :
    ∀ id, id.index = n → id.index < t.size → Relation.ReflTransGen t.ChildOf id .root := by
  -- on the index, which a parent has smaller
  induction n using Nat.strongRecOn with
  | ind n ih =>
    rintro id rfl hlt
    by_cases hid : id = .root
    · rw [hid]
    · obtain ⟨p, hp⟩ := Option.isSome_iff_exists.mp (h.attached id hlt hid)
      have holder := h.grown.parent_lt id p hp
      exact .head hp (ih p.index holder p rfl (Nat.lt_trans holder hlt))

theorem inOrder (h : t.Planted) : t.InOrder where
  attached := fun id hlt hid => by
    obtain ⟨p, hp⟩ := Option.isSome_iff_exists.mp (h.attached id hlt hid)
    exact ⟨p, hp, h.listed id p hp⟩
  descends := fun id hlt =>
    (isInclusiveAncestor_iff h.grown.acyclic h.grown.parentsKnown).mpr
      (h.reaches_root id.index id rfl hlt)
  younger := fun p c hc => h.grown.parent_lt c p (h.grown.parent?_of_mem hc)
  increasing := h.increasing

theorem nodup (h : t.Planted) (p : NodeId) : (t.children p).Nodup := by
  refine (h.increasing p).imp ?_
  rintro a b hab rfl
  exact Nat.lt_irrefl _ hab

theorem new : Tree.new.Planted where
  grown := grown_new
  attached := by
    rintro ⟨_ | i⟩ hlt hid
    · exact absurd rfl hid
    · exact absurd hlt (Nat.not_lt.mpr (Nat.le_add_left 1 i))
  listed := by
    rintro ⟨_ | i⟩ p hp <;> cases hp
  increasing := by
    rintro ⟨_ | i⟩ <;> exact List.Pairwise.nil

end Planted

/-! ## steps of growth -/

/-- the new node is the last child -/
theorem children_attach (hp : place.index < t.size) (d : NodeData) (id : NodeId) :
    (t.attach place d).children id =
      t.children id ++ if id = place then [⟨t.size⟩] else [] := by
  rw [children_eq, children_eq, get?_attach]
  by_cases hid : id = place
  · rw [hid, if_neg (by omega), if_pos rfl, if_pos rfl]
    obtain ⟨n, hn⟩ := exists_get?_of_lt hp
    rw [hn]
    rfl
  · rw [if_neg hid, if_neg hid, List.append_nil]
    split
    · rw [get?_eq_none_iff.mpr (by omega)]
      rfl
    · rfl

theorem Planted.attach (h : t.Planted) (hp : place.index < t.size) (d : NodeData) :
    (t.attach place d).Planted where
  grown := h.grown.attach hp
  attached := fun id hlt hid => by
    rw [size_attach] at hlt
    by_cases hnew : id.index = t.size
    · rw [show id = ⟨t.size⟩ from NodeId.ext_index hnew, parent?_attach_new]
      rfl
    · have hold : id.index < t.size := by omega
      rw [parent?_attach hold]
      exact h.attached id hold hid
  listed := fun c p hc => by
    have hlt := index_lt_of_parent? hc
    rw [size_attach] at hlt
    rw [children_attach hp]
    by_cases hnew : c.index = t.size
    · have hcnew : c = ⟨t.size⟩ := NodeId.ext_index hnew
      rw [hcnew, parent?_attach_new] at hc
      cases hc
      rw [if_pos rfl, hcnew]
      exact List.mem_append_right _ List.mem_cons_self
    · rw [parent?_attach (by omega)] at hc
      exact List.mem_append_left _ (h.listed c p hc)
  increasing := fun p => by
    rw [children_attach hp]
    refine List.pairwise_append.mpr ⟨h.increasing p, ?_, fun a ha b hb => ?_⟩
    · split
      · exact List.pairwise_singleton _ _
      · exact List.Pairwise.nil
    · split at hb
      · rw [List.mem_singleton.mp hb]
        exact h.grown.child_lt ha
      · cases hb

theorem size_modifyData (t : Tree) (id : NodeId) (f : NodeData → NodeData) :
    (t.modifyData id f).size = t.size := size_modify t id _

theorem Planted.modifyData (h : t.Planted) {f : NodeData → NodeData} (hf : f .document = .document)
    (id : NodeId) : (t.modifyData id f).Planted where
  grown := h.grown.modifyData hf
  attached := fun other hlt hid => by
    rw [size_modifyData] at hlt
    rw [parent?_modifyData]
    exact h.attached other hlt hid
  listed := fun c p hc => by
    rw [parent?_modifyData] at hc
    rw [children_modifyData]
    exact h.listed c p hc
  increasing := fun p => by
    rw [children_modifyData]
    exact h.increasing p

theorem Planted.setMode (h : t.Planted) (m : DocumentMode) : (t.setMode m).Planted :=
  ⟨h.grown.setMode m, h.attached, h.listed, h.increasing⟩

def htmlElement? (t : Tree) : Option NodeId := (t.children .root).find? (t.isHtml "html")

def bodyElement? (t : Tree) : Option NodeId :=
  t.htmlElement?.bind fun html => (t.children html).find? (t.isHtml "body")

/-- what a move may do to the document -/
inductive Growth (t : Tree) : Tree → Prop
  | keep (m : DocumentMode) : Growth t (t.setMode m)
  | attach {place : NodeId} (d : NodeData) (m : DocumentMode) : place.index < t.size →
      Growth t ((t.attach place d).setMode m)
  /-- only the text at the end of its parent -/
  | lengthen {parent id : NodeId} (ch : Char) : t.lastChild? parent = some id →
      t.isKind .text id = true → Growth t (t.modifyData id (.lengthen ch))
  /-- only the `html` element and the `body` element -/
  | merge {id : NodeId} (given : List TagAttribute) :
      t.htmlElement? = some id ∨ t.bodyElement? = some id →
      Growth t (t.modifyData id (.merge given))

/-! ## what is left of a tree -/

/-- what may become of what a node holds: comments and doctypes stay as they are, a text may become
longer where it was the last child, and the two elements may gain attributes -/
inductive Keeps (t u : Tree) (id : NodeId) : NodeData → NodeData → Prop
  | same (d : NodeData) : Keeps t u id d d
  | longer {d : CharacterData} (more : String) {p : NodeId} : t.parent? id = some p →
      t.lastChild? p = some id → Keeps t u id (.text d) (.text ⟨d.data ++ more⟩)
  | richer {e e' : Element} : e'.ns = e.ns → e'.localName = e.localName →
      (∀ name value, e.attributes.get? name = some value →
        e'.attributes.get? name = some value) →
      u.htmlElement? = some id ∨ u.bodyElement? = some id → Keeps t u id (.element e) (.element e')

/-- every node of `t` is in `u`, with the same parent, its children still the first ones, and what
it held still there -/
def GrowsTo (t u : Tree) : Prop :=
  ∀ id n, t.get? id = some n → ∃ m, u.get? id = some m ∧ m.parent = n.parent ∧
    n.children <+: m.children ∧ t.Keeps u id n.data m.data

theorem Keeps.label? {d' : NodeData} (h : t.Keeps u id d d') : d'.label? = d.label? := by
  cases h with
  | same => rfl
  | longer => rfl
  | richer hns hname =>
    unfold NodeData.label?
    simp only [NodeData.element?, Option.map_some, hns, hname]

theorem GrowsTo.refl (t : Tree) : t.GrowsTo t := fun _ n hn =>
  ⟨n, hn, rfl, List.prefix_refl _, .same _⟩

theorem GrowsTo.parent? (h : t.GrowsTo u) (hid : id.index < t.size) :
    u.parent? id = t.parent? id := by
  obtain ⟨n, hn⟩ := exists_get?_of_lt hid
  obtain ⟨m, hm, hp, _⟩ := h id n hn
  rw [parent?_of_get? hn, parent?_of_get? hm, hp]

theorem GrowsTo.children (h : t.GrowsTo u) (id : NodeId) : t.children id <+: u.children id := by
  cases hn : t.get? id with
  | none =>
    rw [children_eq, hn]
    exact List.nil_prefix
  | some n =>
    obtain ⟨m, hm, _, hc, _⟩ := h id n hn
    rw [children_of_get? hn, children_of_get? hm]
    exact hc

theorem GrowsTo.label? (h : t.GrowsTo u) (hid : id.index < t.size) : u.label? id = t.label? id := by
  obtain ⟨n, hn⟩ := exists_get?_of_lt hid
  obtain ⟨m, hm, _, _, hd⟩ := h id n hn
  rw [label?_eq, label?_eq, hm, hn]
  exact hd.label?

/-- the first child of a name stays the first one -/
theorem GrowsTo.find? (h : t.GrowsTo u) (ht : t.Grown) {name : String}
    (hf : (t.children p).find? (t.isHtml name) = some id) :
    (u.children p).find? (u.isHtml name) = some id := by
  refine (h.children p).find?_eq_some ?_
  rw [← hf]
  exact List.find?_congr fun c hc => isHtml_congr (h.label? (ht.child_lt hc)) name

theorem GrowsTo.htmlElement? (h : t.GrowsTo u) (ht : t.Grown) (hid : t.htmlElement? = some id) :
    u.htmlElement? = some id := h.find? ht hid

theorem GrowsTo.bodyElement? (h : t.GrowsTo u) (ht : t.Grown) (hid : t.bodyElement? = some id) :
    u.bodyElement? = some id := by
  obtain ⟨html, hhtml, hbody⟩ := Option.bind_eq_some_iff.mp hid
  exact Option.bind_eq_some_iff.mpr ⟨html, h.htmlElement? ht hhtml, h.find? ht hbody⟩

/-- what stood last in a longer list stood last before, if it was there -/
theorem getLast?_of_initial {old new : List NodeId} (hpre : old <+: new) (hnd : new.Nodup)
    (hlast : new.getLast? = some id) (hid : id ∈ old) : old.getLast? = some id := by
  obtain ⟨added, rfl⟩ := hpre
  by_cases hnil : added = []
  · rwa [hnil, List.append_nil] at hlast
  · rw [List.getLast?_append_of_ne_nil old hnil] at hlast
    exact absurd rfl ((List.nodup_append.mp hnd).2.2 id hid id (List.mem_of_getLast? hlast))

theorem Keeps.trans {d₁ d₂ d₃ : NodeData} (ht : t.Planted) (hu : u.Planted) (htu : t.GrowsTo u)
    (huv : u.GrowsTo v) (hid : id.index < t.size) (h : t.Keeps u id d₁ d₂)
    (h' : u.Keeps v id d₂ d₃) : t.Keeps v id d₁ d₃ := by
  have hel : u.htmlElement? = some id ∨ u.bodyElement? = some id →
      v.htmlElement? = some id ∨ v.bodyElement? = some id :=
    Or.imp (huv.htmlElement? hu.grown) (huv.bodyElement? hu.grown)
  cases h with
  | same =>
    cases h' with
    | same => exact .same _
    | longer more hp hlast =>
      -- the last child of now was the last one then, as it was there already
      rw [htu.parent? hid] at hp
      exact .longer more hp
        (getLast?_of_initial (htu.children _) (hu.nodup _) hlast (ht.listed _ _ hp))
    | richer hns hname hkept hone => exact .richer hns hname hkept hone
  | @longer d more _ hp hlast =>
    cases h' with
    | same => exact .longer more hp hlast
    | longer more' _ _ =>
      have hdata : d.data ++ more ++ more' = d.data ++ (more ++ more') := String.append_assoc
      dsimp only
      rw [hdata]
      exact .longer _ hp hlast
  | richer hns hname hkept hone =>
    cases h' with
    | same => exact .richer hns hname hkept (hel hone)
    | richer hns' hname' hkept' hone' =>
      exact .richer (hns'.trans hns) (hname'.trans hname)
        (fun name value hv => hkept' name value (hkept name value hv)) hone'

theorem GrowsTo.trans (ht : t.Planted) (hu : u.Planted) (h : t.GrowsTo u) (h' : u.GrowsTo v) :
    t.GrowsTo v := by
  intro id n hn
  obtain ⟨m, hm, hp, hc, hd⟩ := h id n hn
  obtain ⟨m', hm', hp', hc', hd'⟩ := h' id m hm
  exact ⟨m', hm', hp'.trans hp, hc.trans hc', hd.trans ht hu h h' (index_lt_of_get? hn) hd'⟩

/-! ### one step of growth -/

theorem isHtml_modifyData {f : NodeData → NodeData} (hl : ∀ d, (f d).label? = d.label?)
    (t : Tree) (id : NodeId) (name : String) :
    (t.modifyData id f).isHtml name = t.isHtml name := by
  funext other
  refine isHtml_congr ?_ name
  rw [label?_eq, label?_eq]
  unfold modifyData
  rw [get?_modify]
  split
  · cases t.get? other with
    | none => rfl
    | some n => exact hl n.data
  · rfl

theorem htmlElement?_modifyData {f : NodeData → NodeData} (hl : ∀ d, (f d).label? = d.label?)
    (t : Tree) (id : NodeId) : (t.modifyData id f).htmlElement? = t.htmlElement? := by
  unfold htmlElement?
  rw [children_modifyData, isHtml_modifyData hl]

theorem bodyElement?_modifyData {f : NodeData → NodeData} (hl : ∀ d, (f d).label? = d.label?)
    (t : Tree) (id : NodeId) : (t.modifyData id f).bodyElement? = t.bodyElement? := by
  unfold bodyElement?
  rw [htmlElement?_modifyData hl, isHtml_modifyData hl]
  simp only [children_modifyData]

theorem growsTo_modifyData {f : NodeData → NodeData}
    (h : ∀ n, t.get? id = some n → t.Keeps (t.modifyData id f) id n.data (f n.data)) :
    t.GrowsTo (t.modifyData id f) := by
  intro other n hn
  unfold Tree.modifyData
  rw [get?_modify, hn]
  split
  · rename_i hid
    rw [hid] at hn ⊢
    exact ⟨_, rfl, rfl, List.prefix_refl _, h n hn⟩
  · exact ⟨n, rfl, rfl, List.prefix_refl _, .same _⟩

end Tree

/-- merging leaves every attribute that is there -/
theorem Attributes.get?_union {a : Attributes} {name value : String}
    (h : a.get? name = some value) (given : List TagAttribute) :
    (a.union given).get? name = some value := by
  induction given generalizing a with
  | nil => exact h
  | cons g given ih =>
    refine ih (a := a.insertIfNew g.name g.value) ?_
    by_cases hn : name = g.name
    · rw [hn] at h ⊢
      rw [get?_insertIfNew_self, h]
      rfl
    · rw [get?_insertIfNew_ne a hn, h]

namespace Tree
variable {t u : Tree}

theorem Growth.growsTo (hg : t.Growth u) (h : t.Planted) : t.GrowsTo u := by
  cases hg with
  | keep m => exact fun id n hn => ⟨n, hn, rfl, List.prefix_refl _, .same _⟩
  | @attach place d m hp =>
    intro id n hn
    refine ⟨{ n with children := if id = place then n.children ++ [⟨t.size⟩] else n.children }, ?_,
      rfl, ?_, .same _⟩
    · show (t.attach place d).get? id = _
      rw [get?_attach_old (index_lt_of_get? hn), hn]
      rfl
    · dsimp only
      split
      · exact List.prefix_append _ _
      · exact List.prefix_refl _
  | @lengthen parent id ch hlast hkind =>
    refine growsTo_modifyData fun n hn => ?_
    have hpar := h.grown.parent?_of_mem (List.mem_of_getLast? hlast)
    rw [isKind_of_get? hn] at hkind
    unfold Node.kind at hkind
    cases hd : n.data with
    | text d => exact .longer (String.singleton ch) hpar hlast
    | _ =>
      rw [hd] at hkind
      cases hkind
  | @merge id given hone =>
    refine growsTo_modifyData fun n hn => ?_
    have hl := NodeData.label?_merge given
    cases hd : n.data with
    | element e =>
      refine .richer rfl rfl (fun name value hv => Attributes.get?_union hv given) ?_
      rwa [htmlElement?_modifyData hl, bodyElement?_modifyData hl]
    | _ => exact .same _

end Tree

end HtmlTree
