import HtmlTree.Proofs.Rounds

/-!
# Active entries

The entries of a list of active formatting elements are formatting elements and markers; a marker
is set by an element that seals off.  Both are looked for here on the stack of open elements.  A
move opens such an element only where it inserts it, and closes one only for an end tag of its own.

* `ActiveEntry`, `Tree.activeEntries`   the entries, and those of a stack;
* `Tree.insertedEntries`   those of the nodes by which a document has grown;
* `Token.closesActive`     the end tags that may close a formatting element or one that seals off;
* `Moves.addsOnly`         with all other tokens what is inserted is opened, and nothing closed;
* `Moves.active_plain`     without the rules of the body nothing of that kind is inserted either.
-/

namespace HtmlTree

/-- an entry of a list of active formatting elements -/
inductive ActiveEntry where
  | marker (sealing : NodeId)
  | element (id : NodeId)
  deriving DecidableEq

namespace Tree

/-- the entry that an element makes -/
def activeOf? (t : Tree) (id : NodeId) : Option ActiveEntry :=
  if t.isHtmlOneOf formattingNames id then some (.element id)
  else if t.isHtmlOneOf sealNames id then some (.marker id)
  else none

/-- the entries of some handles, in their order -/
def activeEntries (t : Tree) (ids : List NodeId) : List ActiveEntry := ids.filterMap t.activeOf?

/-- the nodes by which `t` has grown to `u`, the latest first -/
def newNodes (t u : Tree) : List NodeId :=
  ((List.range' t.size (u.size - t.size)).map NodeId.mk).reverse

/-- the entries of these nodes -/
def insertedEntries (t u : Tree) : List ActiveEntry := u.activeEntries (t.newNodes u)

end Tree

/-- end tags of formatting elements and of elements that seal off -/
def Token.closesActive : Token → Bool
  | .endTag name => (formattingNames ++ sealNames).contains name
  | _ => false

/-! ## entries -/

namespace Tree
variable {t u v : Tree} {id place : NodeId} {ids : List NodeId} {d : NodeData} {e : Element}
  {names : List String} {name : String}

theorem activeOf?_congr (h : u.label? id = t.label? id) : u.activeOf? id = t.activeOf? id := by
  unfold activeOf?
  rw [isHtmlOneOf_congr h, isHtmlOneOf_congr h]

theorem activeOf?_eq_none_iff : t.activeOf? id = none ↔
    t.isHtmlOneOf formattingNames id = false ∧ t.isHtmlOneOf sealNames id = false := by
  unfold activeOf?
  cases t.isHtmlOneOf formattingNames id <;> cases t.isHtmlOneOf sealNames id <;> simp

/-- what has none of the names makes no entry -/
theorem activeOf?_of_label?
    (h : ∀ name ∈ formattingNames ++ sealNames, t.label? id ≠ some (.html, name)) :
    t.activeOf? id = none := by
  have hno : ∀ names ⊆ formattingNames ++ sealNames, t.isHtmlOneOf names id = false := by
    intro names hsub
    rw [← Bool.not_eq_true]
    intro hid
    obtain ⟨name, hn, hl⟩ := isHtmlOneOf_iff.mp hid
    exact h name (hsub hn) hl
  exact activeOf?_eq_none_iff.mpr
    ⟨hno _ (List.subset_append_left _ _), hno _ (List.subset_append_right _ _)⟩

/-- an element with another name makes no entry -/
theorem activeOf?_of_named (h : t.isHtmlOneOf names id = true)
    (hn : ∀ n ∈ names, n ∉ formattingNames ++ sealNames) : t.activeOf? id = none := by
  obtain ⟨name, hmem, hl⟩ := isHtmlOneOf_iff.mp h
  refine activeOf?_of_label? fun other ho he => ?_
  rw [hl] at he
  cases he
  exact hn name hmem ho

theorem activeOf?_of_not_kept (h : t.isHtmlOneOf keptNames id = false) :
    t.activeOf? id = none :=
  activeOf?_eq_none_iff.mpr
    ⟨isHtmlOneOf_subset (by decide) h, isHtmlOneOf_subset (by decide) h⟩

theorem activeOf?_of_formatting (h : t.isHtmlOneOf formattingNames id = true) :
    t.activeOf? id = some (.element id) := if_pos h

theorem activeOf?_of_seal (h : t.isHtmlOneOf sealNames id = true) :
    t.activeOf? id = some (.marker id) := by
  unfold activeOf?
  rw [isHtmlOneOf_disjoint (by decide) h, if_neg Bool.false_ne_true, if_pos h]

theorem activeEntries_nil : t.activeEntries [] = [] := rfl

theorem activeEntries_cons :
    t.activeEntries (id :: ids) = (t.activeOf? id).toList ++ t.activeEntries ids := by
  unfold activeEntries
  rw [List.filterMap_cons]
  cases t.activeOf? id <;> rfl

theorem activeEntries_append (a b : List NodeId) :
    t.activeEntries (a ++ b) = t.activeEntries a ++ t.activeEntries b := List.filterMap_append

theorem activeEntries_eq_nil (h : ∀ id ∈ ids, t.activeOf? id = none) : t.activeEntries ids = [] :=
  List.filterMap_eq_nil_iff.mpr h

/-- entries stay what they are while the document grows -/
theorem activeEntries_within (hw : t.Within u) (hi : ∀ id ∈ ids, id.index < t.size) :
    u.activeEntries ids = t.activeEntries ids :=
  List.filterMap_congr fun id hid => activeOf?_congr (hw.label? (hi id hid))

theorem activeEntries_erase (h : t.activeOf? id = none) :
    t.activeEntries (ids.erase id) = t.activeEntries ids := by
  induction ids with
  | nil => rfl
  | cons x ids ih =>
    by_cases hx : x = id
    · rw [hx, List.erase_cons_head, activeEntries_cons, h]
      rfl
    · rw [List.erase_cons_tail (by simp [hx]), activeEntries_cons, activeEntries_cons, ih]

/-- every entry comes from a handle, which can be read off it -/
theorem mem_activeEntries {entry : ActiveEntry} (h : entry ∈ t.activeEntries ids) :
    ∃ id ∈ ids, entry = .element id ∨ entry = .marker id ∧ t.isHtmlOneOf sealNames id = true := by
  obtain ⟨id, hid, he⟩ := List.mem_filterMap.mp h
  unfold activeOf? at he
  split_ifs at he with hf hs
  · exact ⟨id, hid, Or.inl (Option.some.inj he).symm⟩
  · exact ⟨id, hid, Or.inr ⟨(Option.some.inj he).symm, hs⟩⟩

theorem mem_of_element_mem (h : ActiveEntry.element id ∈ t.activeEntries ids) : id ∈ ids := by
  obtain ⟨x, hx, he | ⟨he, _⟩⟩ := mem_activeEntries h <;> cases he
  exact hx

theorem mem_of_marker_mem (h : ActiveEntry.marker id ∈ t.activeEntries ids) :
    id ∈ ids ∧ t.isHtmlOneOf sealNames id = true := by
  obtain ⟨x, hx, he | ⟨he, hs⟩⟩ := mem_activeEntries h <;> cases he
  exact ⟨hx, hs⟩

/-! ## new nodes -/

theorem newNodes_self (h : u.size = t.size) : t.newNodes u = [] := by
  unfold newNodes
  rw [h, Nat.sub_self]
  rfl

theorem newNodes_attach : t.newNodes (t.attach place d) = [⟨t.size⟩] := by
  unfold newNodes
  rw [size_attach, Nat.add_sub_cancel_left]
  rfl

theorem index_lt_of_mem_newNodes (h : id ∈ t.newNodes u) : id.index < u.size := by
  unfold newNodes at h
  rw [List.mem_reverse, List.mem_map] at h
  obtain ⟨i, hi, rfl⟩ := h
  obtain ⟨hle, hlt⟩ := List.mem_range'_1.mp hi
  show i < u.size
  omega

theorem newNodes_trans (h : t.size ≤ u.size) (h' : u.size ≤ v.size) :
    t.newNodes v = u.newNodes v ++ t.newNodes u := by
  have hs : v.size - t.size = (u.size - t.size) + (v.size - u.size) := by omega
  have hu : t.size + 1 * (u.size - t.size) = u.size := by omega
  unfold newNodes
  rw [hs, ← List.range'_append, hu, List.map_append, List.reverse_append]

theorem insertedEntries_self (h : u.size = t.size) : t.insertedEntries u = [] := by
  unfold insertedEntries
  rw [newNodes_self h]
  rfl

theorem insertedEntries_attach :
    t.insertedEntries (t.attach place d) = ((t.attach place d).activeOf? ⟨t.size⟩).toList := by
  unfold insertedEntries
  rw [newNodes_attach, activeEntries_cons, activeEntries_nil, List.append_nil]

/-- a new node that is none of these elements inserts nothing -/
theorem insertedEntries_attach_none
    (h : ∀ name ∈ formattingNames ++ sealNames, d.label? ≠ some (.html, name)) :
    t.insertedEntries (t.attach place d) = [] := by
  rw [insertedEntries_attach, activeOf?_of_label? fun name hn => ?_]
  · rfl
  · rw [label?_attach_new]
    exact h name hn

theorem insertedEntries_trans (h : t.Within u) (h' : u.Within v) :
    t.insertedEntries v = u.insertedEntries v ++ t.insertedEntries u := by
  unfold insertedEntries
  rw [newNodes_trans h.size_le h'.size_le, activeEntries_append,
    activeEntries_within h' fun _ => index_lt_of_mem_newNodes]

end Tree

/-! ## moves -/

theorem Element.isHtmlOneOf_singleton (e : Element) (name : String) :
    e.isHtmlOneOf [name] = e.isHtml name := by
  unfold isHtmlOneOf isHtml
  rw [List.contains_cons, List.contains_nil, Bool.or_false]

namespace NodeData

/-- an element of another namespace has none of these names -/
theorem label?_of_foreign {e : Element} (h : e.ns ≠ .html) :
    ∀ name ∈ formattingNames ++ sealNames, (element e).label? ≠ some (.html, name) := by
  intro name _ he
  exact h (congrArg Prod.fst (Option.some.inj he))

theorem label?_of_named {e : Element} {names : List String} (h : e.isHtmlOneOf names = true)
    (hn : ∀ n ∈ names, n ∉ formattingNames ++ sealNames) :
    ∀ name ∈ formattingNames ++ sealNames, (element e).label? ≠ some (.html, name) := by
  intro name hmem he
  have hname : e.localName = name := congrArg Prod.snd (Option.some.inj he)
  exact hn _ (Element.isHtmlOneOf_iff.mp h).2 (by rw [hname]; exact hmem)

end NodeData

namespace Core
variable {k k' : Core} {place : NodeId} {e : Element} {u : Tree} {inside : List NodeId}

/-- the entries of the open elements -/
def active (k : Core) : List ActiveEntry := k.tree.activeEntries k.entries

/-- the core has the entries of what was inserted, and behind them those that it had -/
def AddsOnly (k k' : Core) : Prop := k'.active = k.tree.insertedEntries k'.tree ++ k.active

theorem Sound.addsOnly_opened (hs : k.Sound) : k.AddsOnly (k.opened place e) := by
  have hold : (k.tree.attach place (.element e)).activeEntries k.entries = k.active :=
    Tree.activeEntries_within (Tree.within_attach _ _ _) hs.bears.index_lt
  show (k.tree.attach place (.element e)).activeEntries (_ :: k.entries) =
    k.tree.insertedEntries (k.tree.attach place (.element e)) ++ k.active
  rw [Tree.activeEntries_cons, Tree.insertedEntries_attach, hold]

/-- the document grows, but none of these elements is inserted -/
theorem Sound.addsOnly_grown (hs : k.Sound) (hw : k.tree.Within k'.tree)
    (hn : k.tree.insertedEntries k'.tree = []) (he : k'.entries = k.entries) : k.AddsOnly k' := by
  unfold AddsOnly active
  rw [hn, he, Tree.activeEntries_within hw hs.bears.index_lt]
  rfl

/-- elements are closed, but none of these -/
theorem addsOnly_closed (ht : k'.tree = k.tree) (he : k.entries = inside ++ k'.entries)
    (hin : ∀ id ∈ inside, k.tree.activeOf? id = none) : k.AddsOnly k' := by
  unfold AddsOnly active
  rw [ht, Tree.insertedEntries_self rfl, he, Tree.activeEntries_append,
    Tree.activeEntries_eq_nil hin]
  rfl

theorem addsOnly_popped {id : NodeId} {names : List String} (ht : k'.tree = k.tree)
    (he : k.entries = id :: k'.entries) (hid : k.tree.isHtmlOneOf names id = true)
    (hn : ∀ n ∈ names, n ∉ formattingNames ++ sealNames) : k.AddsOnly k' :=
  addsOnly_closed ht (show k.entries = [id] ++ k'.entries from he) fun x hx => by
    rw [List.mem_singleton.mp hx]
    exact Tree.activeOf?_of_named hid hn

end Core

/-- the outermost of the open elements of a mode, and the others -/
theorem Tree.Spells.exists_head {t : Tree} {name : String} {names : List String} {ids : List NodeId}
    (h : t.Spells (name :: names) ids) :
    ∃ id, ids = id :: ids.tail ∧ t.isHtmlOneOf [name] id = true := by
  cases h with
  | cons hid _ => exact ⟨_, rfl, Tree.isHtmlOneOf_of_isHtml hid (List.mem_singleton_self _)⟩

variable {byBody : Bool} {token : Token} {k k' : Core}

/-- parsing does not go on once it has stopped -/
theorem Move.active_before (hm : Move byBody token k k') (h : k'.stopped = false) :
    k.stopped = false := by
  cases hm <;> first | exact h | cases h

/-- **A move opens what it inserts, and closes no entry's element**, unless the token is such an
element's end tag. -/
theorem Move.addsOnly (hm : Move byBody token k k') (hs : k.Sound) (hstop : k'.stopped = false)
    (hplain : byBody = false ∨ token.closesActive = false) : k.AddsOnly k' := by
  have hw := hm.within
  have hfits := hs.fits (hm.active_before hstop)
  cases hm with
  | openHtml | openHead | openNoscript | openBody | element | textOnly => exact hs.addsOnly_opened
  | doctype d m =>
    refine hs.addsOnly_grown hw ?_ rfl
    exact Tree.insertedEntries_attach_none fun _ _ he => nomatch he
  | comment | text =>
    refine hs.addsOnly_grown hw ?_ rfl
    exact Tree.insertedEntries_attach_none fun _ _ he => nomatch he
  | leaf _ he =>
    refine hs.addsOnly_grown hw ?_ rfl
    refine Tree.insertedEntries_attach_none ?_
    rcases he with he | he
    · exact NodeData.label?_of_foreign he
    · exact NodeData.label?_of_named he (by decide)
  | lengthen | merge =>
    exact hs.addsOnly_grown hw (Tree.insertedEntries_self Array.size_modify) rfl
  | noDoctype | setForm | goto => exact hs.addsOnly_grown hw (Tree.insertedEntries_self rfl) rfl
  | closeNoscript hk =>
    rw [hk] at hfits
    have hstack : k.tree.Spells ["noscript", "head", "html"] k.entries :=
      hfits.stack Mode.noConfusion
    obtain ⟨id, he, hid⟩ := hstack.exists_head
    exact Core.addsOnly_popped rfl he hid (by decide)
  | closeHead hk =>
    rw [hk] at hfits
    have hstack : k.tree.Spells ["head", "html"] k.entries := hfits.stack Mode.noConfusion
    obtain ⟨id, he, hid⟩ := hstack.exists_head
    exact Core.addsOnly_popped rfl he hid (by decide)
  | leaveText hk ho hm =>
    obtain ⟨id, outside, m, he, _, _, hid, _⟩ := hfits.text hk
    refine Core.addsOnly_popped rfl ?_ hid (by decide)
    rw [he]
    rfl
  | drop inside hk he hin =>
    exact Core.addsOnly_closed rfl he fun id hid => Tree.activeOf?_of_not_kept (hin id hid)
  | closeFormatting hb _ ht hn =>
    refine absurd hplain (not_or.mpr ⟨by rw [hb]; decide, ?_⟩)
    rw [ht, Token.closesActive, List.contains_iff_mem.mpr (List.mem_append_left _ hn)]
    decide
  | closeSeal hb _ ht hn =>
    refine absurd hplain (not_or.mpr ⟨by rw [hb]; decide, ?_⟩)
    rw [ht, Token.closesActive, List.contains_iff_mem.mpr (List.mem_append_right _ hn)]
    decide
  | removeForm hk hid =>
    rw [← Tree.isHtmlOneOf_singleton] at hid
    show Tree.activeEntries _ (List.erase _ _) = Tree.insertedEntries _ k.tree ++ _
    rw [Tree.activeEntries_erase (Tree.activeOf?_of_named hid (by decide)),
      Tree.insertedEntries_self rfl]
    rfl
  | stop => cases hstop

/-- only the rules of the body insert such elements -/
theorem Move.inserted_plain (hm : Move false token k k') :
    k.tree.insertedEntries k'.tree = [] := by
  cases hm with
  | openHtml _ he | openBody _ _ he | openHead _ _ he | openNoscript _ _ he =>
    rw [← Element.isHtmlOneOf_singleton] at he
    exact Tree.insertedEntries_attach_none (NodeData.label?_of_named he (by decide))
  | textOnly _ _ he =>
    exact Tree.insertedEntries_attach_none (NodeData.label?_of_named he (by decide))
  | element hb _ _ _ =>
    have hns := hb.resolve_left Bool.false_ne_true
    exact Tree.insertedEntries_attach_none (NodeData.label?_of_foreign hns)
  | doctype | comment | text => exact Tree.insertedEntries_attach_none fun _ _ he => nomatch he
  | leaf _ he =>
    refine Tree.insertedEntries_attach_none ?_
    rcases he with he | he
    · exact NodeData.label?_of_foreign he
    · exact NodeData.label?_of_named he (by decide)
  | lengthen | merge => exact Tree.insertedEntries_self Array.size_modify
  | noDoctype | closeNoscript | closeHead | leaveText | drop | removeForm | setForm | goto | stop =>
    exact Tree.insertedEntries_self rfl
  | closeFormatting hb => cases hb
  | closeSeal hb => cases hb

namespace Moves

theorem addsOnly (h : Moves byBody token k k') (hs : k.Sound) (hstop : k'.stopped = false)
    (hplain : byBody = false ∨ token.closesActive = false) : k.AddsOnly k' := by
  induction h with
  | refl =>
    show k.active = k.tree.insertedEntries k.tree ++ k.active
    rw [Tree.insertedEntries_self rfl]
    rfl
  | @tail j k' hj hm ih =>
    have hj' : Moves byBody token k j := hj
    have hfirst := ih (hm.active_before hstop)
    have hlast := hm.addsOnly (hj'.sound hs) hstop hplain
    unfold Core.AddsOnly at *
    rw [hlast, hfirst, Tree.insertedEntries_trans hj'.within hm.within, List.append_assoc]

theorem inserted_plain (h : Moves false token k k') : k.tree.insertedEntries k'.tree = [] := by
  induction h with
  | refl => exact Tree.insertedEntries_self rfl
  | @tail j k' hj hm ih =>
    have hj' : Moves false token k j := hj
    rw [Tree.insertedEntries_trans hj'.within hm.within, hm.inserted_plain, ih]
    rfl

/-- **Without the rules of the body no entry comes or goes.** -/
theorem active_plain (h : Moves false token k k') (hs : k.Sound) (hstop : k'.stopped = false) :
    k'.active = k.active := by
  have hext := h.addsOnly hs hstop (Or.inl rfl)
  unfold Core.AddsOnly at hext
  rw [hext, h.inserted_plain]
  rfl

end Moves

end HtmlTree
