import HtmlTree.Proofs.Frame

/-!
# Outlines

Around the content of a document there are a few nodes that hold little: the root, the `html` element,
the head and, where scripts do not run, a `noscript` in the head.  What they hold, and in which order,
is laid down.

* `Tree.RootOutline`, `Tree.HtmlOutline`   the children of the root and of the `html` element;
* `Tree.HoldsOnly`       comments and elements of some names;
* `Tree.Outlined`        the outline of a document;
* `RootOutline.comment`, `HtmlOutline.head`, …   the nodes that may be added, and when;
* `RootOutline.within`, `HtmlOutline.within`     an outline in a later tree.
-/

namespace HtmlTree

/-! ## outlines -/

namespace Tree

def Comments (t : Tree) (ids : List NodeId) : Prop := ∀ id ∈ ids, t.isKind .comment id = true

def BlankText (t : Tree) (id : NodeId) : Prop :=
  ∃ text, t.text? id = some text ∧ ∀ ch ∈ text.toList, Text.isBlank ch = true

/-- at most one node, and it has the property -/
def AtMostOne (p : NodeId → Bool) (ids : List NodeId) : Prop :=
  ids.length ≤ 1 ∧ ∀ id ∈ ids, p id = true

/-- among comments a doctype, if there is one, and after that an element, if there is one, which is
`html` -/
def RootOutline (t : Tree) (ids : List NodeId) : Prop :=
  ∃ before doctype between html after,
    ids = before ++ doctype ++ between ++ html ++ after ∧
    t.Comments (before ++ between ++ after) ∧
    AtMostOne (t.isKind .documentType) doctype ∧ AtMostOne (t.isHtml "html") html

/-- comments, the head, behind the head comments and white space, the body, and comments again; head
and body need not be there -/
def HtmlOutline (t : Tree) (ids : List NodeId) : Prop :=
  ∃ before head blanks body after,
    ids = before ++ head ++ blanks ++ body ++ after ∧
    t.Comments (before ++ after) ∧
    AtMostOne (t.isHtml "head") head ∧ AtMostOne (t.isHtml "body") body ∧
    (head = [] → blanks = []) ∧ ∀ id ∈ blanks, t.isKind .comment id = true ∨ t.BlankText id

/-- all children are comments and HTML elements with these names -/
def HoldsOnly (t : Tree) (names : List String) (parent : NodeId) : Prop :=
  ∀ id ∈ t.children parent, t.isKind .comment id = true ∨ t.isHtmlOneOf names id = true

def HeadNoscript (t : Tree) (id : NodeId) : Prop :=
  t.isHtml "noscript" id = true ∧
    ∃ head, t.parent? id = some head ∧ t.isHtml "head" head = true

structure Outlined (t : Tree) (scripting : Bool) : Prop where
  root : t.RootOutline (t.children .root)
  html : ∀ id, t.isHtml "html" id = true → t.HtmlOutline (t.children id)
  head : ∀ id, t.isHtml "head" id = true →
    t.HoldsOnly ["base", "basefont", "bgsound", "link", "meta", "title", "noscript", "noframes",
      "style", "script"] id
  noscript : scripting = false → ∀ id, t.HeadNoscript id →
    t.HoldsOnly ["basefont", "bgsound", "link", "meta", "noframes", "style"] id

variable {t u : Tree} {ids : List NodeId} {id x place parent : NodeId} {kind : NodeKind}
  {names : List String} {p : NodeId → Bool}

theorem AtMostOne.nil (p : NodeId → Bool) : AtMostOne p [] := ⟨Nat.zero_le 1, nofun⟩

theorem AtMostOne.one (h : p x = true) : AtMostOne p [x] :=
  ⟨Nat.le_refl 1, fun id hid => by rw [List.mem_singleton.mp hid, h]⟩

theorem Comments.append {more : List NodeId} :
    t.Comments (ids ++ more) ↔ t.Comments ids ∧ t.Comments more := List.forall_mem_append

theorem Comments.snoc (h : t.Comments ids) (hx : t.isKind .comment x = true) :
    t.Comments (ids ++ [x]) :=
  Comments.append.mpr ⟨h, fun id hid => by rw [List.mem_singleton.mp hid, hx]⟩

/-! ### the children of the root -/

namespace RootOutline

theorem nil (t : Tree) : t.RootOutline [] := ⟨[], [], [], [], [], rfl, nofun, .nil _, .nil _⟩

theorem comment (h : t.RootOutline ids) (hx : t.isKind .comment x = true) :
    t.RootOutline (ids ++ [x]) := by
  obtain ⟨before, doctype, between, html, after, rfl, hcomments, hrest⟩ := h
  refine ⟨before, doctype, between, html, after ++ [x], by simp, ?_, hrest⟩
  rw [← List.append_assoc]
  exact hcomments.snoc hx

/-- a part is empty where there are no nodes of its kind -/
theorem eq_nil_of_not_any {part : List NodeId} (hpart : ∀ id ∈ part, t.isKind kind id = true)
    (hsub : part ⊆ ids) (hno : t.anyOfKind kind ids = false) : part = [] := by
  refine List.eq_nil_iff_forall_not_mem.mpr fun id hid => ?_
  exact absurd (hpart id hid) (List.any_eq_false.mp hno id (hsub hid))

theorem doctype (h : t.RootOutline ids) (hd : t.anyOfKind .documentType ids = false)
    (he : t.anyOfKind .element ids = false) (hx : t.isKind .documentType x = true) :
    t.RootOutline (ids ++ [x]) := by
  obtain ⟨before, doctype, between, html, after, rfl, hcomments, hdoctype, hhtml⟩ := h
  have hdnil := eq_nil_of_not_any hdoctype.2 (fun id hid => by simp [hid]) hd
  have hhnil := eq_nil_of_not_any (fun id hid => isKind_of_isHtml (hhtml.2 id hid))
    (fun id hid => by simp [hid]) he
  subst hdnil hhnil
  refine ⟨before ++ between ++ after, [x], [], [], [], by simp, ?_, .one hx, .nil _⟩
  simpa using hcomments

theorem html (h : t.RootOutline ids) (he : t.anyOfKind .element ids = false)
    (hx : t.isHtml "html" x = true) : t.RootOutline (ids ++ [x]) := by
  obtain ⟨before, doctype, between, html, after, rfl, hcomments, hdoctype, hhtml⟩ := h
  have hnil := eq_nil_of_not_any (fun id hid => isKind_of_isHtml (hhtml.2 id hid))
    (fun id hid => by simp [hid]) he
  subst hnil
  refine ⟨before, doctype, between ++ after, [x], [], by simp, ?_, hdoctype, .one hx⟩
  simpa using hcomments

end RootOutline

/-! ### the children of the `html` element -/

namespace HtmlOutline

theorem nil (t : Tree) : t.HtmlOutline [] :=
  ⟨[], [], [], [], [], rfl, nofun, .nil _, .nil _, fun _ => rfl, nofun⟩

theorem comment (h : t.HtmlOutline ids) (hx : t.isKind .comment x = true) :
    t.HtmlOutline (ids ++ [x]) := by
  obtain ⟨before, head, blanks, body, after, rfl, hcomments, hrest⟩ := h
  refine ⟨before, head, blanks, body, after ++ [x], by simp, ?_, hrest⟩
  rw [← List.append_assoc]
  exact hcomments.snoc hx

theorem not_element_of_kind (hne : kind ≠ .element) (h : t.isKind kind id = true) :
    t.isKind .element id = false := by
  unfold isKind at *
  rw [eq_of_beq h]
  exact beq_false_of_ne fun e => hne (Option.some.inj e)

theorem not_element_of_text (h : (t.text? id).isSome = true) : t.isKind .element id = false := by
  unfold text? at h
  cases hn : t.get? id with
  | none =>
    rw [hn] at h
    cases h
  | some n =>
    rw [hn] at h
    rw [isKind_of_get? hn]
    unfold Node.kind
    cases hd : n.data <;> first | rfl | (exfalso; simp [hd, NodeData.text?] at h)

/-- the elements are the head and the body -/
theorem filter_eq {before head blanks body after : List NodeId}
    (hcomments : t.Comments (before ++ after)) (hhead : AtMostOne (t.isHtml "head") head)
    (hbody : AtMostOne (t.isHtml "body") body)
    (hblanks : ∀ id ∈ blanks, t.isKind .comment id = true ∨ t.BlankText id) :
    (before ++ head ++ blanks ++ body ++ after).filter (t.isKind .element) = head ++ body := by
  have hnone : ∀ {part : List NodeId}, (∀ id ∈ part, t.isKind .element id = false) →
      part.filter (t.isKind .element) = [] := fun hpart =>
    List.filter_eq_nil_iff.mpr fun id hid => by rw [hpart id hid]; exact Bool.false_ne_true
  have hall : ∀ {part : List NodeId} {name : String}, AtMostOne (t.isHtml name) part →
      part.filter (t.isKind .element) = part := fun hpart =>
    List.filter_eq_self.mpr fun id hid => isKind_of_isHtml (hpart.2 id hid)
  obtain ⟨hb, ha⟩ := Comments.append.mp hcomments
  have hcomment : ∀ {part : List NodeId}, t.Comments part →
      part.filter (t.isKind .element) = [] := fun hpart =>
    hnone fun id hid => not_element_of_kind (by decide) (hpart id hid)
  have hblank : blanks.filter (t.isKind .element) = [] := hnone fun id hid => by
    rcases hblanks id hid with hc | ⟨text, htext, _⟩
    · exact not_element_of_kind (by decide) hc
    · exact not_element_of_text (by rw [htext]; rfl)
  simp only [List.filter_append, hcomment hb, hcomment ha, hblank, hall hhead, hall hbody,
    List.nil_append, List.append_nil]

theorem head (h : t.HtmlOutline ids) (hframe : t.Spells [] (ids.filter (t.isKind .element)))
    (hx : t.isHtml "head" x = true) : t.HtmlOutline (ids ++ [x]) := by
  obtain ⟨before, head, blanks, body, after, rfl, hcomments, hhead, hbody, hno, hblanks⟩ := h
  rw [filter_eq hcomments hhead hbody hblanks] at hframe
  obtain ⟨rfl, rfl⟩ := List.append_eq_nil_iff.mp (List.forall₂_nil_left_iff.mp hframe)
  obtain rfl := hno rfl
  refine ⟨before ++ after, [x], [], [], [], by simp, ?_, .one hx, .nil _, nofun, nofun⟩
  rw [List.append_nil]
  exact hcomments

/-- with the head only, the rest is comments and white space -/
theorem split_head (h : t.HtmlOutline ids)
    (hframe : t.Spells ["head"] (ids.filter (t.isKind .element))) :
    ∃ before head blanks, ids = before ++ [head] ++ blanks ∧ t.Comments before ∧
      t.isHtml "head" head = true ∧ ∀ id ∈ blanks, t.isKind .comment id = true ∨ t.BlankText id := by
  obtain ⟨before, head, blanks, body, after, rfl, hcomments, hhead, hbody, hno, hblanks⟩ := h
  rw [filter_eq hcomments hhead hbody hblanks] at hframe
  obtain ⟨hb, ha⟩ := Comments.append.mp hcomments
  cases head with
  | nil =>
    -- then the body would be called `head`
    rw [List.nil_append] at hframe
    cases hframe with
    | cons hname _ =>
      have hbodyname := hbody.2 _ List.mem_cons_self
      rw [isHtml_eq_false hbodyname (by decide)] at hname
      cases hname
  | cons head more =>
    have hmore : more ++ body = [] := by
      cases hframe with
      | cons _ hrest => exact List.forall₂_nil_left_iff.mp hrest
    obtain ⟨rfl, rfl⟩ := List.append_eq_nil_iff.mp hmore
    refine ⟨before, head, blanks ++ after, by simp, hb, hhead.2 head List.mem_cons_self, ?_⟩
    exact List.forall_mem_append.mpr ⟨hblanks, fun id hid => Or.inl (ha id hid)⟩

theorem body (h : t.HtmlOutline ids)
    (hframe : t.Spells ["head"] (ids.filter (t.isKind .element)))
    (hx : t.isHtml "body" x = true) : t.HtmlOutline (ids ++ [x]) := by
  obtain ⟨before, head, blanks, rfl, hcomments, hhead, hblanks⟩ := h.split_head hframe
  refine ⟨before, [head], blanks, [x], [], by simp, ?_, .one hhead, .one hx, nofun, hblanks⟩
  rw [List.append_nil]
  exact hcomments

theorem blank (h : t.HtmlOutline ids)
    (hframe : t.Spells ["head"] (ids.filter (t.isKind .element)))
    (hx : t.BlankText x) : t.HtmlOutline (ids ++ [x]) := by
  obtain ⟨before, head, blanks, rfl, hcomments, hhead, hblanks⟩ := h.split_head hframe
  refine ⟨before, [head], blanks ++ [x], [], [], by simp, ?_, .one hhead, .nil _, nofun, ?_⟩
  · rw [List.append_nil]
    exact hcomments
  · refine List.forall_mem_append.mpr ⟨hblanks, fun id hid => ?_⟩
    rw [List.mem_singleton.mp hid]
    exact Or.inr hx

end HtmlOutline

/-! ### later trees -/

theorem Within.isKind (hw : t.Within u) (h : t.isKind kind id = true) : u.isKind kind id = true := by
  have hlt : id.index < t.size := by
    by_contra hle
    unfold Tree.isKind kind? at h
    rw [get?_eq_none_iff.mpr (Nat.le_of_not_lt hle)] at h
    cases h
  rw [isKind_within hw kind hlt, h]

theorem AtMostOne.mono {q : NodeId → Bool} (hpq : ∀ id, p id = true → q id = true)
    (h : AtMostOne p ids) : AtMostOne q ids := ⟨h.1, fun id hid => hpq id (h.2 id hid)⟩

theorem RootOutline.within (hw : t.Within u) (h : t.RootOutline ids) : u.RootOutline ids := by
  obtain ⟨before, doctype, between, html, after, he, hcomments, hdoctype, hhtml⟩ := h
  exact ⟨before, doctype, between, html, after, he, fun id hid => hw.isKind (hcomments id hid),
    hdoctype.mono fun _ => hw.isKind, hhtml.mono fun _ => hw.isHtml⟩

theorem HtmlOutline.within (hw : t.Within u) (hb : ∀ id ∈ ids, t.BlankText id → u.BlankText id)
    (h : t.HtmlOutline ids) : u.HtmlOutline ids := by
  obtain ⟨before, head, blanks, body, after, rfl, hcomments, hhead, hbody, hno, hblanks⟩ := h
  refine ⟨before, head, blanks, body, after, rfl, fun id hid => hw.isKind (hcomments id hid),
    hhead.mono fun _ => hw.isHtml, hbody.mono fun _ => hw.isHtml, hno, fun id hid => ?_⟩
  exact (hblanks id hid).imp hw.isKind (hb id (by simp [hid]))

end Tree

end HtmlTree
