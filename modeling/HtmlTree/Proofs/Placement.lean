import HtmlTree.Proofs.Attach

/-!
# What an insertion does

An insertion changes two child lists and the parents of what goes from one to the other: the new
nodes stand before the given child, or at the end, and a fragment that they come from is left empty.

* `upTo`, `onFrom`, `insertBefore`   a list cut before a child, and new nodes put in there;
* `Tree.Placeable`                   what `checkPlace` asks for;
* `Tree.inserted`, `get?_inserted`   the tree after an insertion, node by node;
* `insert_eq_inserted`               `insert` comes to this tree.
-/

namespace HtmlTree

/-! ## lists cut before a child -/

/-- the part before `child`; all of it where no child is given -/
def upTo : Option NodeId → List NodeId → List NodeId
  | none, ids => ids
  | some c, ids => ids.takeWhile (· != c)

/-- the part from `child` on -/
def onFrom : Option NodeId → List NodeId → List NodeId
  | none, _ => []
  | some c, ids => ids.dropWhile (· != c)

/-- the list with `new` before `child`, or at the end -/
def insertBefore (child : Option NodeId) (new ids : List NodeId) : List NodeId :=
  upTo child ids ++ new ++ onFrom child ids

variable {child : Option NodeId} {new ids before after : List NodeId} {c : NodeId}

theorem upTo_append_onFrom (child : Option NodeId) (ids : List NodeId) :
    upTo child ids ++ onFrom child ids = ids := by
  cases child with
  | none => exact List.append_nil ids
  | some c => exact List.takeWhile_append_dropWhile

theorem upTo_split (h : c ∉ before) : upTo (some c) (before ++ c :: after) = before := by
  have hne : ∀ x ∈ before, (x != c) = true := by
    intro x hx
    rw [bne_iff_ne]
    intro he
    exact h (he ▸ hx)
  show List.takeWhile _ _ = _
  rw [List.takeWhile_append_of_pos hne, List.takeWhile_cons_of_neg (by simp), List.append_nil]

theorem onFrom_split (h : c ∉ before) :
    onFrom (some c) (before ++ c :: after) = c :: after := by
  have hcut := upTo_append_onFrom (some c) (before ++ c :: after)
  rw [upTo_split h] at hcut
  exact List.append_cancel_left hcut

theorem idxOf?_split (h : c ∉ before) : (before ++ c :: after).idxOf? c = some before.length := by
  induction before with
  | nil => simp [List.idxOf?_cons]
  | cons x before ih =>
    have hx : ¬ (x == c) = true := by
      intro he
      exact h (eq_of_beq he ▸ List.mem_cons_self)
    rw [List.cons_append, List.idxOf?_cons, if_neg hx, ih fun hc => h (List.mem_cons_of_mem _ hc)]
    rfl

theorem perm_insertBefore (child : Option NodeId) (new ids : List NodeId) :
    (insertBefore child new ids).Perm (new ++ ids) := by
  have hcut := upTo_append_onFrom child ids
  unfold insertBefore
  conv => rhs; rw [← hcut]
  rw [← List.append_assoc]
  exact List.perm_append_comm.append_right _

theorem mem_insertBefore : c ∈ insertBefore child new ids ↔ c ∈ new ∨ c ∈ ids := by
  rw [(perm_insertBefore child new ids).mem_iff, List.mem_append]

theorem insertBefore_nil (child : Option NodeId) (ids : List NodeId) :
    insertBefore child [] ids = ids := by
  unfold insertBefore
  rw [List.append_nil, upTo_append_onFrom]

theorem take_drop_upTo (child : Option NodeId) (new ids : List NodeId) :
    ids.take (upTo child ids).length ++ new ++ ids.drop (upTo child ids).length
      = insertBefore child new ids := by
  have hcut := upTo_append_onFrom child ids
  have htake : ids.take (upTo child ids).length = upTo child ids := by
    conv => lhs; rw [← hcut]
    rw [hcut]
    conv => lhs; arg 2; rw [← hcut]
    exact List.take_left
  have hdrop : ids.drop (upTo child ids).length = onFrom child ids := by
    conv => lhs; arg 2; rw [← hcut]
    exact List.drop_left
  rw [htake, hdrop]
  rfl

namespace Tree
variable {t : Tree} {parent node id : NodeId} {n : Node}

/-! ## the rules of every insertion -/

/-- `node` may be put into `parent` before `child` by the rules that every insertion keeps -/
structure Placeable (t : Tree) (parent node : NodeId) (child : Option NodeId) : Prop where
  takes : ∃ p, t.get? parent = some p ∧ p.data.canHaveChildren = true
  goes : ∃ n, t.get? node = some n ∧ n.data.canBeChild = true
  noCycle : t.isInclusiveAncestor node parent = false
  reference : ∀ c ∈ child, t.parent? c = some parent

theorem checkReference_eq_ok_iff : t.checkReference parent child = .ok () ↔
    ∀ c ∈ child, t.parent? c = some parent := by
  cases child with
  | none => simp [checkReference]
  | some c =>
    simp only [Option.mem_def, Option.some.injEq, forall_eq']
    cases hc : t.get? c with
    | none =>
      have hchk : t.checkReference parent (some c) = .error (.unknownNode c) := by
        show (t.node c >>= fun n => _) = _
        unfold Tree.node
        rw [hc]
        rfl
      have hpar : t.parent? c = none := by
        unfold parent?
        rw [hc]
        rfl
      simp [hchk, hpar]
    | some n =>
      have hchk : t.checkReference parent (some c) =
          if n.parent = some parent then .ok () else .error (.notAChild c parent) := by
        show (t.node c >>= fun n => _) = _
        rw [node_eq_ok hc]
        rfl
      rw [hchk, parent?_of_get? hc]
      split <;> simp_all

theorem checkPlace_eq_ok_iff :
    t.checkPlace parent node child = .ok () ↔ t.Placeable parent node child := by
  cases hp : t.get? parent with
  | none =>
    have hchk : t.checkPlace parent node child = .error (.unknownNode parent) := by
      unfold checkPlace Tree.node
      rw [hp]
      rfl
    rw [hchk]
    refine ⟨fun h => (nomatch h), fun h => ?_⟩
    obtain ⟨p, h, _⟩ := h.takes
    rw [hp] at h
    cases h
  | some p =>
    cases hn : t.get? node with
    | none =>
      have hchk : t.checkPlace parent node child = .error (.unknownNode node) := by
        unfold checkPlace Tree.node
        rw [hp, hn]
        rfl
      rw [hchk]
      refine ⟨fun h => (nomatch h), fun h => ?_⟩
      obtain ⟨n, h, _⟩ := h.goes
      rw [hn] at h
      cases h
    | some n =>
      unfold checkPlace
      rw [node_eq_ok hp, node_eq_ok hn]
      show (if !p.data.canHaveChildren then _ else if t.isInclusiveAncestor node parent then _
        else t.checkReference parent child >>= fun _ =>
          if n.data.canBeChild then Except.ok () else _) = _ ↔ _
      constructor
      · intro h
        split at h
        · cases h
        · split at h
          · cases h
          · rename_i hcan hanc
            cases href : t.checkReference parent child with
            | error e =>
              rw [href] at h
              cases h
            | ok _ =>
              rw [href] at h
              replace h : (if n.data.canBeChild then Except.ok () else _) = Except.ok () := h
              split at h
              · rename_i hchild
                exact ⟨⟨p, hp, by simpa using hcan⟩, ⟨n, hn, hchild⟩, by simpa using hanc,
                  checkReference_eq_ok_iff.mp href⟩
              · cases h
      · intro h
        obtain ⟨p', hp', hcan⟩ := h.takes
        obtain ⟨n', hn', hchild⟩ := h.goes
        rw [hp] at hp'
        rw [hn] at hn'
        cases hp'
        cases hn'
        rw [hcan, h.noCycle, checkReference_eq_ok_iff.mpr h.reference]
        show (if n.data.canBeChild then _ else _) = _
        rw [if_pos hchild]

/-- a node is an inclusive ancestor of itself -/
theorem Placeable.ne (h : t.Placeable parent node child) : node ≠ parent := by
  intro he
  have hno := h.noCycle
  unfold isInclusiveAncestor at hno
  rw [he] at hno
  simp at hno

/-! ## node by node -/

theorem get?_setParents (t : Tree) (parent : Option NodeId) (ids : List NodeId) (id : NodeId) :
    (t.setParents parent ids).get? id =
      (t.get? id).map fun n => { n with parent := if id ∈ ids then parent else n.parent } := by
  induction ids generalizing t with
  | nil => simp [setParents]
  | cons x ids ih =>
    have hcons : t.setParents parent (x :: ids) =
        (t.modify x fun n => { n with parent }).setParents parent ids := rfl
    rw [hcons, ih, get?_modify]
    by_cases hx : id = x
    · simp [hx, Function.comp_def]
    · simp [hx]

theorem contributed_of_get? (h : t.get? node = some n) :
    t.contributed node = if n.data.isFragment then n.children else [node] := by
  unfold contributed
  rw [h]

/-- a fragment hands over its children and is left empty -/
theorem get?_emptied (h : t.get? node = some n) (id : NodeId) :
    (t.emptied node).get? id = (t.get? id).map fun m =>
      { m with
        parent := if n.data.isFragment ∧ id ∈ n.children then none else m.parent
        children := if n.data.isFragment ∧ id = node then [] else m.children } := by
  unfold emptied
  rw [h]
  dsimp only
  split
  · rename_i hfrag
    rw [get?_setParents, get?_modify]
    by_cases hid : id = node
    · simp [hid, hfrag, Function.comp_def]
    · simp [hid, hfrag]
  · rename_i hfrag
    simp [hfrag]

theorem get?_splice (t : Tree) (parent : NodeId) (i : Nat) (ids : List NodeId) (id : NodeId) :
    (t.splice parent i ids).get? id = (t.get? id).map fun m =>
      { m with
        parent := if id ∈ ids then some parent else m.parent
        children := if id = parent then m.children.take i ++ ids ++ m.children.drop i
          else m.children } := by
  unfold splice
  rw [get?_setParents, get?_modify]
  by_cases hid : id = parent
  · simp [hid, Function.comp_def]
  · simp [hid]

/-! ## the whole insertion -/

/-- the tree with `node`, or what it hands over, put into `parent` before `child` -/
def inserted (t : Tree) (parent node : NodeId) (child : Option NodeId) : Tree :=
  (t.emptied node).splice parent (upTo child (t.children parent)).length (t.contributed node)

theorem get?_inserted (hn : t.get? node = some n) (hne : node ≠ parent) (id : NodeId) :
    (t.inserted parent node child).get? id = (t.get? id).map fun m =>
      { m with
        parent := if id ∈ t.contributed node then some parent else m.parent
        children :=
          if id = parent then insertBefore child (t.contributed node) m.children
          else if n.data.isFragment ∧ id = node then [] else m.children } := by
  unfold inserted
  rw [get?_splice, get?_emptied hn, Option.map_map]
  cases hm : t.get? id with
  | none => rfl
  | some m =>
    simp only [Option.map_some, Function.comp_apply, Option.some.injEq, Node.mk.injEq, true_and]
    -- the parent of a node, and then its children
    constructor
    · by_cases hid : id ∈ t.contributed node
      · rw [if_pos hid, if_pos hid]
      · have hold : ¬ (n.data.isFragment = true ∧ id ∈ n.children) := by
          rintro ⟨hfrag, hmem⟩
          rw [contributed_of_get? hn, if_pos hfrag] at hid
          exact hid hmem
        rw [if_neg hid, if_neg hid, if_neg hold]
    · by_cases hid : id = parent
      · have hkeep : ¬ (n.data.isFragment = true ∧ id = node) := by
          rintro ⟨_, he⟩
          exact hne (he.symm.trans hid)
        rw [if_pos hid, if_pos hid, if_neg hkeep, ← take_drop_upTo, ← hid, children_of_get? hm]
      · rw [if_neg hid, if_neg hid]

/-- an empty fragment has nothing to hand over -/
theorem inserted_of_contributed_nil (hn : t.get? node = some n) (hne : node ≠ parent)
    (h : t.contributed node = []) : t.inserted parent node child = t := by
  refine ext_get? ?_ fun id => ?_
  · unfold inserted splice emptied setParents
    rw [hn, h]
    dsimp only
    split
    · rename_i hfrag
      rw [contributed_of_get? hn, if_pos hfrag] at h
      rw [h]
      rfl
    · rfl
  · rw [get?_inserted hn hne, h]
    cases hm : t.get? id with
    | none => rfl
    | some m =>
      simp only [Option.map_some, List.not_mem_nil, if_false, insertBefore_nil, Option.some.injEq]
      by_cases hid : id = parent
      · rw [if_pos hid]
      · rw [if_neg hid]
        split
        · rename_i hfrag
          have hmn : m = n := by
            rw [hfrag.2, hn] at hm
            exact (Option.some.inj hm).symm
          rw [contributed_of_get? hn, if_pos hfrag.1] at h
          rw [hmn, ← h]
        · rfl

/-- **What an insertion comes to** where its conditions hold and the given child has a position. -/
theorem insert_eq_inserted (h : t.Placeable parent node child) (hd : t.parent? node = none)
    (hp : (t.emptied node).position parent child =
      .ok (upTo child (t.children parent)).length) :
    t.insert parent node child = (.ok (), t.inserted parent node child) := by
  obtain ⟨n, hn, _⟩ := h.goes
  unfold insert
  rw [checkPlace_eq_ok_iff.mpr h, hd]
  dsimp only
  by_cases hnil : t.contributed node = []
  · rw [hnil, inserted_of_contributed_nil hn h.ne hnil]
    rfl
  · have hne : ¬ (t.contributed node).isEmpty = true := by simpa using hnil
    rw [if_neg (by simp), if_neg hne, hp]
    rfl

end Tree

end HtmlTree
