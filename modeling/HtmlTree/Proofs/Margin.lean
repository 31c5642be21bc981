import HtmlTree.Proofs.Step

/-!
# What stands in the margin

Some of what a constructor holds stands beside the construction, as in the margin of a page: its
options, the document's mode, the count of tokens, the parse errors and the journal.  Rules write
there, but what they do to the document and to the stack does not depend on it.

* `Margin`, `Constructor.withMargin`   the margin, and the same constructor with another one;
* `Token.StartsNoscript`               the only tokens whose rules ask whether scripts run;
* `Tree.preInsert_setMode`             an insertion does not depend on the document's mode;
* `appendNew_withMargin`               nor does a new node on the margin.
-/

namespace HtmlTree

structure Margin where
  options : Options
  documentMode : DocumentMode
  tokenIndex : Nat
  errors : Array ParseError
  journal : Journal

namespace Constructor

def margin (c : Constructor) : Margin :=
  ⟨c.options, c.tree.mode, c.tokenIndex, c.errors, c.journal⟩

def withMargin (c : Constructor) (m : Margin) : Constructor :=
  { c with
    options := m.options
    tree := c.tree.setMode m.documentMode
    tokenIndex := m.tokenIndex
    errors := m.errors
    journal := m.journal }

theorem withMargin_margin (c : Constructor) : c.withMargin c.margin = c := rfl

end Constructor

/-! ## scripting -/

/-- a `noscript` start tag, which means one thing where scripts run and another where they do not -/
def Token.StartsNoscript : Token → Prop
  | .startTag tag => tag.name = "noscript"
  | _ => False

theorem HeadStart.ofName?_congr {scripting other : Bool} {name : String}
    (h : name = "noscript" → other = scripting) : ofName? other name = ofName? scripting name := by
  by_cases hn : name = "noscript"
  · rw [h hn]
  · unfold ofName?
    simp only [if_neg hn]

/-! ## insertions -/

namespace Tree
variable (t : Tree) (k : DocumentMode)

theorem modify_setMode (id : NodeId) (f : Node → Node) :
    (t.setMode k).modify id f = (t.modify id f).setMode k := rfl

theorem setParents_setMode (parent : Option NodeId) (ids : List NodeId) :
    (t.setMode k).setParents parent ids = (t.setParents parent ids).setMode k := by
  induction ids generalizing t with
  | nil => rfl
  | cons x ids ih => exact ih (t.modify x fun n => { n with parent })

theorem splice_setMode (parent : NodeId) (i : Nat) (ids : List NodeId) :
    (t.setMode k).splice parent i ids = (t.splice parent i ids).setMode k := by
  unfold splice
  rw [modify_setMode, setParents_setMode]

theorem emptied_setMode (node : NodeId) :
    (t.setMode k).emptied node = (t.emptied node).setMode k := by
  unfold emptied
  rw [show (t.setMode k).get? node = t.get? node from rfl]
  split
  · split
    · rw [modify_setMode, setParents_setMode]
    · rfl
  · rfl

theorem ancestorsUpTo_setMode (limit : Nat) (id : NodeId) :
    (t.setMode k).ancestorsUpTo limit id = t.ancestorsUpTo limit id := by
  induction limit generalizing id with
  | zero => rfl
  | succ limit ih =>
    unfold ancestorsUpTo
    simp only [ih]
    rfl

theorem checkPlace_setMode (parent node : NodeId) (child : Option NodeId) :
    (t.setMode k).checkPlace parent node child = t.checkPlace parent node child := by
  unfold checkPlace isInclusiveAncestor ancestors
  rw [ancestorsUpTo_setMode]
  cases child <;> rfl

theorem position_setMode (parent : NodeId) (child : Option NodeId) :
    (t.setMode k).position parent child = t.position parent child := by
  cases child <;> rfl

theorem insert_setMode (parent node : NodeId) (child : Option NodeId) :
    (t.setMode k).insert parent node child =
      ((t.insert parent node child).1, (t.insert parent node child).2.setMode k) := by
  unfold insert
  rw [checkPlace_setMode, emptied_setMode,
    show (t.setMode k).parent? node = t.parent? node from rfl,
    show (t.setMode k).contributed node = t.contributed node from rfl]
  split
  · rfl
  · split
    · rfl
    · dsimp only
      rw [position_setMode]
      split
      · rfl
      · split
        · rfl
        · rw [splice_setMode]

/-- **No insertion depends on the document's mode.** -/
theorem preInsert_setMode (parent node : NodeId) (child : Option NodeId) :
    (t.setMode k).preInsert parent node child =
      ((t.preInsert parent node child).1, (t.preInsert parent node child).2.setMode k) := by
  have hfault : (t.setMode k).hierarchyFault? parent node child =
      t.hierarchyFault? parent node child := by cases child <;> rfl
  unfold preInsert
  rw [checkPlace_setMode, insert_setMode, hfault]
  split
  · rfl
  · split
    · rfl
    · split <;> rfl

end Tree

theorem appendNew_withMargin (parent : NodeId) (d : NodeData) (c : Constructor) (m : Margin) :
    (appendNew parent d).run (c.withMargin m) =
      (((appendNew parent d).run c).1, ((appendNew parent d).run c).2.withMargin m) := by
  rw [appendNew_run, appendNew_run]
  have happend : ((c.withMargin m).tree.alloc d).2.appendChild parent ⟨c.tree.size⟩ =
      (((c.tree.alloc d).2.appendChild parent ⟨c.tree.size⟩).1,
        ((c.tree.alloc d).2.appendChild parent ⟨c.tree.size⟩).2.setMode m.documentMode) :=
    Tree.preInsert_setMode (c.tree.alloc d).2 m.documentMode parent ⟨c.tree.size⟩ none
  dsimp only
  rw [show (c.withMargin m).tree.size = c.tree.size from rfl, happend]
  rfl

end HtmlTree
