import HtmlTree.Proofs.Frame
import HtmlTree.Proofs.Session
import HtmlTree.Proofs.Strictness

/-!
# The growth of a document

What holds of every move holds of a whole construction: of a token, of a call and of any calls,
failed ones included.  So a document only grows while it is constructed.  Its nodes stay where they
are and keep what they hold, new ones come behind those that are there, and none is left detached.

* `Core.Becomes`          what tokens may make of a core, one after another;
* `call_becomes`          what a call makes of it;
* `Becomes.framed`, `Becomes.growsTo`   what every move keeps it keeps;
* `call_growsTo`          **construction only grows the document**, and the list of parse errors.
-/

namespace HtmlTree

/-! ## the course of a construction -/

/-- what some tokens may make of a core -/
def Core.Becomes : Core → Core → Prop :=
  Relation.ReflTransGen fun k k' => ∃ token, Move true token k k'

theorem Core.Becomes.sound {k k' : Core} (h : k.Becomes k') (hs : k.Sound) : k'.Sound := by
  induction h with
  | refl => exact hs
  | tail _ hm ih =>
    obtain ⟨_, hm⟩ := hm
    exact hm.sound ih

namespace Constructor
variable {c : Constructor}

theorem process_becomes (h : c.core.Sound) (hs : c.stopped = false) (token : Token) :
    c.core.Becomes (c.process token).2.core :=
  Relation.ReflTransGen.mono (fun _ _ hm => ⟨token, hm⟩) _ _ (process_leads (in_mode h hs) token).1

theorem next_becomes (h : c.core.Sound) (hs : c.stopped = false) (token : Token) :
    c.core.Becomes (c.next token).core := by
  rw [next_core]
  exact process_becomes h hs token

theorem call_becomes (h : c.core.Sound) (call : Call) : c.core.Becomes (c.call call).2.core := by
  -- a core that is sound stays so, so the next token finds it sound, too
  let R := fun a b : Constructor => a.core.Sound → a.core.Becomes b.core
  have hrefl : ∀ a, R a a := fun _ _ => .refl
  have htrans : ∀ {a b d}, R a b → R b d → R a d := fun hab hbd ha =>
    (hab ha).trans (hbd ((hab ha).sound ha))
  cases call with
  | run tokens =>
    exact run_rel hrefl htrans (fun token hs ha => next_becomes ha hs token) c tokens h
  | finish => exact finish_rel hrefl (fun hs ha => process_becomes ha hs .endOfFile) c h

theorem after_becomes (h : c.core.Sound) (calls : List Call) :
    c.core.Becomes (c.after calls).core := by
  induction calls generalizing c with
  | nil => exact .refl
  | cons call calls ih =>
    have hcall := call_becomes h call
    rw [after_cons]
    exact hcall.trans (ih (hcall.sound h))

end Constructor

/-! ## what a move does to the document -/

variable {byBody : Bool} {token : Token} {k k' : Core}

theorem Tree.growth_attach {t : Tree} {place : NodeId} (hp : place.index < t.size)
    (d : NodeData) : t.Growth (t.attach place d) :=
  .attach d (t.attach place d).mode hp

/-- only the `html` and the `body` element of the document are open under these names -/
theorem Core.Framed.merges (hf : k.Framed) {id : NodeId}
    (h : k.tree.isHtmlOneOf ["html", "body"] id = true) :
    k.tree.htmlElement? = some id ∨ k.tree.bodyElement? = some id := by
  obtain ⟨hnd, hnd'⟩ := k.outerMode.nodup_frame
  obtain ⟨name, hmem, hl⟩ := Tree.isHtmlOneOf_iff.mp h
  rcases List.mem_cons.mp hmem with rfl | hmem
  · exact Or.inl (hf.tree.htmlElement? hnd (Tree.isHtml_iff.mpr hl))
  · rw [List.mem_singleton.mp hmem] at hl
    exact Or.inr (hf.tree.bodyElement? hnd hnd' (Tree.isHtml_iff.mpr hl))

/-- **Every move is a step of growth** of the document. -/
theorem Move.growth (hm : Move byBody token k k') (hs : k.Sound) (hf : k.Framed) :
    k.tree.Growth k'.tree := by
  have hroot := hs.bears.grown.root_lt
  have hcur : ∀ {place : NodeId}, k.entries.head? = some place → place.index < k.tree.size :=
    fun hp => Tree.index_lt_of_label? (hs.current hp)
  cases hm with
  | doctype d m => exact .attach _ m hroot
  | noDoctype m => exact .keep m
  | openHtml => exact Tree.growth_attach hroot _
  | openHead _ hp | openNoscript _ hp | openBody _ hp | text _ _ hp | element _ _ hp =>
    exact Tree.growth_attach (hcur hp) _
  | comment _ hp => exact Tree.growth_attach (hs.takesComment_lt hp) _
  | lengthen ch _ _ hlast hkind => exact .lengthen ch hlast hkind
  | merge given _ hone => exact .merge given (hf.merges hone)
  | leaf hp | textOnly _ hp =>
    exact Tree.growth_attach (Tree.index_lt_of_label? (hs.takesElement hp)) _
  | closeNoscript | closeHead | leaveText | drop | closeFormatting | closeSeal | removeForm
  | setForm | goto | stop =>
    exact .keep k.tree.mode

namespace Core.Becomes

theorem framed (h : k.Becomes k') (hs : k.Sound) (hf : k.Framed) : k'.Framed := by
  induction h with
  | refl => exact hf
  | tail hk hm ih =>
    obtain ⟨_, hm⟩ := hm
    exact hm.framed (sound hk hs) ih

theorem growsTo (h : k.Becomes k') (hs : k.Sound) (hf : k.Framed) :
    k.tree.GrowsTo k'.tree := by
  induction h with
  | refl => exact Tree.GrowsTo.refl _
  | tail hk hm ih =>
    -- the last move is a step of growth as the core before it is sound and framed still
    have hf' := framed hk hs hf
    obtain ⟨_, hm⟩ := hm
    exact ih.trans hf.tree.planted hf'.tree.planted
      ((hm.growth (sound hk hs) hf').growsTo hf'.tree.planted)

end Core.Becomes

namespace Constructor

theorem after_framed (options : Options) (calls : List Call) :
    ((Constructor.new options).after calls).core.Framed :=
  (after_becomes (new_sound options) calls).framed (new_sound options) (Core.new_framed options)

theorem call_errors (c : Constructor) (call : Call) :
    c.errors.toList <+: (c.call call).2.errors.toList := by
  cases call with
  | run tokens =>
    obtain ⟨added, he⟩ := (c.run_grows tokens).errors
    exact ⟨added, he.symm⟩
  | finish =>
    obtain ⟨added, he⟩ := c.finish_grows.errors
    exact ⟨added, he.symm⟩

end Constructor

/-- **Construction only grows the document**, whether a call succeeds or fails: every node stays in
its place, and its children stay the first ones; comments, doctypes and names stay as they are, a
text may only become longer, at the end of its parent, and only the `html` and the `body` element
may gain attributes.  The parse errors stay the first ones, too.  In between calls every node hangs
from the root, and nodes stand in the order in which they were made. -/
theorem call_growsTo (options : Options) (calls : List Call) (call : Call) :
    let c := (Constructor.new options).after calls
    let d := (c.call call).2
    c.tree.GrowsTo d.tree ∧ c.errors.toList <+: d.errors.toList ∧ c.tree.InOrder ∧
      d.tree.InOrder := by
  have hs := Constructor.after_sound options calls
  have hf := Constructor.after_framed options calls
  have hcall := Constructor.call_becomes hs call
  exact ⟨hcall.growsTo hs hf, Constructor.call_errors _ call, hf.tree.planted.inOrder,
    (hcall.framed hs hf).tree.planted.inOrder⟩

end HtmlTree
