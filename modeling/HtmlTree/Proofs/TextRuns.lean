import HtmlTree.Proofs.Texts
import Mathlib.Data.List.Chain

/-!
# Text in normal form

A character lengthens the text at the end of the current node, and begins a new one only where no
text stands there.  A node may have been the current one before, with other children since: what
counts is its last child when the character comes.  So texts are never empty and never stand side by
side.

* `Tree.TextsNormal`      no text is empty, and no child follows another where both are texts;
* `Arrives.text_apart`    a new text does not come behind a text;
* `Move.textsNormal`      every move keeps texts in normal form;
* `after_textsNormal`     **every document has them so**.
-/

namespace HtmlTree

/-- no text is empty, and of two children side by side one at least is no text -/
structure Tree.TextsNormal (t : Tree) : Prop where
  nonempty : ∀ id, t.text? id ≠ some ""
  apart : ∀ id, (t.children id).IsChain fun a b =>
    ¬(t.isKind .text a = true ∧ t.isKind .text b = true)

variable {byBody : Bool} {token : Token} {k k' : Core} {place : NodeId} {d : NodeData}

namespace Core

theorem Arrives.text_nonempty (h : k.Arrives place d) : d.text? ≠ some "" := by
  cases h with
  | text => exact fun he => absurd (congrArg String.toList (Option.some.inj he)) (by simp)
  | _ => exact fun he => nomatch he

/-- a new text does not come behind a text -/
theorem Arrives.text_apart (h : k.Arrives place d) (hd : d.kind = .text) :
    ∀ id ∈ k.tree.lastChild? place, k.tree.isKind .text id = false := by
  cases h with
  | text _ _ hlast => exact hlast
  | _ => cases hd

end Core

namespace Tree
variable {t u : Tree}

/-- where nodes keep their kinds a child list stays as it was -/
theorem TextsNormal.apart_within (h : t.TextsNormal) (hg : t.Grown) (hw : t.Within u)
    (id : NodeId) : (t.children id).IsChain fun a b =>
      ¬(u.isKind .text a = true ∧ u.isKind .text b = true) := by
  refine List.isChain_iff_forall_rel_of_append_cons_cons.mpr fun a b before after he => ?_
  have hmem : ∀ c ∈ [a, b], c ∈ t.children id := fun c hc => by
    rw [he]
    exact List.mem_append_right _ ((List.prefix_append [a, b] after).subset hc)
  rw [isKind_within hw .text (hg.child_lt (hmem a (by simp))),
    isKind_within hw .text (hg.child_lt (hmem b (by simp)))]
  exact List.isChain_iff_forall_rel_of_append_cons_cons.mp (h.apart id) he

end Tree

/-- **Every move keeps texts in normal form.** -/
theorem Move.textsNormal (hm : Move byBody token k k') (hs : k.Sound) (h : k.tree.TextsNormal) :
    k'.tree.TextsNormal := by
  have hg := hs.bears.grown
  have hw := hm.within
  refine ⟨fun id => ?_, fun id => ?_⟩
  · have hgrows := hm.grows
    generalize k'.tree = u at hgrows
    cases hgrows with
    | keep m => exact h.nonempty id
    | @arrive place d m harr =>
      show (k.tree.attach place d).text? id ≠ _
      rw [Tree.text?_attach]
      split
      · exact harr.text_nonempty
      · exact h.nonempty id
    | lengthen =>
      rw [Tree.text?_lengthen]
      split
      · cases k.tree.text? id with
        | none => exact fun he => nomatch he
        | some s => simp
      · exact h.nonempty id
    | merge given =>
      rw [Tree.text?_merge]
      exact h.nonempty id
  · rcases hm.children_cases hs id with hc | ⟨d, m, harr, hu, hc⟩ <;> rw [hc]
    · exact h.apart_within hg hw id
    · refine (h.apart_within hg hw id).append (List.isChain_singleton _) fun a ha b hb => ?_
      cases hb
      rw [Tree.isKind_within hw .text (hg.child_lt (List.mem_of_getLast? ha)), hu]
      rintro ⟨hold, hnew⟩
      have hkind : d.kind = .text := by
        rw [← beq_iff_eq, ← Tree.isKind_attach_new k.tree id d]
        exact hnew
      rw [harr.text_apart hkind a ha] at hold
      cases hold

/-- **Text is kept in normal form.**  After any calls, whatever the options, no text of the document
is empty and no two children of a node that follow one another are both texts. -/
theorem after_textsNormal (options : Options) (calls : List Call) :
    ((Constructor.new options).after calls).tree.TextsNormal := by
  refine Constructor.after_keeps (P := fun k => k.tree.TextsNormal) options calls ?_
    fun hs _ hm h => hm.textsNormal hs h
  refine ⟨?_, ?_⟩
  · rintro ⟨_ | i⟩ h <;> cases h
  · rintro ⟨_ | i⟩ <;> exact List.isChain_nil

end HtmlTree
