import HtmlTree.Proofs.Rounds

/-!
# What a token implies before it is dealt with

A token that is processed anew has been dealt with only so far as the elements around the content
go: of `html`, `head` and `body` those are made that are still missing, one in a round and without
attributes.  Apart from these and from the document's mode the document stays as it was.

* `Mode.missing`     the elements around the content that are still to come in a mode;
* `Tree.Gained`      a document has gained elements of these names, and nothing else has changed;
* `Core.GoesOn`      what a round makes of a core whose token goes on, `Core.Onward` with the token;
* `modeRules_onward`, `dispatch_onward`   so does every round, but for the end of the input.
-/

namespace HtmlTree

variable {k i j : Core} {token t : Token} {tag : StartTag} {m : Mode} {name : String}

/-! ## the elements around the content -/

/-- the elements around the content that are not there yet in a mode -/
def Mode.missing : Mode → List String
  | initial | beforeHtml => ["html", "head", "body"]
  | beforeHead => ["head", "body"]
  | inHead | inHeadNoscript | afterHead => ["body"]
  | _ => []

theorem Mode.missing_sublist (m : Mode) : m.missing.Sublist outerNames := by
  cases m <;> decide

theorem Mode.missing_of_isBody (h : m.isBody = true) : m.missing = [] := by
  cases m <;> first | rfl | cases h

/-- the document has gained HTML elements of these names, one after the other, each without
attributes and at the end of some node; its mode may be another one -/
structure Tree.Gained (t : Tree) (names : List String) (u : Tree) : Prop where
  size : u.size = t.size + names.length
  /-- what was there has got new children at most -/
  kept : ∀ id n, t.get? id = some n → ∃ added, (∀ c ∈ added, t.size ≤ c.index) ∧
    u.get? id = some { n with children := n.children ++ added }
  new : ∀ i name, names[i]? = some name → ∃ place children,
    u.get? ⟨t.size + i⟩ = some ⟨.element (.bare name .html), some place, children⟩

namespace Tree.Gained
variable {t u : Tree} {place : NodeId} {names : List String} {mode : DocumentMode}

theorem setMode (h : (t.setMode mode).Gained names u) : t.Gained names u :=
  ⟨h.size, h.kept, h.new⟩

theorem none (t : Tree) (mode : DocumentMode) : t.Gained [] (t.setMode mode) where
  size := rfl
  kept := fun id n hn => by
    refine ⟨[], fun c hc => absurd hc List.not_mem_nil, ?_⟩
    rw [List.append_nil]
    exact hn
  new := fun i name hi => nomatch hi

/-- one element, and then the others -/
theorem attach (h : (t.attach place (.element (.bare name .html))).Gained names u) :
    t.Gained (name :: names) u where
  size := by
    rw [h.size, size_attach, List.length_cons]
    omega
  kept := fun id n hn => by
    have hold : (t.attach place (.element (.bare name .html))).get? id = _ :=
      get?_attach_old (index_lt_of_get? hn)
    rw [hn, Option.map_some] at hold
    obtain ⟨added, hnew, hadded⟩ := h.kept id _ hold
    have hlater : ∀ c ∈ added, t.size ≤ c.index := fun c hc => by
      have hle := hnew c hc
      rw [size_attach] at hle
      omega
    by_cases hid : id = place
    · refine ⟨⟨t.size⟩ :: added, ?_, ?_⟩
      · intro c hc
        rcases List.mem_cons.mp hc with rfl | hc
        · exact Nat.le_refl _
        · exact hlater c hc
      · rw [hadded, if_pos hid]
        exact congrArg (fun cs => some (Node.mk n.data n.parent cs)) (List.append_cons ..).symm
    · refine ⟨added, hlater, ?_⟩
      rw [hadded, if_neg hid]
  new := fun i name' hi => by
    cases i with
    | zero =>
      cases hi
      obtain ⟨added, _, hadded⟩ := h.kept _ _ (get?_attach_new t place _)
      exact ⟨place, _, hadded⟩
    | succ i =>
      obtain ⟨p, children, hnew⟩ := h.new i name' hi
      rw [size_attach, Nat.add_assoc, Nat.add_comm 1] at hnew
      exact ⟨p, children, hnew⟩

end Tree.Gained

/-! ## a round that leaves its token -/

/-- the document's mode is decided on or an element around the content is made, if anything is done
to the document at all; of what is open some may be closed -/
inductive Core.GoesOn (k : Core) : Core → Prop
  | keep {j : Core} (mode : DocumentMode) : j.tree = k.tree.setMode mode →
      (k.mode ≠ .initial → mode = k.tree.mode) → j.entries ⊆ k.entries →
      j.mode.missing = k.mode.missing → GoesOn k j
  | imply {j : Core} {place : NodeId} {name : String} :
      j.tree = k.tree.attach place (.element (.bare name .html)) →
      j.entries ⊆ ⟨k.tree.size⟩ :: k.entries →
      k.mode.missing = name :: j.mode.missing → GoesOn k j

/-- a token goes on as itself, or in the body as another one -/
structure Core.Onward (k : Core) (token t : Token) (j : Core) : Prop where
  token : t = token ∨ j.mode = .inBody
  /-- no text-only element is open -/
  mode : j.mode ≠ .text
  goesOn : k.GoesOn j

namespace Core

theorem GoesOn.same (ht : j.tree = k.tree) (he : j.entries ⊆ k.entries)
    (hm : j.mode.missing = k.mode.missing) : k.GoesOn j :=
  .keep k.tree.mode ht (fun _ => rfl) he hm

theorem GoesOn.spared (h : k.Spares i) (hg : i.GoesOn j) : k.GoesOn j := by
  cases hg with
  | keep mode ht hmode he hm =>
    rw [h.tree] at ht hmode
    rw [h.mode] at hmode hm
    exact .keep mode ht hmode (fun _ hid => h.entries (he hid)) hm
  | imply ht he hm =>
    rw [h.tree] at ht he
    rw [h.mode] at hm
    refine .imply ht (fun id hid => ?_) hm
    rcases List.mem_cons.mp (he hid) with rfl | hid
    · exact List.mem_cons_self
    · exact List.mem_cons_of_mem _ (h.entries hid)

theorem Onward.spared (h : k.Spares i) (ho : i.Onward token t j) : k.Onward token t j :=
  ⟨ho.token, ho.mode, ho.goesOn.spared h⟩

end Core

/-! ## the rules of every mode -/

theorem missDoctype_onward (hk : k.mode = .initial) :
    Anew (k.Onward token) (missDoctype token) k := by
  have hon : ∀ mode, k.Onward token token
      { k with tree := k.tree.setMode mode, mode := .beforeHtml } := fun mode =>
    ⟨Or.inl rfl, fun h => Mode.noConfusion h,
      .keep mode rfl (absurd hk) (fun _ h => h) (by rw [hk]; rfl)⟩
  refine .ask fun c hc => .ite (.parseErrorThen _ ?_) ?_
  · exact .doing ((setQuirks_does k).bind ((Does.switchTo _ _).bind (.value _ _))) (hon .quirks)
  · exact .doing ((Does.switchTo .beforeHtml k).bind (.value _ _)) (hon k.tree.mode)

theorem initialRules_onward (hk : k.mode = .initial) :
    Anew (k.Onward token) (initialRules token) k := by
  cases token with
  | character ch => exact .ite .done (missDoctype_onward hk)
  | comment data => exact .finished _
  | doctype d => exact .finished _
  | startTag _ | endTag _ | endOfFile => exact missDoctype_onward hk

theorem implyHtml_onward (h : k.In .beforeHtml) : Anew (k.Onward token) (implyHtml token) k :=
  .doing ((openDocumentElement_does h).bind (.value _ _))
    ⟨Or.inl rfl, fun h => Mode.noConfusion h, .imply rfl (fun _ h => h) (by rw [h.mode]; rfl)⟩

theorem beforeHtmlRules_onward (h : k.In .beforeHtml) :
    Anew (k.Onward token) (beforeHtmlRules token) k := by
  cases token with
  | doctype d => exact .finished _
  | comment data => exact .finished _
  | character ch => exact .ite .done (implyHtml_onward h)
  | startTag tag => exact .ite (.finished _) (implyHtml_onward h)
  | endTag name => exact .ite (implyHtml_onward h) (.finished _)
  | endOfFile => exact implyHtml_onward h

theorem implyHead_onward (h : k.In .beforeHead) : Anew (k.Onward token) (implyHead token) k := by
  obtain ⟨place, hp⟩ := h.exists_at (by decide) (by decide)
  exact .doing ((openHead_does (.insertImplied "head" hp)).bind (.value _ _))
    ⟨Or.inl rfl, fun h => Mode.noConfusion h, .imply rfl (fun _ h => h) (by rw [h.mode]; rfl)⟩

theorem beforeHeadRules_onward (h : k.In .beforeHead) :
    Anew (k.Onward token) (beforeHeadRules token) k := by
  cases token with
  | character ch => exact .ite .done (implyHead_onward h)
  | comment data => exact .finished _
  | doctype d => exact .finished _
  | startTag tag => exact .ite (.finished _) (.ite (.finished _) (implyHead_onward h))
  | endTag name => exact .ite (implyHead_onward h) (.finished _)
  | endOfFile => exact implyHead_onward h

/-- an element of the head is closed, and the token goes on -/
theorem leaveFor_onward {m' : Mode} (hk : k.mode = m) (hm : m'.missing = m.missing)
    (ht : m' ≠ .text) :
    Anew (k.Onward token) (leaveFor m' >>= fun _ => pure (.reprocess token)) k :=
  .doing ((leaveFor_does m' k).bind (.value _ _))
    ⟨Or.inl rfl, ht, .same rfl (List.tail_sublist _).subset (by rw [hk]; exact hm)⟩

theorem implyHeadEnd_onward (hk : k.mode = .inHead) :
    Anew (k.Onward token) (implyHeadEnd token) k := leaveFor_onward hk rfl (by decide)

theorem inHeadRules_onward (hk : k.mode = .inHead) :
    Anew (k.Onward token) (inHeadRules token) k := by
  cases token with
  | character ch => exact .ite .done (implyHeadEnd_onward hk)
  | comment data => exact .finished _
  | doctype d => exact .finished _
  | startTag tag =>
    refine .ask fun c _ => ?_
    split
    · exact .finished _
    · exact .ite (.finished _) (.ite (.finished _) (implyHeadEnd_onward hk))
  | endTag name =>
    exact .ite (.finished _) (.ite (.unsupported _) (.ite (implyHeadEnd_onward hk) (.finished _)))
  | endOfFile => exact implyHeadEnd_onward hk

theorem implyNoscriptEnd_onward (hk : k.mode = .inHeadNoscript) :
    Anew (k.Onward token) (implyNoscriptEnd token) k :=
  .parseErrorThen _ (leaveFor_onward hk rfl (by decide))

theorem inHeadNoscriptRules_onward (hk : k.mode = .inHeadNoscript) :
    Anew (k.Onward token) (inHeadNoscriptRules token) k := by
  cases token with
  | doctype d => exact .finished _
  | character ch => exact .ite .done (implyNoscriptEnd_onward hk)
  | comment data => exact .finished _
  | startTag tag =>
    exact .ite (.finished _) (.ite (.finished _) (.ite (.finished _) (implyNoscriptEnd_onward hk)))
  | endTag name => exact .ite (.finished _) (.ite (implyNoscriptEnd_onward hk) (.finished _))
  | endOfFile => exact implyNoscriptEnd_onward hk

theorem implyBody_onward (h : k.In .afterHead) : Anew (k.Onward token) (implyBody token) k := by
  obtain ⟨place, hp⟩ := h.exists_at (by decide) (by decide)
  exact .doing (implyBody_does hp)
    ⟨Or.inl rfl, fun h => Mode.noConfusion h, .imply rfl (fun _ h => h) (by rw [h.mode]; rfl)⟩

theorem afterHeadRules_onward (h : k.In .afterHead) :
    Anew (k.Onward token) (afterHeadRules token) k := by
  cases token with
  | character ch => exact .ite (.finished _) (implyBody_onward h)
  | comment data => exact .finished _
  | doctype d => exact .finished _
  | startTag tag =>
    exact .ite (.finished _) (.ite (.finished _) (.ite (.unsupported _)
      (.ite (.finished _) (.ite (.finished _) (implyBody_onward h)))))
  | endTag name => exact .ite (.unsupported _) (.ite (implyBody_onward h) (.finished _))
  | endOfFile => exact implyBody_onward h

/-- only an `image` tag goes on in the body -/
theorem bodyStartTag_onward (hk : k.mode = .inBody) :
    Anew (k.Onward (.startTag tag)) (bodyStartTag tag) k := by
  unfold bodyStartTag
  cases BodyStart.ofName tag.name with
  | unsupported => exact .unsupported _
  | image =>
    refine .parseErrorThen _ (.again ⟨Or.inr hk, ?_, .same rfl (fun _ h => h) rfl⟩)
    rw [hk]
    decide
  | _ => exact .finished _

theorem endHtml_onward (hk : k.mode = .inBody) : Anew (k.Onward (.endTag "html")) endHtml k := by
  refine .bind (closeBody_ends k) fun ended j hj => ?_
  cases ended with
  | false => exact .done
  | true =>
    refine .again ?_
    rw [hj]
    exact ⟨Or.inl rfl, fun h => Mode.noConfusion h, .same rfl (fun _ h => h) (by rw [hk]; rfl)⟩

theorem bodyEndTag_onward (hk : k.mode = .inBody) :
    Anew (k.Onward (.endTag name)) (bodyEndTag name) k := by
  unfold bodyEndTag
  cases hr : BodyEnd.ofName name with
  | template => exact .unsupported _
  | html =>
    have hn := mem_of_rule ["html"] hr (by decide) (by decide)
    rw [List.mem_singleton.mp hn]
    exact endHtml_onward hk
  | _ => exact .finished _

theorem inBodyRules_onward (hk : k.mode = .inBody) :
    Anew (k.Onward token) (inBodyRules token) k := by
  cases token with
  | startTag tag => exact bodyStartTag_onward hk
  | endTag name => exact bodyEndTag_onward hk
  | character _ | comment _ | doctype _ | endOfFile => exact .finished _

/-- only the end of the input leaves a text-only element for another round -/
theorem textRules_onward (hne : token ≠ .endOfFile) :
    Anew (k.Onward token) (textRules token) k := by
  cases token with
  | character ch => exact .finished _
  | endOfFile => exact absurd rfl hne
  | endTag name => exact .finished _
  | startTag _ | comment _ | doctype _ => exact .unsupported _

theorem backToBody_onward (hm : k.mode.isBody = true) :
    Anew (k.Onward token) (backToBody token) k := by
  refine .parseErrorThen _ (.doing ((Does.switchTo .inBody k).bind (.value _ _)) ?_)
  refine ⟨Or.inl rfl, fun h => Mode.noConfusion h, .same rfl (fun _ h => h) ?_⟩
  exact (Mode.missing_of_isBody hm).symm

theorem afterBodyRules_onward (hk : k.mode = .afterBody) :
    Anew (k.Onward token) (afterBodyRules token) k := by
  have hback : Anew (k.Onward token) (backToBody token) k := backToBody_onward (by rw [hk]; rfl)
  cases token with
  | character ch => exact .ite (.finished _) hback
  | comment data => exact .finished _
  | doctype d => exact .finished _
  | startTag tag => exact .ite (.finished _) hback
  | endTag name => exact .ite (.finished _) hback
  | endOfFile => exact .finished _

theorem afterAfterBodyRules_onward (hk : k.mode = .afterAfterBody) :
    Anew (k.Onward token) (afterAfterBodyRules token) k := by
  have hback : Anew (k.Onward token) (backToBody token) k := backToBody_onward (by rw [hk]; rfl)
  cases token with
  | character ch => exact .ite (.finished _) hback
  | comment data => exact .finished _
  | doctype d => exact .finished _
  | startTag tag => exact .ite (.finished _) hback
  | endTag name => exact hback
  | endOfFile => exact .finished _

/-! ## one round -/

theorem modeRules_onward (h : k.In m) (hne : token ≠ .endOfFile) :
    Anew (k.Onward token) (modeRules m token) k := by
  cases m with
  | initial => exact initialRules_onward h.mode
  | beforeHtml => exact beforeHtmlRules_onward h
  | beforeHead => exact beforeHeadRules_onward h
  | inHead => exact inHeadRules_onward h.mode
  | inHeadNoscript => exact inHeadNoscriptRules_onward h.mode
  | afterHead => exact afterHeadRules_onward h
  | inBody => exact inBodyRules_onward h.mode
  | text => exact textRules_onward hne
  | afterBody => exact afterBodyRules_onward h.mode
  | afterAfterBody => exact afterAfterBodyRules_onward h.mode
  | _ => exact (h.stack (by decide)).elim

/-- **A round that leaves its token** has done nothing to the document but to decide on its mode or
to make one of the elements around the content. -/
theorem dispatch_onward (h : k.In m) (hne : token ≠ .endOfFile) :
    Anew (k.Onward token) (dispatch token) k := by
  have hleads : Leads true token (foreignStage token) k _ := foreignStage_leads h
  have hstage := Ends.mono (hleads.and (HandsOn.foreignStage token k)) (fun _ _ hj => hj)
    fun _ _ _ => trivial
  refine .bind hstage fun v j hj => ?_
  cases v with
  | done => exact .done
  | toMode =>
    obtain ⟨⟨_, hin⟩, hspares⟩ := hj
    refine Ends.ofMode (hin rfl).mode (Ends.mono (modeRules_onward (hin rfl).toIn hne)
      (fun v i hv t ht => ?_) fun _ _ he => he)
    exact (hv t ht).spared (hspares rfl)

end HtmlTree
