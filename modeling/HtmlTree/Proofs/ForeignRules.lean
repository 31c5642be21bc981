import HtmlTree.Proofs.BodyRules

/-!
# Foreign content

The current node is an SVG or MathML element only from the body on: before it and in text-only
elements all that is open is HTML.  The rules for foreign content close foreign elements only, so
they leave alone what the rules of the mode rely on.

* `Core.In.isBody_of_foreign`   where a foreign element can be the current node;
* `closeTo_split`               the search for an end tag's element passes over foreign ones only;
* `foreignStage_leads`          what the rules for foreign content lead to, and what they leave to
                                the mode;
* `HandsOn`                     what they hand on to it has only lost open elements.
-/

namespace HtmlTree

variable {k : Core} {byBody : Bool} {token : Token} {tag : StartTag} {m : Mode} {id : NodeId}

/-! ## the current node -/

/-- an HTML element, by its name or by its kind -/
theorem Tree.isHtmlOneOf_eq_false_of_ns {t : Tree} {names : List String}
    (h : t.elementSatisfies (·.ns == .html) id = false) : t.isHtmlOneOf names id = false :=
  elementSatisfies_mono (fun e he => by rw [(Element.isHtmlOneOf_iff.mp he).1]; rfl) h

theorem Core.In.isBody_of_foreign (h : k.In m) (hid : k.entries.head? = some id)
    (hns : k.tree.elementSatisfies (·.ns == .html) id = false) : m.isBody = true := by
  have hno : ∀ {names : List String}, k.tree.Spells names k.entries → False := fun hs => by
    obtain ⟨name, _, hname⟩ := hs.mem (List.mem_of_mem_head? hid)
    have hone := Tree.isHtmlOneOf_of_isHtml hname (List.mem_singleton_self name)
    rw [Tree.isHtmlOneOf_eq_false_of_ns hns] at hone
    cases hone
  by_cases hm : m = .text
  · obtain ⟨x, _, _, he, _, _, ht, _⟩ := h.fits.text hm
    rw [he] at hid
    cases hid
    rw [Tree.isHtmlOneOf_eq_false_of_ns hns] at ht
    cases ht
  · have hs := h.stack hm
    cases m <;> first
      | rfl
      | exact absurd rfl hm
      | exact hs.elim
      | exact (hno hs).elim
      | skip
    all_goals
      rw [show k.entries = [] from hs] at hid
      cases hid

/-- what does not end foreign content is foreign -/
theorem Tree.foreign_of_inside {t : Tree}
    (h : t.elementSatisfies (fun e => !e.endsForeignContent) id = true) :
    t.elementSatisfies (·.ns == .html) id = false := by
  unfold elementSatisfies at *
  cases he : t.element? id with
  | none => rfl
  | some e =>
    rw [he] at h
    have hend : (!e.endsForeignContent) = true := h
    show (e.ns == .html) = false
    rw [← Bool.not_eq_true]
    intro hns
    unfold Element.endsForeignContent at hend
    rw [hns] at hend
    cases hend

/-! ## the search of an end tag -/

/-- where the search arrives it has passed over foreign elements only -/
theorem closeTo_split {isNamed isHtml : NodeId → Bool} {ids outside : List NodeId}
    (hid : ∀ x ∈ ids.head?, isHtml x = false)
    (h : foreignEndSearch isNamed isHtml ids = .closeTo outside) :
    ∃ inside, ids = inside ++ outside ∧ ∀ x ∈ inside, isHtml x = false := by
  fun_induction foreignEndSearch isNamed isHtml ids with
  | case1 => cases h
  | case2 => cases h
  | case3 x outer r hx =>
    cases h
    refine ⟨[x], rfl, fun y hy => ?_⟩
    rw [List.mem_singleton.mp hy]
    exact hid x rfl
  | case4 x outer r hx ho => cases h
  | case5 x outer r hx ho ih =>
    obtain ⟨inside, he, hin⟩ := ih (fun y hy => by cases hy; exact Bool.eq_false_iff.mpr ho) h
    refine ⟨x :: inside, by rw [he, List.cons_append], fun y hy => ?_⟩
    rcases List.mem_cons.mp hy with rfl | hy
    · exact hid _ rfl
    · exact hin y hy

/-- the first entry that stays lacks the property of those that go -/
theorem mem_head?_dropWhile {p : NodeId → Bool} {ids : List NodeId}
    (h : id ∈ (ids.dropWhile p).head?) : id ∈ ids ∧ p id = false := by
  refine ⟨(List.dropWhile_sublist p).subset (List.mem_of_mem_head? h), ?_⟩
  have hnot := List.head?_dropWhile_not p ids
  rw [Option.mem_def.mp h] at hnot
  exact hnot

/-! ## rules -/

theorem Leads.finishedForeign {x : Step Unit} {Q : Unit → Core → Prop}
    (h : Leads byBody token x k Q) : Leads byBody token (HtmlTree.finishedForeign x) k
      fun v k' => v = .toMode → k'.Meets m token :=
  h.bind fun _ _ _ _ => .value fun hv => ForeignVerdict.noConfusion hv

/-- foreign elements are closed -/
theorem Move.dropForeign (inside rest : List NodeId) (hm : k.mode.isBody = true)
    (he : k.entries = inside ++ rest)
    (hin : ∀ x ∈ inside, k.tree.elementSatisfies (·.ns == .html) x = false) :
    Move byBody token k { k with entries := rest } :=
  .drop inside hm he fun x hx => Tree.isHtmlOneOf_eq_false_of_ns (hin x hx)

/-- where foreign content ends the rules of the mode may get any token -/
theorem Element.receives_of_ends {e : Element} (h : e.endsForeignContent = true) (token : Token) :
    e.receives token = true := by
  unfold receives
  split <;> simp only [h, Bool.true_or, Bool.or_true]

theorem Element.receives_endTag (e : Element) {name : String} (hn : ¬(name = "br" ∨ name = "p")) :
    e.receives (.endTag name) = true := by
  obtain ⟨hbr, hp⟩ := not_or.mp hn
  show (!(name == "br" || name == "p") || e.endsForeignContent) = true
  rw [beq_false_of_ne hbr, beq_false_of_ne hp]
  rfl

theorem breakOut_leads {kind : ParseErrorKind} (h : k.In m) (hm : m.isBody = true) :
    Leads byBody token (breakOut kind) k fun v k' => v = .toMode → k'.Meets m token := by
  have hpop : Does (modify fun c =>
      let foreign := c.tree.elementSatisfies fun e => !e.endsForeignContent
      { c with openElements := c.openElements.popWhile foreign }) k ()
      (let foreign := k.tree.elementSatisfies fun e => !e.endsForeignContent
      { k with entries := k.entries.dropWhile foreign }) := .change <| by
    rintro c rfl
    rfl
  have hmove : Move byBody token k _ := .dropForeign _ _ (by rw [h.mode, hm])
    List.takeWhile_append_dropWhile.symm fun x hx =>
      Tree.foreign_of_inside (List.mem_takeWhile_imp hx)
  refine .parseErrorThen _ (.doThen hpop (.one hmove) (.value fun _ => ?_))
  refine ⟨h.after (.one hmove) rfl rfl, fun id hid => ?_⟩
  obtain ⟨hmem, hends⟩ := mem_head?_dropWhile hid
  obtain ⟨e, he⟩ := Option.isSome_iff_exists.mp
    ((k.tree.element?_isSome id).trans (h.sound.bears.element id hmem))
  unfold Tree.elementSatisfies at hends
  rw [he, Option.any_some, Bool.not_eq_false'] at hends
  exact Tree.elementSatisfies_iff.mpr ⟨e, he, Element.receives_of_ends hends token⟩

theorem foreignEndTag_leads {name : String} (h : k.In m) (hm : m.isBody = true)
    (hid : k.entries.head? = some id)
    (hns : k.tree.elementSatisfies (·.ns == .html) id = false) (hk : k.Meets m token) :
    Leads byBody token (foreignEndTag name) k fun v k' => v = .toMode → k'.Meets m token := by
  refine .ask fun _ _ => .complainThen _ (.ask fun c hc => ?_)
  subst hc
  dsimp only
  split
  · exact .value fun hv => ForeignVerdict.noConfusion hv
  · rename_i outside hsearch
    obtain ⟨inside, he, hin⟩ := closeTo_split (fun x hx => by
      rw [show c.openElements.entries.head? = some id from hid] at hx
      cases hx
      exact hns) hsearch
    refine .doThen (Does.change fun d hd => ?_)
      (.one (.dropForeign inside outside (by rw [h.mode, hm]) he hin))
      (.value fun hv => ForeignVerdict.noConfusion hv)
    exact congrArg (fun j : Core => { j with entries := outside }) hd
  · exact .value fun _ => hk

theorem foreignCharacter_leads {ch : Char} (h : k.In m) (hm : m.isBody = true) (hp : k.At id)
    (ht : token.isCharacter = true) :
    Leads byBody token (foreignCharacter ch) k fun _ _ => True := by
  refine .ite (fun _ => .parseErrorThen _ ?_) fun _ => ?_
  · exact .insertText _ ht (h.takesText hm _) hp fun _ => trivial
  · have htext : Leads byBody token (insertText ch) k fun _ _ => True :=
      .insertText ch ht (h.takesText hm ch) hp fun _ => trivial
    refine htext.bind fun _ _ _ _ => ?_
    exact .ite (fun _ => .doing (.framesetNotOk _) (.refl _) trivial) fun _ => .value trivial

/-- an open foreign element is in another one -/
theorem Core.In.exists_outer (h : k.In m) {e : Element} (hm : m.isBody = true)
    (hid : k.entries.head? = some id) (he : k.tree.element? id = some e) (hne : e.ns ≠ .html) :
    ∃ outer rest, k.entries = id :: outer :: rest := by
  obtain ⟨outside, hs⟩ := List.head?_eq_some_iff.mp hid
  have hlast : k.entries.getLast? = some id → _ := (h.stack (Mode.isBody_facts hm).1).getLast?
  rw [hs] at hlast
  cases outside with
  | nil =>
    obtain ⟨f, hf, hns, _⟩ := Tree.exists_of_isHtml (hlast rfl)
    cases he.symm.trans hf
    exact absurd hns hne
  | cons outer rest => exact ⟨outer, rest, hs⟩

/-- the element around an open foreign one may hold it -/
theorem Core.In.exists_holder (h : k.In m) {e : Element} (hm : m.isBody = true)
    (hid : k.entries.head? = some id) (he : k.tree.element? id = some e) (hne : e.ns ≠ .html) :
    ∃ p : Element, p.mayHold e = true := by
  obtain ⟨outer, rest, hs⟩ := h.exists_outer hm hid he hne
  have hnested := h.sound.nested
  rw [hs] at hnested
  obtain ⟨p, _, hp⟩ := Tree.elementSatisfies_iff.mp ((hnested.1 e he).parent outer rfl)
  exact ⟨p, hp⟩

/-- a foreign element has room in its own namespace -/
theorem Core.In.foreignRoom (h : k.In m) {e : Element} (hm : m.isBody = true)
    (hid : k.entries.head? = some id) (he : k.tree.element? id = some e) (hne : e.ns ≠ .html) :
    k.tree.HasRoom k.entries (.ofForeignTag tag e.ns) := by
  refine .ofForeign hne fun x hx => ?_
  rw [hid] at hx
  cases hx
  refine Tree.elementSatisfies_iff.mpr ⟨e, he, ?_⟩
  obtain ⟨p, hp⟩ := h.exists_holder hm hid he hne
  rcases Element.ns_of_mayHold hp with hns | hns | hns
  · exact absurd hns hne
  · rw [hns, Element.mayHold_of_svg rfl, hns, beq_self_eq_true, Bool.true_or]
  · rw [hns, Element.mayHold_of_mathMl rfl, hns, beq_self_eq_true, Bool.true_or]

theorem foreignRules_leads {e : Element} (h : k.In m) (hp : k.At id)
    (he : k.tree.element? id = some e) (hne : e.ns ≠ .html) :
    Leads byBody token (foreignRules e.ns token) k fun v k' => v = .toMode → k'.Meets m token := by
  have hns : k.tree.elementSatisfies (·.ns == .html) id = false := by
    unfold Tree.elementSatisfies
    rw [he, Option.any_some, beq_false_of_ne hne]
  have hm := h.isBody_of_foreign hp.current hns
  have hbody : k.mode.isBody = true := by rw [h.mode, hm]
  have hkept : e.receives token = true → k.Meets m token := fun hr => ⟨h, fun x hx => by
    rw [hp.current] at hx
    cases hx
    exact Tree.elementSatisfies_iff.mpr ⟨e, he, hr⟩⟩
  unfold foreignRules
  split
  · exact (foreignCharacter_leads h hm hp rfl).finishedForeign
  · exact (insertComment_leads h (Mode.isBody_facts hm).1 hp).finishedForeign
  · exact Leads.finishedForeign (Q := fun _ _ => True) (.parseError _ trivial)
  · refine .ite (fun _ => breakOut_leads h hm) fun hstay => ?_
    have hstay := Bool.eq_false_iff.mpr hstay
    exact (insertForeign_leads hbody hp hne hstay
      (h.foreignRoom hm hp.current he hne)).finishedForeign
  · refine .ite (fun _ => breakOut_leads h hm) fun hname => .ask fun c hc => ?_
    refine .ite (fun _ => ?_) fun _ =>
      foreignEndTag_leads h hm hp.current hns (hkept (e.receives_endTag hname))
    obtain ⟨rest, he⟩ : ∃ rest, k.entries = id :: rest := List.head?_eq_some_iff.mp hp.current
    have hpop := Does.popElement k
    rw [he] at hpop
    refine Leads.finishedForeign (Q := fun _ _ => True) (.doing hpop (.one ?_) trivial)
    exact .dropForeign [id] rest hbody he fun x hx => by rw [List.mem_singleton.mp hx, hns]
  · exact .value fun _ => hkept rfl

/-- the rules for foreign content are met in a foreign element -/
theorem foreignNamespace?_eq_some {c : Constructor} {ns : Namespace}
    (h : c.foreignNamespace? token = some ns) : ∃ id e, c.core.entries.head? = some id ∧
      c.core.tree.element? id = some e ∧ e.ns = ns ∧ e.ns ≠ .html := by
  unfold Constructor.foreignNamespace? at h
  split at h
  · rename_i e he
    obtain ⟨id, hid, hel⟩ := Option.bind_eq_some_iff.mp he
    split_ifs at h with hns
    cases h
    rw [Bool.or_eq_true, not_or, decide_eq_true_eq] at hns
    exact ⟨id, e, hid, hel, rfl, hns.1⟩
  · cases h

/-- what a foreign element takes as HTML the rules of the mode may get there -/
theorem Element.receives_of_takesAsHtml {e : Element} (h : e.takesAsHtml token = true) :
    e.receives token = true := by
  cases token with
  | startTag tag =>
    rw [receives_startTag]
    unfold endsForeignContent
    unfold takesAsHtml at h
    rcases Bool.or_eq_true_iff.mp h with h | h
    · rcases Bool.or_eq_true_iff.mp h with h | h
      · rw [Bool.and_eq_true, Bool.and_eq_true] at h
        rw [h.1.1, Bool.or_true, Bool.true_or, Bool.true_or]
      · rw [show (e.isAnnotation && tag.name == "svg") = true from h, Bool.or_true]
    · rw [h, Bool.or_true, Bool.true_or]
  | endTag => cases h
  | _ => rfl

/-- where the rules for foreign content are not met the rules of the mode may get the token -/
theorem receives_of_not_foreign {c : Constructor} (h : c.foreignNamespace? token = none) :
    ∀ id ∈ c.core.entries.head?, ∀ e, c.core.tree.element? id = some e →
      e.receives token = true := by
  intro id hid e he
  have hcur : c.currentElement? = some e := Option.bind_eq_some_iff.mpr ⟨id, hid, he⟩
  unfold Constructor.foreignNamespace? at h
  rw [hcur] at h
  dsimp only at h
  split_ifs at h with hor
  rcases Bool.or_eq_true_iff.mp hor with hns | htakes
  · exact Element.receives_of_ends (Element.endsForeignContent_of_html (of_decide_eq_true hns)) token
  · exact Element.receives_of_takesAsHtml htakes

/-- **What the rules for foreign content lead to.** -/
theorem foreignStage_leads (h : k.In m) :
    Leads byBody token (foreignStage token) k fun v k' => v = .toMode → k'.Meets m token := by
  refine .ask fun c hc => ?_
  subst hc
  split
  · rename_i ns hforeign
    obtain ⟨id, e, hid, he, rfl, hne⟩ := foreignNamespace?_eq_some hforeign
    exact foreignRules_leads h (h.sound.at hid) he hne
  · rename_i hnone
    refine .value fun _ => ⟨h, fun id hid => ?_⟩
    obtain ⟨e, he⟩ := Option.isSome_iff_exists.mp
      ((c.core.tree.element?_isSome id).trans (h.sound.current hid))
    exact Tree.elementSatisfies_iff.mpr ⟨e, he, receives_of_not_foreign hnone id hid e he⟩

/-! ## what is handed on -/

/-- what the step leaves to the rules of the mode has only lost open elements; this is so in any
state -/
def HandsOn (x : Step ForeignVerdict) (k : Core) : Prop :=
  Ends x k (fun v j => v = .toMode → k.Spares j) fun _ _ => True

namespace HandsOn

theorem finishedForeign (x : Step Unit) : HandsOn (finishedForeign x) k :=
  Ends.bind (Ends.any x k) fun _ _ _ => Ends.value fun h => ForeignVerdict.noConfusion h

theorem parseErrorThen {f : Unit → Step ForeignVerdict} (kind : ParseErrorKind)
    (hf : HandsOn (f ()) k) : HandsOn (parseError kind >>= f) k :=
  Ends.parseErrorThen kind hf fun _ _ => trivial

theorem complainThen {p : Prop} [Decidable p] {y : Step ForeignVerdict} (kind : ParseErrorKind)
    (hy : HandsOn y k) : HandsOn (if p then parseError kind >>= fun _ => y else y) k := by
  split
  · exact parseErrorThen kind hy
  · exact hy

theorem breakOut (kind : ParseErrorKind) : HandsOn (breakOut kind) k := by
  refine parseErrorThen kind (Ends.bind (P := fun _ j => k.Spares j) ?_ fun _ _ hj =>
    Ends.value fun _ => hj)
  refine Ends.change fun c hc => ?_
  rw [← hc]
  exact .closed c.core (List.dropWhile_sublist _).subset

theorem foreignEndTag (name : String) : HandsOn (foreignEndTag name) k := by
  refine Ends.ask fun _ _ => complainThen _ (Ends.ask fun c _ => ?_)
  dsimp only
  split
  · exact Ends.value fun h => ForeignVerdict.noConfusion h
  · exact finishedForeign _
  · exact Ends.value fun _ => .refl k

theorem foreignRules (ns : Namespace) (token : Token) : HandsOn (foreignRules ns token) k := by
  unfold HtmlTree.foreignRules
  split
  · exact finishedForeign _
  · exact finishedForeign _
  · exact finishedForeign _
  · split
    · exact breakOut _
    · exact finishedForeign _
  · split
    · exact breakOut _
    · refine Ends.ask fun c _ => ?_
      split
      · exact finishedForeign _
      · exact foreignEndTag _
  · exact Ends.value fun _ => .refl k

theorem foreignStage (token : Token) (k : Core) : HandsOn (foreignStage token) k := by
  refine Ends.ask fun c _ => ?_
  split
  · exact foreignRules _ _
  · exact Ends.value fun _ => .refl k

end HandsOn

end HtmlTree
