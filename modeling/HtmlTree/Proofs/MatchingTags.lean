import HtmlTree.Proofs.EndOfInput
import HtmlTree.Proofs.FirstValues

/-!
# Start and end tags of foreign elements

The name of an SVG element may get capitals back that its start tag did not have.  The end tag is
compared with the small letters of the name, which are those of the start tag, and the rules for
foreign content take it in every mode.  So an end tag of the same name closes what its start tag has
opened.

* `lower_adjustTagName`        a name in small letters is found again behind the adjusted one;
* `Moves.foreign_new`          the foreign elements that a token may have made;
* `Constructor.InForeign`      the current node is a foreign element that an end tag is meant for;
* `InForeign.foreignStage`, `InForeign.run`   such an end tag closes it;
* `Moves.inForeign`            where a start tag has made the current node this is so;
* `foreign_tags_match`         **the end tag undoes what the start tag did to the stack**.
-/

namespace HtmlTree

variable {byBody : Bool} {token : Token} {tag : StartTag} {k k' : Core} {id outer : NodeId}
  {rest : List NodeId} {e : Element} {name : String} {ns : Namespace} {m : Mode}

/-! ## names -/

/-- a name without capitals of ASCII -/
def Text.IsSmall (name : String) : Prop := ∀ ch ∈ name.toList, ch.isUpper = false

instance (name : String) : Decidable (Text.IsSmall name) :=
  List.decidableBAll (fun ch : Char => ch.isUpper = false) name.toList

theorem Text.IsSmall.lower_eq (h : Text.IsSmall name) : Text.lower name = name := by
  have hkept : ∀ ch ∈ name.toList, ch.toLower = ch := fun ch hch =>
    dif_neg fun hcapital => Bool.false_ne_true ((h ch hch).symm.trans (decide_eq_true hcapital))
  unfold Text.lower
  rw [List.map_congr_left hkept, List.map_id', String.ofList_toList]

theorem lower_restoreCase (table : List String) (h : Text.IsSmall name) :
    Text.lower (restoreCase table name) = name := by
  unfold restoreCase
  cases hfound : table.find? fun n => Text.lower n == name with
  | none => exact h.lower_eq
  | some n =>
    have hname := List.find?_some hfound
    exact eq_of_beq hname

/-- **The small letters of an adjusted name are the name.** -/
theorem lower_adjustTagName (ns : Namespace) (h : Text.IsSmall name) :
    Text.lower (adjustTagName ns name) = name := by
  unfold adjustTagName
  split
  · exact lower_restoreCase svgTagNames h
  · exact h.lower_eq

/-! ## new foreign elements -/

/-- a foreign element for a start tag that does not leave foreign content -/
def Token.MakesForeign (token : Token) (e : Element) : Prop :=
  ∃ tag, token = .startTag tag ∧ tag.breaksOut = false ∧ e.localName = adjustTagName e.ns tag.name

theorem Token.Makes.foreign_of_ns (h : token.Makes e) (hns : e.ns ≠ .html) :
    token.MakesForeign e := by
  cases h with
  | tag _ => exact absurd rfl hns
  | implied _ => exact absurd rfl hns
  | foreign ht _ hstay =>
    rcases ht with ht | ⟨other, _, _, ht⟩
    · exact ⟨_, ht.symm, hstay, rfl⟩
    · -- an `img` tag leaves foreign content
      cases ht
      exact absurd hstay (by simp [StartTag.breaksOut, breakoutNames])

/-- a foreign element made on the way was made for a start tag -/
theorem Moves.foreign_new (h : Moves byBody token k k') (hid : k.tree.size ≤ id.index)
    (he : k'.tree.element? id = some e) (hns : e.ns ≠ .html) : token.MakesForeign e := by
  refine h.new_satisfies (P := fun e => e.ns ≠ .html → token.MakesForeign e)
    (fun _ hmakes => hmakes.foreign_of_ns) (fun tag f _ hname _ hf => ?_) hid he hns
  exact absurd (Element.isHtml_iff.mp hname).1 hf

/-! ## the end tag -/

namespace Constructor
variable {c d : Constructor}

/-- the current node is a foreign element inside another element, and an end tag of `name` is meant
for it -/
structure InForeign (c : Constructor) (name : String) (id outer : NodeId) (rest : List NodeId)
    (e : Element) : Prop where
  entries : c.openElements.entries = id :: outer :: rest
  element : c.tree.element? id = some e
  foreign : e.ns ≠ .html
  named : Text.lower e.localName = name
  stays : ¬(name = "br" ∨ name = "p")

/-- the stack after the current node was closed -/
def closedTo (c : Constructor) (outside : List NodeId) : Constructor :=
  { c with openElements := ⟨outside⟩ }

theorem InForeign.currentElement? (h : c.InForeign name id outer rest e) :
    c.currentElement? = some e := by
  unfold Constructor.currentElement? OpenElements.current?
  rw [h.entries]
  exact h.element

/-- the search ends where it begins -/
theorem InForeign.foreignEndTag (h : c.InForeign name id outer rest e) :
    (foreignEndTag name).run c = (.ok .done, c.closedTo (outer :: rest)) := by
  have hmatches : e.hasSmallName name = true := beq_iff_eq.mpr h.named
  have hnamed : c.tree.elementSatisfies (Element.hasSmallName name) id = true :=
    Tree.elementSatisfies_iff.mpr ⟨e, h.element, hmatches⟩
  have hsearch : ∀ isHtml, foreignEndSearch (c.tree.elementSatisfies (Element.hasSmallName name))
      isHtml (id :: outer :: rest) = .closeTo (outer :: rest) := fun _ => if_pos hnamed
  unfold HtmlTree.foreignEndTag
  rw [Step.run_get_bind, h.currentElement?, Option.any_some, hmatches]
  show (get >>= _ : Step ForeignVerdict).run c = _
  rw [Step.run_get_bind, h.entries]
  dsimp only
  rw [hsearch]
  rfl

/-- **The rules for foreign content close the current node**, in whatever mode. -/
theorem InForeign.foreignStage (h : c.InForeign name id outer rest e) :
    (foreignStage (.endTag name)).run c = (.ok .done, c.closedTo (outer :: rest)) := by
  have hns : c.foreignNamespace? (.endTag name) = some e.ns := by
    have htakes : e.takesAsHtml (.endTag name) = false := rfl
    unfold Constructor.foreignNamespace?
    rw [h.currentElement?]
    dsimp only
    rw [htakes, Bool.or_false, decide_eq_false h.foreign]
    rfl
  unfold HtmlTree.foreignStage
  rw [Step.run_get_bind, hns]
  show (foreignRules e.ns (.endTag name)).run c = _
  rw [foreignRules, if_neg h.stays, Step.run_get_bind]
  split
  · -- the end of a script closes the current node unasked
    show (Except.ok ForeignVerdict.done, { c with openElements := c.openElements.pop }) = _
    rw [closedTo, OpenElements.pop, h.entries]
    rfl
  · exact h.foreignEndTag

theorem InForeign.process (h : c.InForeign name id outer rest e) :
    c.process (.endTag name) =
      (.ok (), ((c.begun (.endTag name)).closedTo (outer :: rest)).counted) := by
  have hbegun : (c.begun (.endTag name)).InForeign name id outer rest e := { h with }
  have hdispatch : (dispatch (.endTag name)).run (c.begun (.endTag name)) = (.ok .done, _) :=
    Step.run_bind_ok hbegun.foreignStage
  have hrounds : (processWithin maxRounds (.endTag name)).run (c.begun (.endTag name)) =
      (.ok (), (c.begun (.endTag name)).closedTo (outer :: rest)) := Step.run_bind_ok hdispatch
  have hskip : c.skips (.endTag name) = false := Bool.and_false _
  rw [process_of_not_skips hskip]
  dsimp only
  rw [processToken, Step.run_bind_ok hrounds, checkSelfClosing_run]
  rfl

/-- **An end tag for the current node closes it and does nothing else.** -/
theorem InForeign.run (h : c.InForeign name id outer rest e) (hs : c.stopped = false) :
    let s := c.run [.endTag name]
    s.outcome = .ok () ∧ s.remaining = [] ∧ s.constructor.errors = c.errors ∧
      s.constructor.tree = c.tree ∧ s.constructor.mode = c.mode ∧
      c.openElements.entries = id :: s.constructor.openElements.entries := by
  intro s
  have hrun : c.run [.endTag name] = _ := run_cons_ok hs (congrArg Prod.fst h.process)
  have hnext : s.constructor = c.next (.endTag name) := congrArg Run.constructor hrun
  have hcore := c.next_core (.endTag name)
  have herrors := (takeRequest_fields (c.process (.endTag name)).2).2.2.2
  rw [h.process] at hcore herrors
  rw [hnext]
  refine ⟨congrArg Run.outcome hrun, congrArg Run.remaining hrun, ?_, congrArg Core.tree hcore,
    congrArg Core.mode hcore, ?_⟩
  · rw [next, h.process]
    exact herrors
  · rw [show (c.next (.endTag name)).openElements.entries = _ from congrArg Core.entries hcore]
    exact h.entries

end Constructor

/-- a start tag that leaves a new foreign element as the current node -/
theorem Moves.inForeign {c d : Constructor} (h : Moves byBody (.startTag tag) c.core d.core)
    (hd : d.core.In m) (hsmall : Text.IsSmall tag.name)
    (hcurrent : d.openElements.current? = some id) (hnew : c.tree.size ≤ id.index)
    (he : d.tree.element? id = some e) (hns : e.ns ≠ .html) :
    ∃ outer rest, d.InForeign tag.name id outer rest e := by
  have hforeign : d.core.tree.elementSatisfies (·.ns == .html) id = false := by
    unfold Tree.elementSatisfies
    rw [show d.core.tree.element? id = some e from he, Option.any_some, beq_false_of_ne hns]
  have hbody := hd.isBody_of_foreign hcurrent hforeign
  obtain ⟨outer, rest, hentries⟩ := hd.exists_outer hbody hcurrent he hns
  obtain ⟨_, ht, hstay, hname⟩ := h.foreign_new hnew he hns
  cases ht
  refine ⟨outer, rest, hentries, he, hns, by rw [hname, lower_adjustTagName _ hsmall], ?_⟩
  rintro (hn | hn) <;> simp [StartTag.breaksOut, breakoutNames, hn] at hstay

/-! ## after any calls -/

namespace Constructor
variable {c : Constructor}

/-- where a token has made something it was taken -/
theorem run_one (h : c.core.Sound) (hne : token ≠ .endOfFile)
    (hok : (c.run [token]).outcome = .ok ()) (hnew : c.tree.size ≤ id.index)
    (he : (c.run [token]).constructor.tree.element? id = some e) :
    c.stopped = false ∧ (c.run [token]).constructor = c.next token ∧
      (c.next token).core.In (c.next token).mode := by
  cases hs : c.stopped with
  | true =>
    rw [run_of_stopped hs] at he
    exact absurd (Tree.index_lt_of_element? he) (Nat.not_lt.mpr hnew)
  | false =>
    have hcore := c.next_core token
    have hsound : (c.next token).core.Sound := by
      rw [hcore]
      exact (process_reports h hs token).sound
    have hactive : (c.next token).stopped = false :=
      (congrArg Core.stopped hcore).trans (process_active h hs hne)
    refine ⟨rfl, ?_, in_mode hsound hactive⟩
    cases ho : (c.process token).1 with
    | error f =>
      rw [run_cons_error hs ho] at hok
      cases hok
    | ok _ =>
      rw [run_cons_ok hs ho]
      rfl

end Constructor

/-- **The end tag of a foreign element undoes what its start tag did to the stack.**  After any calls
a start tag is taken whose name has no capitals of ASCII, and its new SVG or MathML element is the
current node.  Then an end tag of the same name is taken in whatever mode that is; it closes just this
element, reports nothing and leaves document and mode as they are. -/
theorem foreign_tags_match (options : Options) (calls : List Call) (tag : StartTag)
    (hsmall : Text.IsSmall tag.name) :
    let c := (Constructor.new options).after calls
    let r := c.run [.startTag tag]
    ∀ id e, r.outcome = .ok () → r.constructor.openElements.current? = some id →
      c.tree.size ≤ id.index → r.constructor.tree.element? id = some e →
      e.ns = .svg ∨ e.ns = .mathMl →
      let s := r.constructor.run [.endTag tag.name]
      s.outcome = .ok () ∧ s.remaining = [] ∧ s.constructor.errors = r.constructor.errors ∧
        s.constructor.tree = r.constructor.tree ∧ s.constructor.mode = r.constructor.mode ∧
        r.constructor.openElements.entries = id :: s.constructor.openElements.entries := by
  intro c r id e hok hcurrent hnew he hns
  have hsound : c.core.Sound := Constructor.after_sound options calls
  obtain ⟨hs, hr, hin⟩ := Constructor.run_one hsound Token.noConfusion hok hnew he
  have hforeign : e.ns ≠ .html := by
    rcases hns with hns | hns <;> rw [hns] <;> decide
  have hmoves := (Constructor.process_leads (Constructor.in_mode hsound hs) (.startTag tag)).1
  rw [← c.next_core] at hmoves
  rw [show r.constructor = c.next (.startTag tag) from hr] at hcurrent he
  obtain ⟨outer, rest, hopen⟩ := hmoves.inForeign hin hsmall hcurrent hnew he hforeign
  rw [show r.constructor = c.next (.startTag tag) from hr]
  exact hopen.run hin.active

/-- an element whose content is HTML again, under its name with a capital -/
theorem foreign_tags_match_foreignObject :
    let tag : StartTag := ⟨"foreignobject", false, []⟩
    let c := (Constructor.new .default).after [.run [.startTagNamed "svg"]]
    let r := c.run [.startTag tag]
    let s := r.constructor.run [.endTag tag.name]
    Text.IsSmall tag.name ∧ r.outcome = .ok () ∧
      r.constructor.openNames = ["html", "body", "svg svg", "svg foreignObject"] ∧
      s.outcome = .ok () ∧ s.remaining = [] ∧ s.constructor.errors = r.constructor.errors ∧
      s.constructor.tree = r.constructor.tree ∧ s.constructor.mode = r.constructor.mode ∧
      r.constructor.openElements.entries = ⟨5⟩ :: s.constructor.openElements.entries := by
  have hok : (((Constructor.new .default).after [.run [.startTagNamed "svg"]]).run
      [.startTag ⟨"foreignobject", false, []⟩]).outcome = .ok () := by decide +kernel
  have h := foreign_tags_match .default [.run [.startTagNamed "svg"]] ⟨"foreignobject", false, []⟩
    (by decide) ⟨5⟩ (.bare "foreignObject" .svg) hok (by decide +kernel) (by decide +kernel)
    (by decide +kernel) (.inl rfl)
  exact ⟨by decide, hok, by decide +kernel, h⟩

end HtmlTree
