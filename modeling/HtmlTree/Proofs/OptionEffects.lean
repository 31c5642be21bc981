import HtmlTree.Proofs.Alike

/-!
# What options have an effect on

Two of the options are asked in a few places only.  Whether scripts run matters to `noscript` start
tags and to nothing else.  Whether the document is the source of an `iframe` decides the document's
mode and if a missing doctype is an error, and no later rule looks at either.

* `Run.ending`         a run, and the end of the input behind it;
* `options_confined`   **what two runs with different options still have in common**.
-/

namespace HtmlTree

/-- the run, and behind it the end of the input if that is wanted, also where the run failed -/
def Run.ending (r : Run) (ends : Bool) : Run :=
  if ends then { r with outcome := r.constructor.finish.1, constructor := r.constructor.finish.2 }
  else r

section
variable {shows : ParseError → Option ParseError} {r r' : Run}

theorem OutcomesAlike.eq {α : Type} {o o' : Except Failure α} (hn : ¬Unnumbered shows)
    (h : OutcomesAlike shows o o') : o' = o := by
  cases h with
  | same => rfl
  | parse e i hi =>
    rcases hi with rfl | hshows
    · rfl
    · exact absurd hshows hn

theorem SameCourse.ending (h : SameCourse shows r r') (hs : r.constructor.core.Sound)
    (ends : Bool) : SameCourse shows (r.ending ends) (r'.ending ends) := by
  cases ends with
  | false => exact h
  | true =>
    obtain ⟨ho, hl⟩ := Constructor.finish_level hs h.level
    exact ⟨ho, hl, h.requests, h.remaining⟩

end

/-- two new constructors that are level, and the same tokens for both -/
theorem Constructor.ending_sameCourse {shows : ParseError → Option ParseError} {o o' : Options}
    (h : (new o).Level shows (new o')) (tokens : List Token)
    (hn : ∀ token ∈ tokens, token.StartsNoscript → o'.scripting = o.scripting) (ends : Bool) :
    SameCourse shows (((new o).run tokens).ending ends) (((new o').run tokens).ending ends) :=
  (run_sameCourse (new_sound o) h hn).ending (run_reports (new_sound o) tokens).sound ends

theorem Run.ending_options (o : Options) (tokens : List Token) (ends : Bool) :
    (((Constructor.new o).run tokens).ending ends).constructor.options = o := by
  have hrun : ((Constructor.new o).run tokens).constructor.options = o :=
    (Constructor.run_grows (.new o) tokens).options
  cases ends with
  | false => exact hrun
  | true => exact (Constructor.finish_grows _).options.trans hrun

/-- without `noscript` start tags it makes no difference whether scripts run -/
theorem scripting_confined (strict iframeSrcdoc : Bool) {tokens : List Token}
    (hn : ∀ tag, Token.startTag tag ∈ tokens → tag.name ≠ "noscript") (ends : Bool) :
    let r := ((Constructor.new ⟨strict, false, iframeSrcdoc⟩).run tokens).ending ends
    let r' := ((Constructor.new ⟨strict, true, iframeSrcdoc⟩).run tokens).ending ends
    r'.outcome = r.outcome ∧ r.Matches r' ∧ r'.constructor.tree = r.constructor.tree ∧
      r'.constructor.errors = r.constructor.errors := by
  have hlevel : (Constructor.new ⟨strict, false, iframeSrcdoc⟩).Level some
      (.new ⟨strict, true, iframeSrcdoc⟩) := ⟨rfl, rfl, Or.inl rfl, rfl, Or.inl ⟨rfl, rfl⟩⟩
  have hnumbered : ¬Unnumbered some := fun h =>
    absurd (h ⟨.missingDoctype, .initial, 0⟩ 1) (by decide)
  have hrun := Constructor.ending_sameCourse hlevel tokens (fun token ht hst => by
    cases token with
    | startTag tag => exact absurd hst (hn tag ht)
    | _ => cases hst) ends
  have herrors := hrun.level.errors
  rw [List.filterMap_some, List.filterMap_some] at herrors
  exact ⟨hrun.outcome.eq hnumbered, hrun.matches, hrun.tree_eq (Option.some_ne_none _),
    Array.toList_inj.mp herrors⟩

/-- a document that is the source of an `iframe` is built as any other, without a mode of its own -/
theorem iframeSrcdoc_confined (scripting : Bool) (tokens : List Token) (ends : Bool) :
    let r := ((Constructor.new ⟨false, scripting, false⟩).run tokens).ending ends
    let r' := ((Constructor.new ⟨false, scripting, true⟩).run tokens).ending ends
    let others := fun c : Constructor => c.errors.toList.filter fun e => e.kind ≠ .missingDoctype
    r'.outcome = r.outcome ∧ r.Matches r' ∧ r'.constructor.tree.mode = .noQuirks ∧
      others r'.constructor = others r.constructor := by
  intro r r' others
  let shows : ParseError → Option ParseError := Option.guard fun e => e.kind ≠ .missingDoctype
  have hlevel : (Constructor.new ⟨false, scripting, false⟩).Level shows
      (.new ⟨false, scripting, true⟩) :=
    ⟨rfl, rfl, Or.inl rfl, rfl, Or.inr ⟨rfl, rfl, rfl, rfl, fun _ _ => rfl⟩⟩
  have hnumbered : ¬Unnumbered shows := fun h =>
    absurd (h ⟨.unexpectedDoctype, .initial, 0⟩ 1) (by decide)
  have hrun := Constructor.ending_sameCourse hlevel tokens (fun _ _ _ => rfl) ends
  refine ⟨hrun.outcome.eq hnumbered, hrun.matches, ?_, ?_⟩
  · rcases hrun.level.settled with ⟨hsrcdoc, _⟩ | ⟨_, _, _, hmode, _⟩
    · -- the options are what they were
      have hsame : r'.constructor.options.iframeSrcdoc = r.constructor.options.iframeSrcdoc :=
        hsrcdoc
      rw [Run.ending_options, Run.ending_options] at hsame
      cases hsame
    · exact hmode
  · have herrors := hrun.level.errors
    rw [List.filterMap_eq_filter] at herrors
    exact herrors

/-- **Options have no effect beyond their purpose.**  Without `noscript` start tags it makes no
difference at all whether scripts run.  A lenient constructor that is told of the source of an
`iframe` goes through the same states and builds the same nodes; it leaves the document's mode alone
and does not miss a doctype. -/
theorem options_confined (tokens : List Token) (ends : Bool) :
    (∀ strict iframeSrcdoc, (∀ tag, Token.startTag tag ∈ tokens → tag.name ≠ "noscript") →
      let r := ((Constructor.new ⟨strict, false, iframeSrcdoc⟩).run tokens).ending ends
      let r' := ((Constructor.new ⟨strict, true, iframeSrcdoc⟩).run tokens).ending ends
      r'.outcome = r.outcome ∧ r.Matches r' ∧ r'.constructor.tree = r.constructor.tree ∧
        r'.constructor.errors = r.constructor.errors) ∧
    ∀ scripting,
      let r := ((Constructor.new ⟨false, scripting, false⟩).run tokens).ending ends
      let r' := ((Constructor.new ⟨false, scripting, true⟩).run tokens).ending ends
      let others := fun c : Constructor => c.errors.toList.filter fun e => e.kind ≠ .missingDoctype
      r'.outcome = r.outcome ∧ r.Matches r' ∧ r'.constructor.tree.mode = .noQuirks ∧
        others r'.constructor = others r.constructor :=
  ⟨fun strict iframeSrcdoc hn => scripting_confined strict iframeSrcdoc hn ends,
    fun scripting => iframeSrcdoc_confined scripting tokens ends⟩

/-- a style sheet in the head and a paragraph left open, without a doctype -/
def styledParagraph : List Token :=
  [.character ' ', .startTagNamed "style", .character 'x', .endTag "style", .startTagNamed "p"]

/-- the document has quirks, unless it is the source of an `iframe` -/
theorem options_confined_style :
    let plain := ((Constructor.new ⟨false, false, false⟩).run styledParagraph).ending true
    let scripted := ((Constructor.new ⟨false, true, false⟩).run styledParagraph).ending true
    let embedded := ((Constructor.new ⟨false, false, true⟩).run styledParagraph).ending true
    (∀ tag, Token.startTag tag ∈ styledParagraph → tag.name ≠ "noscript") ∧
      plain.outcome = .ok () ∧ plain.constructor.tree.mode = .quirks ∧
      plain.constructor.errors.size = 1 ∧
      (scripted.outcome = plain.outcome ∧ plain.Matches scripted ∧
        scripted.constructor.tree = plain.constructor.tree ∧
        scripted.constructor.errors = plain.constructor.errors) ∧
      embedded.outcome = plain.outcome ∧ plain.Matches embedded ∧
      embedded.constructor.tree.mode = .noQuirks := by
  have hn : ∀ tag, Token.startTag tag ∈ styledParagraph → tag.name ≠ "noscript" := by
    intro tag htag
    simp only [styledParagraph, Token.startTagNamed, List.mem_cons, Token.startTag.injEq,
      reduceCtorEq, List.not_mem_nil, false_or, or_false] at htag
    rcases htag with rfl | rfl <;> decide
  obtain ⟨hscripting, hsrcdoc⟩ := options_confined styledParagraph true
  obtain ⟨houtcome, hembedded, hmode, _⟩ := hsrcdoc false
  exact ⟨hn, by decide +kernel, by decide +kernel, by decide +kernel, hscripting false false hn,
    houtcome, hembedded, hmode⟩

end HtmlTree
