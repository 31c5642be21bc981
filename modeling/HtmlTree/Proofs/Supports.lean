import HtmlTree.Proofs.Refusals

/-!
# Supported input

Runs that are never refused a token can be told by what their tokens are.  Tags without rules must
not come, nothing may interrupt a text, and no formatting element may be open; elements come from
their start tags, so if one is not open at the beginning it is enough that no such tag comes.

* `Token.formats`, `Tree.NoMore`          who makes formatting elements, and that no one else does;
* `Moves.open_before_or_new`              what is open later;
* `Constructor.Supports`                  tokens for which there are rules from here on;
* `refusal_reasons`                       **why a token is refused, and what is not**.
-/

namespace HtmlTree

variable {α : Type} {x : Step α} {k k' : Core} {token t : Token} {m : Mode}
  {names : List String}

/-! ## formatting elements -/

/-- start tags of formatting elements -/
def Token.formats : Token → Bool
  | .startTag tag => formattingNames.contains tag.name
  | _ => false

theorem Token.Stands.formats (h : token.Stands t) (ht : token.formats = false) :
    t.formats = false := by
  rcases h with rfl | ⟨tag, _, _, rfl⟩
  · exact ht
  · show formattingNames.contains "img" = false
    decide

theorem Token.not_formatting (ht : token.formats = false) (tag : StartTag)
    (he : token = .startTag tag) : tag.name ∉ formattingNames := fun hn => by
  rw [he] at ht
  exact absurd ((List.contains_iff_mem.mpr hn).symm.trans ht) (by decide)

theorem Element.ComesFrom.not_named {e : Element} (h : e.ComesFrom token)
    (himplied : ∀ n ∈ impliedNames, n ∉ names)
    (htag : ∀ tag : StartTag, token = .startTag tag → tag.name ∉ names) :
    e.isHtmlOneOf names = false := by
  rw [← Bool.not_eq_true, Element.isHtmlOneOf_iff]
  rintro ⟨hns, hn⟩
  rcases h hns with hname | ⟨tag, he, hname⟩
  · exact himplied _ hname hn
  · rw [hname] at hn
    exact htag tag he hn

theorem Tree.index_lt_of_isHtmlOneOf {u : Tree} {id : NodeId}
    (h : u.isHtmlOneOf names id = true) : id.index < u.size := by
  obtain ⟨_, _, hl⟩ := Tree.isHtmlOneOf_iff.mp h
  exact Tree.index_lt_of_label? (by rw [hl]; rfl)

/-- the HTML elements of these names have all been in an earlier document -/
def Tree.NoMore (names : List String) (t u : Tree) : Prop :=
  ∀ id, u.isHtmlOneOf names id = true → t.isHtmlOneOf names id = true

theorem Tree.NoMore.ofSize {u v : Tree} (hw : u.Within v) (hs : v.size = u.size) :
    u.NoMore names v := fun id hid => by
  have hlt := Tree.index_lt_of_isHtmlOneOf hid
  rw [hs] at hlt
  rw [← Tree.isHtmlOneOf_congr (hw.label? hlt)]
  exact hid

/-- other tokens make no elements of these names -/
theorem Written.noMore {r s : Bool} (h : Written token r s x)
    (himplied : ∀ n ∈ impliedNames, n ∉ names)
    (htag : ∀ tag : StartTag, token = .startTag tag → tag.name ∉ names) (c : Constructor) :
    c.tree.NoMore names (x.run c).2.tree := by
  refine h.rel (R := fun c d => c.tree.NoMore names d.tree) (fun _ _ hid => hid)
    (fun hab hbc id hid => hab id (hbc id hid)) (fun hg c => .ofSize (hg.tree c) (hg.size c))
    (fun _ _ _ hid => hid) (fun {d} hd hcomes parent c id hid => ?_) (fun _ _ _ _ hid => hid)
    (fun _ _ _ hid => hid) c
  rw [appendNew_run] at hid
  obtain ⟨name, hn, hl⟩ := Tree.isHtmlOneOf_iff.mp hid
  rw [Tree.label?_appendNew c.tree parent id hd] at hl
  split at hl
  · -- the new node is an element that comes from the token
    obtain ⟨e, he, hlabel⟩ := Option.map_eq_some_iff.mp hl
    cases d <;> cases he
    have hno := (hcomes e rfl).not_named himplied htag
    rw [Element.isHtmlOneOf_iff.mpr ⟨congrArg Prod.fst hlabel, ?_⟩] at hno
    · cases hno
    · rw [show e.localName = name from congrArg Prod.snd hlabel]
      exact hn
  · exact Tree.isHtmlOneOf_iff.mpr ⟨name, hn, hl⟩

/-- what holds of every run of a step holds after it -/
theorem Ends.ofRun {P : Core → Prop} (h : ∀ c : Constructor, c.core = k → P (x.run c).2.core) :
    Ends x k (fun _ j => P j) fun _ j => P j := by
  intro c hc
  have hp := h c hc
  rcases hr : x.run c with ⟨_ | _, d⟩ <;> rw [hr] at hp <;> exact hp

theorem processWithin_formatsNoMore (n : Nat) (h : k.In m) (ht : token.formats = false) :
    Ends (processWithin n token) k (fun _ j => k.tree.NoMore formattingNames j.tree)
      fun _ j => k.tree.NoMore formattingNames j.tree := by
  induction n generalizing k m token with
  | zero => exact Ends.ofRun fun c hc => by rw [← hc]; exact fun _ hid => hid
  | succ n ih =>
    have hdispatch : Written token true true (dispatch token) := .dispatch token fun _ => rfl
    have hmore : Ends (dispatch token) k (fun _ j => k.tree.NoMore formattingNames j.tree) _ :=
      Ends.ofRun fun c hc => by
        rw [← hc]
        exact hdispatch.noMore (by decide) (Token.not_formatting ht) c
    refine Ends.bind (Ends.mono ((dispatch_leads h).and hmore) (fun _ _ hq => hq)
      fun _ _ he => he.2) fun v j hv => ?_
    cases v with
    | done => exact Ends.value hv.2
    | reprocess t =>
      obtain ⟨⟨hm, hst, hstop, _⟩, hj⟩ := hv
      refine Ends.mono (ih ⟨hm.sound h.sound, rfl, hstop⟩ (hst.formats ht)) ?_ ?_ <;>
        exact fun _ i hi id hid => hj id (hi id hid)

/-- what is open later was open before, or is new -/
theorem Move.open_before_or_new {byBody : Bool} (hm : Move byBody token k k') :
    ∀ id ∈ k'.entries, id ∈ k.entries ∨ k.tree.size ≤ id.index := by
  have hopened : ∀ id ∈ (⟨k.tree.size⟩ :: k.entries : List NodeId),
      id ∈ k.entries ∨ k.tree.size ≤ id.index := fun id hid => by
    rcases List.mem_cons.mp hid with rfl | hid
    · exact Or.inr (Nat.le_refl _)
    · exact Or.inl hid
  have hcut : ∀ {rest : List NodeId}, rest.Sublist k.entries →
      ∀ id ∈ rest, id ∈ k.entries ∨ k.tree.size ≤ id.index :=
    fun hsub id hid => Or.inl (hsub.subset hid)
  cases hm with
  | doctype | noDoctype | comment | text | lengthen | merge | leaf | setForm | goto =>
    exact hcut (.refl _)
  | openHtml | openHead | openNoscript | openBody | element | textOnly => exact hopened
  | closeNoscript | closeHead | leaveText => exact hcut (List.tail_sublist _)
  | drop inside _ he =>
    rw [he] at hcut ⊢
    exact hcut (List.sublist_append_right _ _)
  | closeFormatting _ _ _ _ he =>
    rw [he] at hcut ⊢
    exact hcut (List.sublist_cons_self _ _)
  | closeSeal _ _ _ _ he =>
    rw [he] at hcut ⊢
    exact hcut ((List.sublist_cons_self _ _).trans (List.sublist_append_right _ _))
  | removeForm => exact hcut List.erase_sublist
  | stop => exact hcut (List.nil_sublist _)

theorem Moves.open_before_or_new {byBody : Bool} (hm : Moves byBody token k k') :
    ∀ id ∈ k'.entries, id ∈ k.entries ∨ k.tree.size ≤ id.index := by
  induction hm with
  | refl => exact fun _ hid => Or.inl hid
  | @tail j _ hmoves hm ih =>
    intro id hid
    rcases hm.open_before_or_new id hid with hid | hnew
    · exact ih id hid
    · exact Or.inr ((show Moves byBody token k j from hmoves).within.size_le.trans hnew)

/-- no formatting element is open -/
def Core.Unformatted (k : Core) : Prop :=
  ∀ id ∈ k.entries, k.tree.isHtmlOneOf formattingNames id = false

namespace Constructor
variable {c : Constructor}

theorem process_formatsNoMore (h : c.core.Sound) (hs : c.stopped = false)
    (ht : token.formats = false) :
    c.tree.NoMore formattingNames (c.process token).2.tree := by
  cases hskip : c.skips token with
  | true =>
    rw [process_of_skips hskip]
    exact fun _ hid => hid
  | false =>
    have hends := Ends.processToken (processWithin_formatsNoMore maxRounds (in_mode h hs) ht)
      fun _ _ hj => hj
    have hrun := Ends.process hends hskip
    cases hr : (c.process token).1 <;> rw [hr] at hrun <;> exact hrun

/-- only their start tags open formatting elements -/
theorem process_unformatted (h : c.core.Sound) (hs : c.stopped = false)
    (ht : token.formats = false) (hf : c.core.Unformatted) :
    (c.process token).2.core.Unformatted := by
  intro id hid
  rw [← Bool.not_eq_true]
  intro hone
  have hold := process_formatsNoMore h hs ht id hone
  have hlt : id.index < c.core.tree.size := Tree.index_lt_of_isHtmlOneOf hold
  rcases (process_leads (in_mode h hs) token).1.open_before_or_new id hid with hbefore | hnew
  · exact absurd ((hf id hbefore).symm.trans hold) Bool.noConfusion
  · exact absurd hlt (Nat.not_lt.mpr hnew)

/-! ## runs that are refused nothing -/

/-- tokens for which there are rules from here on: construction is lenient, they have rules and make
no formatting elements, none of which is open either, and none of them interrupts text -/
structure Supports (c : Constructor) (tokens : List Token) : Prop where
  lenient : c.options.strict = false
  unformatted : c.core.Unformatted
  built : ∀ token ∈ tokens, token.unbuilt = false ∧ token.formats = false
  /-- where text is open after the tokens before it, a token does not interrupt it -/
  text : ∀ (n : Nat) (hn : n < tokens.length), (c.run (tokens.take n)).constructor.mode = .text →
    tokens[n].interruptsText = false

/-- the first token finds its rules -/
theorem Supports.first_ok {rest : List Token} (hsup : c.Supports (token :: rest))
    (h : c.core.Sound) (hs : c.stopped = false) : (c.process token).1 = .ok () := by
  refine process_ok h hs hsup.lenient fun mode t he => ?_
  obtain ⟨_, _, hlacks, _⟩ := process_refuses h hs token _ he mode t rfl
  obtain ⟨hbuilt, _⟩ := hsup.built token List.mem_cons_self
  cases hlacks with
  | text hm hi =>
    have hno := hsup.text 0 (Nat.zero_lt_succ _) hm
    exact absurd (hno.symm.trans hi) Bool.noConfusion
  | unbuilt hb => exact absurd (hbuilt.symm.trans hb) Bool.noConfusion
  | formatting hid hf => exact absurd ((hsup.unformatted _ hid).symm.trans hf) Bool.noConfusion

/-- the tokens behind the first one still find theirs -/
theorem Supports.next {rest : List Token} (hsup : c.Supports (token :: rest))
    (h : c.core.Sound) (hs : c.stopped = false) : (c.next token).Supports rest := by
  have hok := hsup.first_ok h hs
  have hcore := c.next_core token
  refine ⟨?_, ?_, fun t ht => hsup.built t (List.mem_cons_of_mem _ ht), fun n hn hm => ?_⟩
  · have hoptions : (c.next token).options = (c.process token).2.options :=
      congrArg Core.options hcore
    rw [hoptions, (process_reports h hs token).options]
    exact hsup.lenient
  · rw [hcore]
    exact process_unformatted h hs (hsup.built token List.mem_cons_self).2 hsup.unformatted
  · refine hsup.text (n + 1) (Nat.succ_lt_succ hn) ?_
    rw [List.take_succ_cons, run_cons_ok hs hok]
    exact hm

theorem Supports.run_ok {tokens : List Token} (hsup : c.Supports tokens) (h : c.core.Sound) :
    (c.run tokens).outcome = .ok () := by
  induction tokens generalizing c with
  | nil => rfl
  | cons token rest ih =>
    cases hs : c.stopped with
    | true => rw [run_of_stopped hs]
    | false =>
      rw [run_cons_ok hs (hsup.first_ok h hs)]
      refine ih (hsup.next h hs) ?_
      rw [c.next_core token]
      exact (process_reports h hs token).sound

end Constructor

/-! ## the result -/

/-- **Why a token is refused**: it comes in the middle of text, it is a tag that has no rules, or a
formatting element is open, whatever calls were made before and whatever became of them.  So a
lenient run is refused nothing if its tokens have rules, do not interrupt text and are no start tags
of formatting elements, and none of these is open at its beginning, as in a new constructor. -/
theorem refusal_reasons (options : Options) (calls : List Call) :
    let c := (Constructor.new options).after calls
    (c.stopped = false → ∀ token mode t,
      (c.process token).1 = .error (.unsupportedInput mode t) → c.core.Lacks token) ∧
    ∀ tokens, c.Supports tokens → (c.run tokens).outcome = .ok () := by
  intro c
  have h : c.core.Sound := Constructor.after_sound options calls
  refine ⟨fun hs token mode t he => ?_, fun tokens hsup => hsup.run_ok h⟩
  obtain ⟨_, _, hlacks, _⟩ := Constructor.process_refuses h hs token _ he mode t rfl
  exact hlacks

/-- a list item closes no formatting element of the one before it; without any formatting element
list items, and a script in the middle, are dealt with -/
theorem refusal_reasons_listItem :
    let c := (Constructor.new .default).after
      [.run [.startTagNamed "li", .startTagNamed "i", .startTagNamed "div"]]
    c.stopped = false ∧
      (c.process (.startTagNamed "li")).1 =
        .error (.unsupportedInput .inBody (.startTagNamed "li")) ∧
      c.core.Lacks (.startTagNamed "li") ∧
      ((Constructor.new .default).run [.startTagNamed "li", .startTagNamed "script",
        .character 'x', .endTag "script", .startTagNamed "li", .endOfFile]).outcome = .ok () :=
  ⟨by decide +kernel, by decide +kernel,
    (refusal_reasons .default _).1 (by decide +kernel) _ .inBody (.startTagNamed "li")
      (by decide +kernel),
    (refusal_reasons .default []).2 _
      ⟨rfl, fun _ hid => absurd hid List.not_mem_nil, by decide +kernel, by decide +kernel⟩⟩

end HtmlTree
