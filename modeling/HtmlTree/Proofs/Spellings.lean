import HtmlTree.Json.Writer
import HtmlTree.Proofs.Grammar

/-!
# How a value may be written

A value is written as a row of lexemes: brackets, commas, colons, words, and literals, of which there
are many for one text.  White space may stand before each of them.  However a value is written, the
reader finds just this value and leaves what follows it.

* `Lexemes`                     the lexemes of a value, of items or of members;
* `Spaced`                      a row of lexemes with white space between them;
* `Lexemes.reads`               **a value is read from all its texts**;
* `TextOf`, `TextOf.reads`      the texts of a value that is not too deep;
* `Value.Writable`              a value without numbers, within a depth;
* `Value.Writable.textOf`       its compact form is one of its texts;
* `read_compact`                **the compact form is read back**, whatever follows.
-/

namespace HtmlTree.Json

/-- the lexemes of what stands in a text, nested at most `depth` deep -/
inductive Lexemes : (depth : Nat) → Found → List (List Char) → Prop where
  | null {d} : Lexemes d (.value .null) [['n', 'u', 'l', 'l']]
  | true {d} : Lexemes d (.value (.bool true)) [['t', 'r', 'u', 'e']]
  | false {d} : Lexemes d (.value (.bool false)) [['f', 'a', 'l', 's', 'e']]
  | string {d l text} : readText l = some (text, []) → Lexemes d (.value (.string text)) ['"' :: l]
  | number {d literal} : readNumber literal.toList = some [] →
      Lexemes d (.value (.number literal)) [literal.toList]
  | noItems {d} : Lexemes (d + 1) (.value (.array [])) [['['], [']']]
  | array {d vs ls} : Lexemes d (.items vs) ls → Lexemes (d + 1) (.value (.array vs)) (['['] :: ls)
  | noMembers {d} : Lexemes (d + 1) (.value (.object [])) [['\x7b'], ['\x7d']]
  | object {d ms ls} : Lexemes d (.members ms) ls →
      Lexemes (d + 1) (.value (.object ms)) (['\x7b'] :: ls)
  | lastItem {d v ls} : Lexemes d (.value v) ls → Lexemes d (.items [v]) (ls ++ [[']']])
  | nextItem {d v ls vs ks} : Lexemes d (.value v) ls → Lexemes d (.items vs) ks →
      Lexemes d (.items (v :: vs)) (ls ++ [','] :: ks)
  | lastMember {d l name v ls} : readText l = some (name, []) → Lexemes d (.value v) ls →
      Lexemes d (.members [(name, v)]) (('"' :: l) :: [':'] :: (ls ++ [['\x7d']]))
  | nextMember {d l name v ls ms ks} : readText l = some (name, []) → Lexemes d (.value v) ls →
      Lexemes d (.members ms) ks →
      Lexemes d (.members ((name, v) :: ms)) (('"' :: l) :: [':'] :: (ls ++ [','] :: ks))

/-- a row of lexemes with any white space before each of them -/
inductive Spaced : List (List Char) → List Char → Prop where
  | nil : Spaced [] []
  | cons {blanks l ls cs} : (∀ c ∈ blanks, isBlank c = true) → Spaced ls cs →
      Spaced (l :: ls) (blanks ++ (l ++ cs))

section Spaced
variable {c : Char} {l cs more : List Char} {ls ks : List (List Char)}

/-- the first lexeme is found behind the white space -/
theorem Spaced.skip (h : Spaced ((c :: l) :: ls) cs) (hc : isBlank c = false) :
    ∃ ds, Spaced ls ds ∧ ∀ more, skipBlanks (cs ++ more) = c :: (l ++ (ds ++ more)) := by
  cases h with
  | @cons blanks _ _ ds hblanks hds =>
    refine ⟨ds, hds, fun more => ?_⟩
    rw [List.append_assoc, skipBlanks, List.dropWhile_append_of_pos hblanks, List.append_assoc,
      List.cons_append]
    exact skipBlanks_cons hc _

/-- a lexeme alone -/
theorem Spaced.skip_one (h : Spaced [c :: l] cs) (hc : isBlank c = false) (more : List Char) :
    skipBlanks (cs ++ more) = c :: (l ++ more) := by
  obtain ⟨ds, hds, hskip⟩ := h.skip hc
  cases hds
  exact hskip more

theorem Spaced.split (h : Spaced (ls ++ ks) cs) :
    ∃ as bs, cs = as ++ bs ∧ Spaced ls as ∧ Spaced ks bs := by
  induction ls generalizing cs with
  | nil => exact ⟨[], cs, rfl, .nil, h⟩
  | cons l ls ih =>
    cases h with
    | cons hblanks h =>
      obtain ⟨as, bs, rfl, has, hbs⟩ := ih h
      refine ⟨_, bs, ?_, .cons hblanks has, hbs⟩
      simp only [List.append_assoc]

/-- the same white space before each lexeme -/
theorem spaced_each (blanks : List Char) (h : ∀ c ∈ blanks, isBlank c = true)
    (ls : List (List Char)) : Spaced ls (ls.flatMap (blanks ++ ·)) := by
  induction ls with
  | nil => exact .nil
  | cons l ls ih =>
    rw [List.flatMap_cons, List.append_assoc]
    exact .cons h ih

/-- a number does not go on with white space, nor with what closes or parts values -/
theorem endsNumber_of_skipBlanks (h : skipBlanks more = c :: cs)
    (hc : c = ',' ∨ c = ']' ∨ c = '\x7d') : EndsNumber more := by
  intro x hx
  obtain ⟨r, rfl⟩ := List.head?_eq_some_iff.mp hx
  cases hblank : isBlank x with
  | true =>
    simp only [isBlank, Bool.or_eq_true, beq_iff_eq, or_assoc] at hblank
    rcases hblank with rfl | rfl | rfl | rfl <;> decide
  | false =>
    rw [skipBlanks_cons hblank] at h
    cases h
    rcases hc with rfl | rfl | rfl <;> decide

end Spaced

/-! ## reading -/

theorem isBlank_of_number {c : Char} (h : c = '-' ∨ c.isDigit = true) : isBlank c = false := by
  rcases h with rfl | h
  · rfl
  · cases hblank : isBlank c with
    | false => rfl
    | true =>
      simp only [isBlank, Bool.or_eq_true, beq_iff_eq, or_assoc] at hblank
      rcases hblank with rfl | rfl | rfl | rfl <;> cases h

theorem taken_append (cs more : List Char) : taken (cs ++ more) more = String.ofList cs := by
  rw [taken, List.length_append, Nat.add_sub_cancel, List.take_left]

section Reading
variable {d : Nat} {f : Found} {v : Value} {ls : List (List Char)} {cs more : List Char}

/-- **What is written is read**, however it is written; a number needs something behind it that does
not go on with it. -/
theorem Lexemes.reads (h : Lexemes d f ls) (hcs : Spaced ls cs)
    (hmore : f.isNumber = Bool.true → EndsNumber more) : Reads d f (cs ++ more) more := by
  induction h generalizing cs more with
  | null => exact .null (hcs.skip_one rfl more)
  | true => exact .true (hcs.skip_one rfl more)
  | false => exact .false (hcs.skip_one rfl more)
  | string htext => exact .string (hcs.skip_one rfl more) (readText_append htext more)
  | @number d literal hnumber =>
    obtain ⟨c, l, hliteral, hc⟩ := readNumber_head hnumber
    rw [hliteral] at hcs
    have hskip := hcs.skip_one (isBlank_of_number hc) more
    rw [← List.cons_append, ← hliteral] at hskip
    have hread : readNumber (skipBlanks (cs ++ more)) = some more := by
      rw [hskip]
      exact readNumber_before hnumber (hmore rfl)
    have htaken : taken (skipBlanks (cs ++ more)) more = literal := by
      rw [hskip, taken_append, String.ofList_toList]
    exact htaken ▸ .number hread
  | noItems =>
    obtain ⟨ds, hds, hskip⟩ := hcs.skip rfl
    exact .noItems (hskip more) (hds.skip_one rfl more)
  | array _ ih =>
    obtain ⟨ds, hds, hskip⟩ := hcs.skip rfl
    exact .array (hskip more) (ih hds nofun)
  | noMembers =>
    obtain ⟨ds, hds, hskip⟩ := hcs.skip rfl
    exact .noMembers (hskip more) (hds.skip_one rfl more)
  | object _ ih =>
    obtain ⟨ds, hds, hskip⟩ := hcs.skip rfl
    exact .object (hskip more) (ih hds nofun)
  | lastItem _ ih =>
    obtain ⟨as, bs, rfl, has, hbs⟩ := hcs.split
    have hclose := hbs.skip_one rfl more
    rw [List.append_assoc]
    exact .lastItem (ih has fun _ => endsNumber_of_skipBlanks hclose (by decide)) hclose
  | nextItem _ _ ih ih' =>
    obtain ⟨as, bs, rfl, has, hbs⟩ := hcs.split
    obtain ⟨ds, hds, hskip⟩ := hbs.skip rfl
    have hcomma := hskip more
    rw [List.append_assoc]
    exact .nextItem (ih has fun _ => endsNumber_of_skipBlanks hcomma (by decide)) hcomma
      (ih' hds nofun)
  | lastMember htext _ ih =>
    obtain ⟨ds, hds, hname⟩ := hcs.skip rfl
    obtain ⟨es, hes, hcolon⟩ := hds.skip rfl
    obtain ⟨as, bs, rfl, has, hbs⟩ := hes.split
    have hclose := hbs.skip_one rfl more
    refine .lastMember (hname more) (readText_append htext _) (hcolon more) ?_ hclose
    rw [List.nil_append, List.append_assoc]
    exact ih has fun _ => endsNumber_of_skipBlanks hclose (by decide)
  | nextMember htext _ _ ih ih' =>
    obtain ⟨ds, hds, hname⟩ := hcs.skip rfl
    obtain ⟨es, hes, hcolon⟩ := hds.skip rfl
    obtain ⟨as, bs, rfl, has, hbs⟩ := hes.split
    obtain ⟨gs, hgs, hskip⟩ := hbs.skip rfl
    have hcomma := hskip more
    refine .nextMember (hname more) (readText_append htext _) (hcolon more) ?_ hcomma
      (ih' hgs nofun)
    rw [List.nil_append, List.append_assoc]
    exact ih has fun _ => endsNumber_of_skipBlanks hcomma (by decide)

/-- a text of a value that is not nested too deep -/
def TextOf (v : Value) (cs : List Char) : Prop :=
  ∃ ls, Lexemes maxDepth (.value v) ls ∧ Spaced ls cs

theorem TextOf.reads (h : TextOf v cs) (hv : (Found.value v).isNumber = Bool.false)
    (more : List Char) : Reads maxDepth (.value v) (cs ++ more) more := by
  obtain ⟨ls, hls, hcs⟩ := h
  refine hls.reads hcs fun hnumber => ?_
  rw [hv] at hnumber
  cases hnumber

end Reading

/-! ## the compact form -/

/-- a value without numbers that is nested at most `d` deep -/
inductive Value.Writable : (d : Nat) → Value → Prop where
  | null {d} : Writable d .null
  | bool {d b} : Writable d (.bool b)
  | string {d text} : Writable d (.string text)
  | array {d vs} : (∀ v ∈ vs, Writable d v) → Writable (d + 1) (.array vs)
  | object {d ms} : (∀ m ∈ ms, Writable d m.2) → Writable (d + 1) (.object ms)

section Compact
variable {d : Nat} {v : Value}

theorem Value.Writable.not_isNumber (h : v.Writable d) :
    (Found.value v).isNumber = Bool.false := by
  cases h <;> rfl

/-- the compact form of a value is a row of lexemes -/
def InLexemes (d : Nat) (v : Value) : Prop := ∃ ls, Lexemes d (.value v) ls ∧ ls.flatten = v.compact

theorem lexeme_encode (text : String) : ∃ l, readText l = some (text, []) ∧ encode text = '"' :: l :=
  ⟨_, readText_encode text [], by simp [encode]⟩

theorem lexemes_items {vs : List Value} (hne : vs ≠ []) (h : ∀ v ∈ vs, InLexemes d v) :
    ∃ ls, Lexemes d (.items vs) ls ∧ ls.flatten = Value.compactItems vs ++ [']'] := by
  induction vs with
  | nil => exact absurd rfl hne
  | cons v ws ih =>
    obtain ⟨ls, hls, hflat⟩ := h v List.mem_cons_self
    cases ws with
    | nil =>
      refine ⟨_, .lastItem hls, ?_⟩
      rw [Value.compactItems, List.flatten_append, hflat]
      rfl
    | cons w ws =>
      obtain ⟨ks, hks, hrest⟩ :=
        ih (List.cons_ne_nil w ws) fun x hx => h x (List.mem_cons_of_mem v hx)
      refine ⟨_, .nextItem hls hks, ?_⟩
      rw [Value.compactItems, List.flatten_append, List.flatten_cons, hflat, hrest]
      · simp only [List.append_assoc, List.cons_append, List.nil_append]
      · exact List.cons_ne_nil w ws

theorem lexemes_members {ms : List (String × Value)} (hne : ms ≠ [])
    (h : ∀ m ∈ ms, InLexemes d m.2) :
    ∃ ls, Lexemes d (.members ms) ls ∧ ls.flatten = Value.compactMembers ms ++ ['\x7d'] := by
  induction ms with
  | nil => exact absurd rfl hne
  | cons m ns ih =>
    obtain ⟨name, v⟩ := m
    obtain ⟨l, hl, hname⟩ := lexeme_encode name
    obtain ⟨ls, hls, hflat⟩ : InLexemes d v := h (name, v) List.mem_cons_self
    cases ns with
    | nil =>
      refine ⟨_, .lastMember hl hls, ?_⟩
      rw [Value.compactMembers, hname, List.flatten_cons, List.flatten_cons, List.flatten_append,
        hflat]
      simp
    | cons n ns =>
      obtain ⟨ks, hks, hrest⟩ :=
        ih (List.cons_ne_nil n ns) fun x hx => h x (List.mem_cons_of_mem _ hx)
      refine ⟨_, .nextMember hl hls hks, ?_⟩
      rw [Value.compactMembers, hname, List.flatten_cons, List.flatten_cons, List.flatten_append,
        List.flatten_cons, hflat, hrest]
      · simp
      · exact List.cons_ne_nil n ns

theorem Value.Writable.inLexemes (h : v.Writable d) : InLexemes d v := by
  induction h with
  | null => exact ⟨_, .null, rfl⟩
  | @bool d b =>
    cases b with
    | true => exact ⟨_, .true, rfl⟩
    | false => exact ⟨_, .false, rfl⟩
  | @string d text =>
    obtain ⟨l, hl, htext⟩ := lexeme_encode text
    refine ⟨_, .string hl, ?_⟩
    rw [compact, htext, List.flatten_singleton]
  | @array d vs _ ih =>
    by_cases hne : vs = []
    · subst hne
      exact ⟨_, .noItems, rfl⟩
    · obtain ⟨ls, hls, hflat⟩ := lexemes_items hne ih
      refine ⟨_, .array hls, ?_⟩
      rw [compact, List.flatten_cons, hflat]
      rfl
  | @object d ms _ ih =>
    by_cases hne : ms = []
    · subst hne
      exact ⟨_, .noMembers, rfl⟩
    · obtain ⟨ls, hls, hflat⟩ := lexemes_members hne ih
      refine ⟨_, .object hls, ?_⟩
      rw [compact, List.flatten_cons, hflat]
      rfl

/-- **The compact form is one of the texts of a value.** -/
theorem Value.Writable.textOf (h : v.Writable maxDepth) : TextOf v v.compact := by
  obtain ⟨ls, hls, hflat⟩ := h.inLexemes
  have hnone := spaced_each [] nofun ls
  simp only [List.nil_append, List.flatMap_id', hflat] at hnone
  exact ⟨ls, hls, hnone⟩

/-- **The reader undoes the compact writer**, whatever follows. -/
theorem read_compact (h : v.Writable maxDepth) (rest : List Char) :
    read (v.compact ++ rest) = some (v, rest) :=
  read_eq_some_iff.mpr (h.textOf.reads h.not_isNumber rest)

end Compact

end HtmlTree.Json
