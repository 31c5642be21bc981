import HtmlTree.Json.Reader
import HtmlTree.Proofs.Literals
import Mathlib.Data.List.DropRight

/-!
# The grammar of JSON texts

`Reads d f cs r` says that `cs` begins with the value, the items or the members `f`, nested at most
`d` deep, and goes on with `r`.  The reader finds just what the grammar says, whatever the budget for
its calls, as long as that is no less than the number of characters it reads.

* `Reads`                  the grammar;
* `Reads.shortens`         a value takes at least one character;
* `Reads.append`           **more text after a value changes nothing**, if the value is no number;
* `read_eq_some_iff`       **the reader follows the grammar**.
-/

namespace HtmlTree.Json

/-! ## white space -/

section Blanks
variable {c : Char} {cs r : List Char}

theorem skipBlanks_idem (cs : List Char) : skipBlanks (skipBlanks cs) = skipBlanks cs :=
  List.dropWhile_idempotent (p := isBlank) cs

theorem skipBlanks_length (cs : List Char) : (skipBlanks cs).length ≤ cs.length :=
  List.length_dropWhile_le isBlank cs

theorem skipBlanks_cons (h : isBlank c = false) (r : List Char) : skipBlanks (c :: r) = c :: r := by
  rw [skipBlanks, List.dropWhile_cons, h]
  rfl

theorem skipBlanks_append (h : skipBlanks cs = c :: r) (more : List Char) :
    skipBlanks (cs ++ more) = c :: r ++ more := by
  unfold skipBlanks at h ⊢
  rw [List.dropWhile_append, h]
  rfl

theorem length_lt_of_skipBlanks (h : skipBlanks cs = c :: r) : r.length < cs.length := by
  have := skipBlanks_length cs
  rw [h, List.length_cons] at this
  exact this

end Blanks

/-! ## the grammar -/

/-- what stands at the front of a text: a value, or what stands in brackets with the closing one -/
inductive Found where
  | value (v : Value)
  | items (vs : List Value)
  | members (ms : List (String × Value))

/-- the characters of a text before what was left of it -/
def taken (cs r : List Char) : String := String.ofList (cs.take (cs.length - r.length))

inductive Reads : (depth : Nat) → Found → (cs rest : List Char) → Prop where
  | null {d cs r} : skipBlanks cs = 'n' :: 'u' :: 'l' :: 'l' :: r → Reads d (.value .null) cs r
  | true {d cs r} : skipBlanks cs = 't' :: 'r' :: 'u' :: 'e' :: r →
      Reads d (.value (.bool true)) cs r
  | false {d cs r} : skipBlanks cs = 'f' :: 'a' :: 'l' :: 's' :: 'e' :: r →
      Reads d (.value (.bool false)) cs r
  | string {d cs t text r} : skipBlanks cs = '"' :: t → readText t = some (text, r) →
      Reads d (.value (.string text)) cs r
  | number {d cs r} : readNumber (skipBlanks cs) = some r →
      Reads d (.value (.number (taken (skipBlanks cs) r))) cs r
  | noItems {d cs t r} : skipBlanks cs = '[' :: t → skipBlanks t = ']' :: r →
      Reads (d + 1) (.value (.array [])) cs r
  | array {d cs t vs r} : skipBlanks cs = '[' :: t → Reads d (.items vs) t r →
      Reads (d + 1) (.value (.array vs)) cs r
  | noMembers {d cs t r} : skipBlanks cs = '\x7b' :: t → skipBlanks t = '\x7d' :: r →
      Reads (d + 1) (.value (.object [])) cs r
  | object {d cs t ms r} : skipBlanks cs = '\x7b' :: t → Reads d (.members ms) t r →
      Reads (d + 1) (.value (.object ms)) cs r
  | lastItem {d cs v t r} : Reads d (.value v) cs t → skipBlanks t = ']' :: r →
      Reads d (.items [v]) cs r
  | nextItem {d cs v t u vs r} : Reads d (.value v) cs t → skipBlanks t = ',' :: u →
      Reads d (.items vs) u r → Reads d (.items (v :: vs)) cs r
  | lastMember {d cs t name u w v x r} : skipBlanks cs = '"' :: t → readText t = some (name, u) →
      skipBlanks u = ':' :: w → Reads d (.value v) w x → skipBlanks x = '\x7d' :: r →
      Reads d (.members [(name, v)]) cs r
  | nextMember {d cs t name u w v x y ms r} : skipBlanks cs = '"' :: t →
      readText t = some (name, u) → skipBlanks u = ':' :: w → Reads d (.value v) w x →
      skipBlanks x = ',' :: y → Reads d (.members ms) y r →
      Reads d (.members ((name, v) :: ms)) cs r

/-- numbers are the only values that do not show where they end -/
def Found.isNumber : Found → Bool
  | .value (.number _) => Bool.true
  | _ => Bool.false

namespace Reads
variable {d : Nat} {f : Found} {cs r : List Char}

theorem shortens (h : Reads d f cs r) : r.length < cs.length := by
  induction h with
  | null h | true h | false h =>
    have := length_lt_of_skipBlanks h
    simp only [List.length_cons] at this
    omega
  | string h htext =>
    have := length_lt_of_skipBlanks h
    have := readText_shortens htext
    omega
  | number h => exact (readNumber_shortens h).trans_le (skipBlanks_length _)
  | noItems h h' | noMembers h h' =>
    have := length_lt_of_skipBlanks h
    have := length_lt_of_skipBlanks h'
    omega
  | array h _ ih | object h _ ih =>
    have := length_lt_of_skipBlanks h
    omega
  | lastItem _ h ih =>
    have := length_lt_of_skipBlanks h
    omega
  | nextItem _ h _ ih ih' =>
    have := length_lt_of_skipBlanks h
    omega
  | lastMember h htext hcolon _ hclose ih =>
    have := length_lt_of_skipBlanks h
    have := readText_shortens htext
    have := length_lt_of_skipBlanks hcolon
    have := length_lt_of_skipBlanks hclose
    omega
  | nextMember h htext hcolon _ hcomma _ ih ih' =>
    have := length_lt_of_skipBlanks h
    have := readText_shortens htext
    have := length_lt_of_skipBlanks hcolon
    have := length_lt_of_skipBlanks hcomma
    omega

/-- something stands at the front, and no closing bracket -/
theorem head (h : Reads d f cs r) :
    ∃ c t, skipBlanks cs = c :: t ∧ c ≠ ']' ∧ c ≠ '\x7d' := by
  induction h with
  | null h | true h | false h | string h _ | noItems h _ | array h _ _ | noMembers h _
  | object h _ _ | lastMember h _ _ _ _ _ | nextMember h _ _ _ _ _ _ _ =>
    exact ⟨_, _, h, by decide, by decide⟩
  | number h =>
    obtain ⟨c, t, hcs, hc⟩ := readNumber_head h
    refine ⟨c, t, hcs, ?_, ?_⟩
    all_goals
      rintro rfl
      exact absurd hc (by decide)
  | lastItem _ _ ih | nextItem _ _ _ ih _ => exact ih

theorem append (h : Reads d f cs r) (hends : f.isNumber = Bool.false ∨ r ≠ []) (more : List Char) :
    Reads d f (cs ++ more) (r ++ more) := by
  induction h with
  | null h => exact null (skipBlanks_append h more)
  | true h => exact .true (skipBlanks_append h more)
  | false h => exact .false (skipBlanks_append h more)
  | string h htext => exact string (skipBlanks_append h more) (readText_append htext more)
  | @number d cs r h =>
    obtain ⟨c, t, hcs, _⟩ := readNumber_head h
    have hleft : r ≠ [] := hends.resolve_left (by simp [Found.isNumber])
    have hskip : skipBlanks (cs ++ more) = skipBlanks cs ++ more := by
      rw [skipBlanks_append hcs, hcs]
    have htaken : taken (skipBlanks cs ++ more) (r ++ more) = taken (skipBlanks cs) r := by
      unfold taken
      rw [List.length_append, List.length_append, Nat.add_sub_add_right,
        List.take_append_of_le_length (Nat.sub_le _ _)]
    rw [← htaken, ← hskip]
    refine number ?_
    rw [hskip]
    exact readNumber_append h hleft more
  | noItems h h' => exact noItems (skipBlanks_append h more) (skipBlanks_append h' more)
  | array h _ ih => exact array (skipBlanks_append h more) (ih (.inl rfl))
  | noMembers h h' => exact noMembers (skipBlanks_append h more) (skipBlanks_append h' more)
  | object h _ ih => exact object (skipBlanks_append h more) (ih (.inl rfl))
  | lastItem _ h ih =>
    -- a value in brackets has the closing one after it, so it may be a number
    refine lastItem (ih (.inr ?_)) (skipBlanks_append h more)
    rintro rfl
    cases h
  | nextItem _ h _ ih ih' =>
    refine nextItem (ih (.inr ?_)) (skipBlanks_append h more) (ih' (.inl rfl))
    rintro rfl
    cases h
  | lastMember h htext hcolon _ hclose ih =>
    refine lastMember (skipBlanks_append h more) (readText_append htext more)
      (skipBlanks_append hcolon more) (ih (.inr ?_)) (skipBlanks_append hclose more)
    rintro rfl
    cases hclose
  | nextMember h htext hcolon _ hcomma _ ih ih' =>
    refine nextMember (skipBlanks_append h more) (readText_append htext more)
      (skipBlanks_append hcolon more) (ih (.inr ?_)) (skipBlanks_append hcomma more)
      (ih' (.inl rfl))
    rintro rfl
    cases hcomma

end Reads

/-! ## the reader -/

section Reader
variable {d fuel : Nat} {cs t r : List Char}

theorem readValue_skipBlanks (fuel d : Nat) (cs : List Char) :
    readValue fuel d (skipBlanks cs) = readValue fuel d cs := by
  cases fuel with
  | zero => rfl
  | succ fuel => rw [readValue, readValue, skipBlanks_idem]

theorem readItems_skipBlanks (fuel d : Nat) (cs : List Char) :
    readItems fuel d (skipBlanks cs) = readItems fuel d cs := by
  cases fuel with
  | zero => rfl
  | succ fuel => rw [readItems, readItems, readValue_skipBlanks]

theorem readMembers_skipBlanks (fuel d : Nat) (cs : List Char) :
    readMembers fuel d (skipBlanks cs) = readMembers fuel d cs := by
  cases fuel with
  | zero => rfl
  | succ fuel => rw [readMembers, readMembers, skipBlanks_idem]

theorem readValue_string (h : skipBlanks cs = '"' :: t) :
    readValue (fuel + 1) d cs = (readText t).map fun p => (.string p.1, p.2) := by
  rw [readValue, h]
  rfl

theorem readValue_array (h : skipBlanks cs = '[' :: t) (ht : ∀ r, skipBlanks t ≠ ']' :: r) :
    readValue (fuel + 1) (d + 1) cs = (readItems fuel d t).map fun p => (.array p.1, p.2) := by
  rw [readValue, h, ← readItems_skipBlanks]
  -- by `ht` the inner match comes to its last case
  simp only

theorem readValue_object (h : skipBlanks cs = '\x7b' :: t) (ht : ∀ r, skipBlanks t ≠ '\x7d' :: r) :
    readValue (fuel + 1) (d + 1) cs = (readMembers fuel d t).map fun p => (.object p.1, p.2) := by
  rw [readValue, h, ← readMembers_skipBlanks]
  -- by `ht` the inner match comes to its last case
  simp only

theorem readValue_number (h : readNumber (skipBlanks cs) = some r) :
    readValue (fuel + 1) d cs = some (.number (taken (skipBlanks cs) r), r) := by
  obtain ⟨c, t, hcs, hc⟩ := readNumber_head h
  rw [readValue]
  split
  all_goals first
    | rw [h]; rfl
    | rename_i hother
      cases hcs.symm.trans hother
      exact absurd hc (by decide)

/-- a call of the reader that finds `f` -/
def Found.ReadWith (fuel d : Nat) (cs r : List Char) : Found → Prop
  | value v => readValue fuel d cs = some (v, r)
  | items vs => readItems fuel d cs = some (vs, r)
  | members ms => readMembers fuel d cs = some (ms, r)

/-- **The reader finds what the grammar says**, when its calls are as many as the characters. -/
theorem Reads.readWith {f : Found} (h : Reads d f cs r) (hfuel : cs.length ≤ fuel + r.length) :
    f.ReadWith fuel d cs r := by
  obtain ⟨fuel, rfl⟩ : ∃ n, fuel = n + 1 := ⟨fuel - 1, by have := h.shortens; omega⟩
  induction h generalizing fuel with
  | null h | true h | false h =>
    show readValue _ _ _ = _
    rw [readValue, h]
    rfl
  | string h htext =>
    show readValue _ _ _ = _
    rw [readValue_string h, htext]
    rfl
  | number h => exact readValue_number h
  | noItems h h' | noMembers h h' =>
    show readValue _ _ _ = _
    rw [readValue, h]
    simp only [h']
  | array h hitems ih =>
    obtain ⟨c, u, hu, hbracket, _⟩ := hitems.head
    have hlength := length_lt_of_skipBlanks h
    have hshort := hitems.shortens
    obtain ⟨fuel, rfl⟩ : ∃ n, fuel = n + 1 := ⟨fuel - 1, by omega⟩
    have hread : readItems (fuel + 1) _ _ = _ := ih fuel (by omega)
    show readValue _ _ _ = _
    rw [readValue_array h, hread]
    · rfl
    · rintro r hr
      cases hu.symm.trans hr
      exact hbracket rfl
  | object h hmembers ih =>
    obtain ⟨c, u, hu, _, hbrace⟩ := hmembers.head
    have hlength := length_lt_of_skipBlanks h
    have hshort := hmembers.shortens
    obtain ⟨fuel, rfl⟩ : ∃ n, fuel = n + 1 := ⟨fuel - 1, by omega⟩
    have hread : readMembers (fuel + 1) _ _ = _ := ih fuel (by omega)
    show readValue _ _ _ = _
    rw [readValue_object h, hread]
    · rfl
    · rintro r hr
      cases hu.symm.trans hr
      exact hbrace rfl
  | lastItem hv hclose ih =>
    have hlength := length_lt_of_skipBlanks hclose
    have hshort := hv.shortens
    obtain ⟨fuel, rfl⟩ : ∃ n, fuel = n + 1 := ⟨fuel - 1, by omega⟩
    have hread : readValue (fuel + 1) _ _ = _ := ih fuel (by omega)
    show readItems _ _ _ = _
    rw [readItems, hread]
    simp only [Option.bind_eq_bind, Option.bind_some, hclose]
  | nextItem hv hcomma hvs ih ih' =>
    have hlength := length_lt_of_skipBlanks hcomma
    have hshort := hv.shortens
    have hshort' := hvs.shortens
    obtain ⟨fuel, rfl⟩ : ∃ n, fuel = n + 1 := ⟨fuel - 1, by omega⟩
    have hread : readValue (fuel + 1) _ _ = _ := ih fuel (by omega)
    have hrest : readItems (fuel + 1) _ _ = _ := ih' fuel (by omega)
    show readItems _ _ _ = _
    rw [readItems, hread]
    simp only [Option.bind_eq_bind, Option.bind_some, hcomma, hrest]
  | lastMember h htext hcolon hv hclose ih =>
    have hlength := length_lt_of_skipBlanks h
    have htextLength := readText_shortens htext
    have hcolonLength := length_lt_of_skipBlanks hcolon
    have hcloseLength := length_lt_of_skipBlanks hclose
    have hshort := hv.shortens
    obtain ⟨fuel, rfl⟩ : ∃ n, fuel = n + 1 := ⟨fuel - 1, by omega⟩
    have hread : readValue (fuel + 1) _ _ = _ := ih fuel (by omega)
    show readMembers _ _ _ = _
    rw [readMembers, h]
    simp only [htext, Option.bind_eq_bind, Option.bind_some, hcolon, hread, hclose]
  | nextMember h htext hcolon hv hcomma hms ih ih' =>
    have hlength := length_lt_of_skipBlanks h
    have htextLength := readText_shortens htext
    have hcolonLength := length_lt_of_skipBlanks hcolon
    have hcommaLength := length_lt_of_skipBlanks hcomma
    have hshort := hv.shortens
    have hshort' := hms.shortens
    obtain ⟨fuel, rfl⟩ : ∃ n, fuel = n + 1 := ⟨fuel - 1, by omega⟩
    have hread : readValue (fuel + 1) _ _ = _ := ih fuel (by omega)
    have hrest : readMembers (fuel + 1) _ _ = _ := ih' fuel (by omega)
    show readMembers _ _ _ = _
    rw [readMembers, h]
    simp only [htext, Option.bind_eq_bind, Option.bind_some, hcolon, hread, hcomma, hrest]

/-- one call for a value, when the calls for what is in brackets find what the grammar says -/
theorem Reads.of_readValue (hitems : ∀ {d cs vs r}, readItems fuel d cs = some (vs, r) →
      Reads d (.items vs) cs r)
    (hmembers : ∀ {d cs ms r}, readMembers fuel d cs = some (ms, r) → Reads d (.members ms) cs r)
    {v : Value} (h : readValue (fuel + 1) d cs = some (v, r)) : Reads d (.value v) cs r := by
  rw [readValue] at h
  split at h
  next s hs => cases h; exact .null hs
  next s hs => cases h; exact .true hs
  next s hs => cases h; exact .false hs
  next s hs =>
    obtain ⟨⟨text, r'⟩, htext, hp⟩ := Option.map_eq_some_iff.mp h
    cases hp
    exact .string hs htext
  next s hs =>
    split at h
    next => cases h
    next d =>
      split at h
      next t ht => cases h; exact .noItems hs ht
      next =>
        obtain ⟨⟨vs, r'⟩, hvs, hp⟩ := Option.map_eq_some_iff.mp h
        cases hp
        exact .array hs (hitems (readItems_skipBlanks .. ▸ hvs))
  next s hs =>
    split at h
    next => cases h
    next d =>
      split at h
      next t ht => cases h; exact .noMembers hs ht
      next =>
        obtain ⟨⟨ms, r'⟩, hms, hp⟩ := Option.map_eq_some_iff.mp h
        cases hp
        exact .object hs (hmembers (readMembers_skipBlanks .. ▸ hms))
  next =>
    obtain ⟨r', hr, hp⟩ := Option.map_eq_some_iff.mp h
    cases hp
    exact .number hr

theorem Reads.of_readWith {f : Found} (h : f.ReadWith fuel d cs r) : Reads d f cs r := by
  induction fuel generalizing d f cs r with
  | zero => cases f <;> cases h
  | succ fuel ih =>
    cases f with
    | value v => exact of_readValue (fun hvs => ih hvs) (fun hms => ih hms) h
    | items vs =>
      replace h : readItems (fuel + 1) d cs = some (vs, r) := h
      simp only [readItems, Option.bind_eq_bind, Option.bind_eq_some_iff, Prod.exists] at h
      obtain ⟨v, t, hv, h⟩ := h
      have hvalue : Reads d (.value v) cs t := ih hv
      split at h
      next u hu =>
        simp only [Option.bind_eq_some_iff, Prod.exists] at h
        obtain ⟨ws, s, hws, hp⟩ := h
        cases hp
        exact .nextItem hvalue hu (ih hws)
      next u hu => cases h; exact .lastItem hvalue hu
      next => cases h
    | members ms =>
      replace h : readMembers (fuel + 1) d cs = some (ms, r) := h
      rw [readMembers] at h
      split at h
      next t ht =>
        simp only [Option.bind_eq_bind, Option.bind_eq_some_iff, Prod.exists] at h
        obtain ⟨name, u, htext, h⟩ := h
        split at h
        next w hw =>
          simp only [Option.bind_eq_some_iff, Prod.exists] at h
          obtain ⟨v, x, hv, h⟩ := h
          have hvalue : Reads d (.value v) w x := ih hv
          split at h
          next y hy =>
            simp only [Option.bind_eq_some_iff, Prod.exists] at h
            obtain ⟨ns, s, hns, hp⟩ := h
            cases hp
            exact .nextMember ht htext hw hvalue hy (ih hns)
          next y hy => cases h; exact .lastMember ht htext hw hvalue hy
          next => cases h
        next => cases h
      next => cases h

/-- **The reader follows the grammar.** -/
theorem read_eq_some_iff {v : Value} : read cs = some (v, r) ↔ Reads maxDepth (.value v) cs r := by
  constructor
  · intro h
    exact Reads.of_readWith (f := .value v) h
  · intro h
    exact h.readWith (by omega)

/-- white space before a value may be left out -/
theorem Reads.of_skipBlanks {v : Value} (h : Reads d (.value v) cs r) :
    Reads d (.value v) (skipBlanks cs) r := by
  have hread : readValue cs.length d cs = some (v, r) := h.readWith (Nat.le_add_right _ _)
  rw [← readValue_skipBlanks] at hread
  exact Reads.of_readWith (f := .value v) hread

end Reader

end HtmlTree.Json
