import HtmlTree.Json.Number
import HtmlTree.Json.Text
import Mathlib.Data.List.TakeWhile

/-!
# Literals in front of other text

A literal is read from the front of a text, and what follows it is left as it is.  A string ends with
its closing quote, so nothing that follows can change how it is read.  A number ends where a
character stands that cannot go on with it, so it needs such a character after it.

* `Spelled`                                   the grammar of a string, `readPieces_eq_some_iff`;
* `readText_append`, `readText_shortens`      a string before more text;
* `readText_encode`                           **a written string is read back**, whatever follows;
* `readNumber_append`, `readNumber_shortens`  a number before more text;
* `readNumber_before`                         a number before what does not go on with it.
-/

namespace HtmlTree.Json

/-! ## the grammar of a string -/

/-- `cs` is the pieces `ps` up to a closing quote, and then `rest` -/
inductive Spelled (rest : List Char) : List Piece → List Char → Prop where
  | closed : Spelled rest [] ('"' :: rest)
  | unit {a b c d : Char} {n : Nat} {ps : List Piece} {r : List Char} :
      unit? a b c d = some n → Spelled rest ps r →
      Spelled rest (.unit n :: ps) ('\\' :: 'u' :: a :: b :: c :: d :: r)
  | escape {e c : Char} {ps : List Piece} {r : List Char} :
      shortEscape? e = some c → Spelled rest ps r → Spelled rest (.char c :: ps) ('\\' :: e :: r)
  | char {c : Char} {ps : List Piece} {r : List Char} :
      c ≠ '"' → c ≠ '\\' → ¬ c.toNat < 0x20 → Spelled rest ps r →
      Spelled rest (.char c :: ps) (c :: r)

namespace Spelled
variable {cs rest more : List Char} {ps : List Piece}

theorem read (h : Spelled rest ps cs) : readPieces cs = some (ps, rest) := by
  induction h with
  | closed => rfl
  | unit hn _ ih =>
    rw [readPieces, hn, ih]
    rfl
  | escape hc _ ih =>
    rw [readPieces, hc, ih]
    · rfl
    · rintro _ _ _ _ _ rfl
      cases hc
  | char hquote hslash hc _ ih =>
    rw [readPieces, if_neg hc, ih]
    · rfl
    · exact hquote
    · intro _ _ _ _ _ h
      exact absurd h hslash
    · intro _ _ h
      exact absurd h hslash

theorem of_read (h : readPieces cs = some (ps, rest)) : Spelled rest ps cs := by
  induction cs using readPieces.induct generalizing ps with
  | case1 => cases h
  | case2 r =>
    cases h
    exact closed
  | case3 a b c d r ih =>
    rw [readPieces] at h
    simp only [Option.bind_eq_bind, Option.bind_eq_some_iff] at h
    obtain ⟨n, hn, ⟨qs, s⟩, hr, hp⟩ := h
    cases hp
    exact unit hn (ih hr)
  | case4 e r hu ih =>
    rw [readPieces.eq_4 _ _ hu] at h
    simp only [Option.bind_eq_bind, Option.bind_eq_some_iff] at h
    obtain ⟨c, hc, ⟨qs, s⟩, hr, hp⟩ := h
    cases hp
    exact escape hc (ih hr)
  | case5 c r hquote hu hslash hc =>
    rw [readPieces.eq_5 _ _ hquote hu hslash, if_pos hc] at h
    cases h
  | case6 c r hquote hu hslash hc ih =>
    rw [readPieces.eq_5 _ _ hquote hu hslash, if_neg hc] at h
    simp only [Option.bind_eq_bind, Option.bind_eq_some_iff] at h
    obtain ⟨⟨qs, s⟩, hr, hp⟩ := h
    cases hp
    refine char hquote ?_ hc (ih hr)
    -- a backslash with nothing after it is not followed by a closing quote
    rintro rfl
    cases r with
    | nil => cases hr
    | cons e r => exact hslash e r rfl rfl

theorem append (h : Spelled rest ps cs) (more : List Char) :
    Spelled (rest ++ more) ps (cs ++ more) := by
  induction h with
  | closed => exact closed
  | unit hn _ ih => exact unit hn ih
  | escape hc _ ih => exact escape hc ih
  | char hquote hslash hc _ ih => exact char hquote hslash hc ih

theorem shortens (h : Spelled rest ps cs) : rest.length < cs.length := by
  induction h with
  | closed => exact Nat.lt_succ_self _
  | unit _ _ ih | escape _ _ ih | char _ _ _ _ ih =>
    simp only [List.length_cons]
    omega

end Spelled

theorem readPieces_eq_some_iff {cs rest : List Char} {ps : List Piece} :
    readPieces cs = some (ps, rest) ↔ Spelled rest ps cs :=
  ⟨Spelled.of_read, Spelled.read⟩

/-! ## strings -/

section Strings
variable {cs rest : List Char} {text : String}

theorem readText_eq_some_iff : readText cs = some (text, rest) ↔
    ∃ ps, Spelled rest ps cs ∧ joinPieces ps = some text.toList := by
  simp only [readText, Option.bind_eq_bind, Option.bind_eq_some_iff, Prod.exists,
    readPieces_eq_some_iff, Option.some.injEq, Prod.mk.injEq]
  constructor
  · rintro ⟨ps, r, hps, t, ht, rfl, rfl⟩
    exact ⟨ps, hps, by rw [ht, String.toList_ofList]⟩
  · rintro ⟨ps, hps, ht⟩
    exact ⟨ps, rest, hps, text.toList, ht, String.ofList_toList, rfl⟩

theorem readText_append (h : readText cs = some (text, rest)) (more : List Char) :
    readText (cs ++ more) = some (text, rest ++ more) := by
  obtain ⟨ps, hps, htext⟩ := readText_eq_some_iff.mp h
  exact readText_eq_some_iff.mpr ⟨ps, hps.append more, htext⟩

theorem readText_shortens (h : readText cs = some (text, rest)) : rest.length < cs.length := by
  obtain ⟨ps, hps, _⟩ := readText_eq_some_iff.mp h
  exact hps.shortens

/-! ## strings read back -/

theorem hexValue?_hexDigit {n : Nat} (h : n < 16) : hexValue? (hexDigit n) = some n := by
  have hall : ∀ m < 16, hexValue? (hexDigit m) = some m := by decide
  exact hall n h

/-- a control character is written as a unit with two digits -/
theorem unit?_control {c : Char} (h : c.toNat < 0x20) :
    unit? '0' '0' (hexDigit (c.toNat / 16)) (hexDigit (c.toNat % 16)) = some c.toNat := by
  have hzero : hexValue? '0' = some 0 := by decide
  rw [unit?, hzero, hexValue?_hexDigit (by omega), hexValue?_hexDigit (by omega)]
  show some (((0 * 16 + 0) * 16 + c.toNat / 16) * 16 + c.toNat % 16) = some c.toNat
  congr 1
  omega

/-- `written` is one piece of a string, which stands for `c` -/
def StandsFor (written : List Char) (c : Char) : Prop :=
  ∃ p : Piece, (∀ ps, joinPieces (p :: ps) = (joinPieces ps).map (c :: ·)) ∧
    ∀ rest ps cs, Spelled rest ps cs → Spelled rest (p :: ps) (written ++ cs)

theorem standsFor_escape {e c : Char} (h : shortEscape? e = some c) : StandsFor ['\\', e] c :=
  ⟨.char c, fun _ => rfl, fun _ _ _ hs => .escape h hs⟩

theorem standsFor_control {c : Char} (h : c.toNat < 0x20) :
    StandsFor ['\\', 'u', '0', '0', hexDigit (c.toNat / 16), hexDigit (c.toNat % 16)] c := by
  refine ⟨.unit c.toNat, fun ps => ?_, fun _ _ _ hs => .unit (unit?_control h) hs⟩
  have hhigh : isHighSurrogate c.toNat = false := by
    simp only [isHighSurrogate, Bool.and_eq_false_iff, decide_eq_false_iff_not]
    omega
  have hlow : isLowSurrogate c.toNat = false := by
    simp only [isLowSurrogate, Bool.and_eq_false_iff, decide_eq_false_iff_not]
    omega
  rw [joinPieces.eq_def]
  simp only [hhigh, hlow, Char.ofNat_toNat]
  rfl

/-- **The written form of a character is one piece**, which stands for it. -/
theorem encodeChar_standsFor (c : Char) : StandsFor (encodeChar c) c := by
  unfold encodeChar
  split_ifs with hquote hslash hn ht hr hb hf hc
  case pos => exact standsFor_escape (by rw [hquote]; rfl)
  case pos => exact standsFor_escape (by rw [hslash]; rfl)
  case pos => exact standsFor_escape (by rw [hn]; rfl)
  case pos => exact standsFor_escape (by rw [ht]; rfl)
  case pos => exact standsFor_escape (by rw [hr]; rfl)
  case pos => exact standsFor_escape (by rw [hb]; rfl)
  case pos => exact standsFor_escape (by rw [hf]; rfl)
  case pos => exact standsFor_control hc
  case neg => exact ⟨.char c, fun _ => rfl, fun _ _ _ hs => .char hquote hslash hc hs⟩

theorem exists_pieces (cs rest : List Char) : ∃ ps,
    joinPieces ps = some cs ∧ Spelled rest ps (cs.flatMap encodeChar ++ '"' :: rest) := by
  induction cs with
  | nil => exact ⟨[], rfl, .closed⟩
  | cons c cs ih =>
    obtain ⟨ps, hjoin, hps⟩ := ih
    obtain ⟨p, hp, hspelled⟩ := encodeChar_standsFor c
    refine ⟨p :: ps, by rw [hp, hjoin]; rfl, ?_⟩
    rw [List.flatMap_cons, List.append_assoc]
    exact hspelled _ _ _ hps

/-- **A written string is read back**, whatever follows it. -/
theorem readText_encode (text : String) (rest : List Char) :
    readText (text.toList.flatMap encodeChar ++ '"' :: rest) = some (text, rest) := by
  obtain ⟨ps, hjoin, hps⟩ := exists_pieces text.toList rest
  exact readText_eq_some_iff.mpr ⟨ps, hps, hjoin⟩

end Strings

/-! ## numbers -/

/-- what is left of a text is no longer than it, and what is read does not depend on what follows a
character that is left -/
def ReadsFront {α : Type} (read : List Char → Option (α × List Char)) : Prop :=
  ∀ cs x rest, read cs = some (x, rest) → rest.length ≤ cs.length ∧
    (rest ≠ [] → ∀ more, read (cs ++ more) = some (x, rest ++ more))

section Numbers
variable {cs rest ds : List Char}

theorem readDigits_eq_some_iff : readDigits cs = some (ds, rest) ↔
    cs = ds ++ rest ∧ ds ≠ [] ∧ (∀ d ∈ ds, d.isDigit = true) ∧
      ∀ c ∈ rest.head?, c.isDigit = false := by
  constructor
  · intro h
    unfold readDigits at h
    split at h
    next => cases h
    next d l hd =>
      cases h
      refine ⟨?_, List.cons_ne_nil d l, fun x hx => ?_, fun c hc => ?_⟩
      · rw [← hd, List.takeWhile_append_dropWhile]
      · rw [← hd] at hx
        exact List.mem_takeWhile_imp hx
      · have hnot := List.head?_dropWhile_not Char.isDigit cs
        rw [Option.mem_def.mp hc] at hnot
        exact hnot
  · rintro ⟨rfl, hne, hdigits, hrest⟩
    have htake : (ds ++ rest).takeWhile Char.isDigit = ds := by
      rw [List.takeWhile_append_of_pos hdigits]
      cases rest with
      | nil => exact List.append_nil ds
      | cons c r =>
        rw [List.takeWhile_cons, hrest c rfl]
        exact List.append_nil ds
    have hdrop : (ds ++ rest).dropWhile Char.isDigit = rest := by
      rw [List.dropWhile_append_of_pos hdigits]
      cases rest with
      | nil => rfl
      | cons c r => rw [List.dropWhile_cons, hrest c rfl]; rfl
    obtain ⟨d, l, rfl⟩ := List.exists_cons_of_ne_nil hne
    rw [readDigits, htake, hdrop]

theorem readDigits_front : ReadsFront readDigits := by
  intro cs ds rest h
  obtain ⟨rfl, hne, hdigits, hrest⟩ := readDigits_eq_some_iff.mp h
  refine ⟨by simp, fun hleft more => ?_⟩
  refine readDigits_eq_some_iff.mpr ⟨List.append_assoc .., hne, hdigits, ?_⟩
  obtain ⟨c, r, rfl⟩ := List.exists_cons_of_ne_nil hleft
  exact hrest

theorem readInteger_eq_some_iff : readInteger cs = some (ds, rest) ↔
    readDigits cs = some (ds, rest) ∧ ∀ d l, ds ≠ '0' :: d :: l := by
  unfold readInteger
  simp only [Option.bind_eq_bind, Option.bind_eq_some_iff, Prod.exists]
  constructor
  · rintro ⟨ds', r, hds, h⟩
    split at h
    next => cases h
    next hzero =>
      cases h
      exact ⟨hds, fun d l => hzero d l⟩
  · rintro ⟨hds, hzero⟩
    refine ⟨ds, rest, hds, ?_⟩
    split
    next d l => exact absurd rfl (hzero d l)
    next => rfl

theorem readInteger_front : ReadsFront readInteger := by
  intro cs ds rest h
  obtain ⟨hds, hzero⟩ := readInteger_eq_some_iff.mp h
  obtain ⟨hlength, happend⟩ := readDigits_front _ _ _ hds
  exact ⟨hlength, fun hleft more => readInteger_eq_some_iff.mpr ⟨happend hleft more, hzero⟩⟩

theorem readFraction_point (cs : List Char) :
    readFraction ('.' :: cs) = (readDigits cs).map fun p => (some p.1, p.2) := by
  rw [readFraction]
  cases readDigits cs <;> rfl

theorem readFraction_none {c : Char} (h : c ≠ '.') (cs : List Char) :
    readFraction (c :: cs) = some (none, c :: cs) := by
  rw [readFraction]
  exact fun _ heq => h (List.cons.inj heq).1

theorem readFraction_front : ReadsFront readFraction := by
  intro cs frac rest h
  cases cs with
  | nil =>
    cases h
    exact ⟨le_rfl, fun hleft => absurd rfl hleft⟩
  | cons c cs =>
    by_cases hc : c = '.'
    · subst hc
      rw [readFraction_point, Option.map_eq_some_iff] at h
      obtain ⟨⟨ds, r⟩, hds, hp⟩ := h
      cases hp
      obtain ⟨hlength, happend⟩ := readDigits_front _ _ _ hds
      refine ⟨Nat.le_succ_of_le hlength, fun hleft more => ?_⟩
      rw [List.cons_append, readFraction_point, happend hleft more]
      rfl
    · rw [readFraction_none hc] at h
      cases h
      exact ⟨le_rfl, fun _ more => readFraction_none hc (cs ++ more)⟩

theorem readSign_append (h : cs ≠ []) (more : List Char) :
    readSign (cs ++ more) = ((readSign cs).1, (readSign cs).2 ++ more) := by
  obtain ⟨c, r, rfl⟩ := List.exists_cons_of_ne_nil h
  by_cases hplus : c = '+'
  · subst hplus
    rfl
  by_cases hminus : c = '-'
  · subst hminus
    rfl
  have hnone : ∀ r, readSign (c :: r) = (false, c :: r) := by
    intro r
    rw [readSign]
    · exact fun _ heq => hplus (List.cons.inj heq).1
    · exact fun _ heq => hminus (List.cons.inj heq).1
  rw [List.cons_append, hnone, hnone]
  rfl

theorem readSign_length (cs : List Char) : (readSign cs).2.length ≤ cs.length := by
  unfold readSign
  split
  · exact Nat.le_succ _
  · exact Nat.le_succ _
  · exact le_rfl

theorem readExponent_front : ReadsFront readExponent := by
  intro cs exp rest h
  cases cs with
  | nil =>
    cases h
    exact ⟨le_rfl, fun hleft => absurd rfl hleft⟩
  | cons c cs =>
    simp only [readExponent, List.cons_append] at h ⊢
    split at h
    next hc =>
      simp only [Option.bind_eq_bind, Option.bind_eq_some_iff, Prod.exists, Option.some.injEq,
        Prod.mk.injEq] at h
      obtain ⟨ds, r, hds, hexp, rfl⟩ := h
      obtain ⟨hlength, happend⟩ := readDigits_front _ _ _ hds
      refine ⟨(hlength.trans (readSign_length cs)).trans (Nat.le_succ _), fun hleft more => ?_⟩
      have hne : cs ≠ [] := by
        rintro rfl
        cases hds
      rw [if_pos hc, readSign_append hne]
      simp only [happend hleft more, Option.bind_eq_bind, Option.bind_some, hexp]
    next hc =>
      cases h
      exact ⟨le_rfl, fun _ more => if_neg hc⟩

theorem readUnsigned_eq_some_iff : readUnsigned cs = some rest ↔ ∃ int r frac s exp,
    readInteger cs = some (int, r) ∧ readFraction r = some (frac, s) ∧
      readExponent s = some (exp, rest) ∧
      (let m := Magnitude.ofInteger int
       let m := frac.elim m m.withFraction
       exp.elim m m.withExponent).isFinite = true := by
  simp only [readUnsigned, Option.bind_eq_bind, Option.bind_eq_some_iff, Prod.exists,
    Option.ite_none_right_eq_some, Option.some.injEq]
  constructor
  · rintro ⟨int, r, hint, frac, s, hfrac, exp, t, hexp, hfinite, rfl⟩
    exact ⟨int, r, frac, s, exp, hint, hfrac, hexp, hfinite⟩
  · rintro ⟨int, r, frac, s, exp, hint, hfrac, hexp, hfinite⟩
    exact ⟨int, r, hint, frac, s, hfrac, exp, rest, hexp, hfinite, rfl⟩

theorem readUnsigned_shortens (h : readUnsigned cs = some rest) : rest.length < cs.length := by
  obtain ⟨int, r, frac, s, exp, hint, hfrac, hexp, _⟩ := readUnsigned_eq_some_iff.mp h
  obtain ⟨rfl, hne, _, _⟩ := readDigits_eq_some_iff.mp (readInteger_eq_some_iff.mp hint).1
  have hpos : 0 < int.length := List.length_pos_iff.mpr hne
  have hs := (readFraction_front _ _ _ hfrac).1
  have hrest := (readExponent_front _ _ _ hexp).1
  rw [List.length_append]
  omega

theorem readUnsigned_append (h : readUnsigned cs = some rest) (hleft : rest ≠ [])
    (more : List Char) : readUnsigned (cs ++ more) = some (rest ++ more) := by
  obtain ⟨int, r, frac, s, exp, hint, hfrac, hexp, hfinite⟩ := readUnsigned_eq_some_iff.mp h
  obtain ⟨_, hint⟩ := readInteger_front _ _ _ hint
  obtain ⟨hs, hfrac⟩ := readFraction_front _ _ _ hfrac
  obtain ⟨hrest, hexp⟩ := readExponent_front _ _ _ hexp
  -- what each part leaves is no shorter than what is left in the end
  have hpos : 0 < rest.length := List.length_pos_iff.mpr hleft
  have hsne : s ≠ [] := List.length_pos_iff.mp (hpos.trans_le hrest)
  have hrne : r ≠ [] := List.length_pos_iff.mp ((hpos.trans_le hrest).trans_le hs)
  exact readUnsigned_eq_some_iff.mpr
    ⟨int, _, frac, _, exp, hint hrne more, hfrac hsne more, hexp hleft more, hfinite⟩

theorem readNumber_unsigned {c : Char} (h : c ≠ '-') (cs : List Char) :
    readNumber (c :: cs) = readUnsigned (c :: cs) := by
  rw [readNumber]
  exact fun _ heq => h (List.cons.inj heq).1

/-- a number begins with a minus sign or a digit -/
theorem readNumber_head (h : readNumber cs = some rest) :
    ∃ c r, cs = c :: r ∧ (c = '-' ∨ c.isDigit = true) := by
  cases cs with
  | nil => cases h
  | cons c r =>
    refine ⟨c, r, rfl, ?_⟩
    by_cases hc : c = '-'
    · exact .inl hc
    · rw [readNumber_unsigned hc] at h
      obtain ⟨int, s, _, _, _, hint, _⟩ := readUnsigned_eq_some_iff.mp h
      obtain ⟨hsplit, hne, hdigits, _⟩ :=
        readDigits_eq_some_iff.mp (readInteger_eq_some_iff.mp hint).1
      obtain ⟨d, l, rfl⟩ := List.exists_cons_of_ne_nil hne
      cases hsplit
      exact .inr (hdigits c List.mem_cons_self)

theorem readNumber_shortens (h : readNumber cs = some rest) : rest.length < cs.length := by
  obtain ⟨c, r, rfl, _⟩ := readNumber_head h
  by_cases hc : c = '-'
  · subst hc
    exact (readUnsigned_shortens h).trans (Nat.lt_succ_self _)
  · rw [readNumber_unsigned hc] at h
    exact readUnsigned_shortens h

theorem readNumber_append (h : readNumber cs = some rest) (hleft : rest ≠ []) (more : List Char) :
    readNumber (cs ++ more) = some (rest ++ more) := by
  obtain ⟨c, r, rfl, _⟩ := readNumber_head h
  by_cases hc : c = '-'
  · subst hc
    exact readUnsigned_append h hleft more
  · rw [readNumber_unsigned hc] at h
    rw [List.cons_append, readNumber_unsigned hc]
    exact readUnsigned_append h hleft more

/-- at the end of a text it may go on with what is put there -/
example : readNumber ['1'] = some [] ∧ readNumber (['1'] ++ ['2', ',']) = some [','] := by decide

end Numbers

/-! ## numbers before what cannot go on with them -/

/-- a text that does not go on with a number -/
def EndsNumber (more : List Char) : Prop :=
  ∀ c ∈ more.head?, c.isDigit = false ∧ c ≠ '.' ∧ c ≠ 'e' ∧ c ≠ 'E'

/-- what is read does not depend on a text behind it that does not go on with a number -/
def ReadsBefore {α : Type} (read : List Char → Option (α × List Char)) : Prop :=
  ∀ cs x rest more, read cs = some (x, rest) → EndsNumber more →
    read (cs ++ more) = some (x, rest ++ more)

section Ends
variable {cs rest more : List Char}

/-- it is enough to look at what is read up to the end of a text -/
theorem ReadsFront.readsBefore {α : Type} {read : List Char → Option (α × List Char)}
    (hfront : ReadsFront read) (hend : ∀ cs x more, read cs = some (x, []) → EndsNumber more →
      read (cs ++ more) = some (x, more)) : ReadsBefore read := by
  intro cs x rest more h hmore
  by_cases hleft : rest = []
  · subst hleft
    exact hend cs x more h hmore
  · exact (hfront cs x rest h).2 hleft more

theorem readDigits_before : ReadsBefore readDigits :=
  readDigits_front.readsBefore fun cs ds more h hmore => by
    obtain ⟨rfl, hne, hdigits, _⟩ := readDigits_eq_some_iff.mp h
    rw [List.append_nil]
    exact readDigits_eq_some_iff.mpr ⟨rfl, hne, hdigits, fun c hc => (hmore c hc).1⟩

theorem readInteger_before : ReadsBefore readInteger := by
  intro cs ds rest more h hmore
  obtain ⟨hds, hzero⟩ := readInteger_eq_some_iff.mp h
  exact readInteger_eq_some_iff.mpr ⟨readDigits_before _ _ _ _ hds hmore, hzero⟩

theorem readFraction_before : ReadsBefore readFraction :=
  readFraction_front.readsBefore fun cs frac more h hmore => by
    cases cs with
    | nil =>
      cases h
      cases more with
      | nil => rfl
      | cons c r => exact readFraction_none (hmore c rfl).2.1 r
    | cons c cs =>
      by_cases hc : c = '.'
      · subst hc
        rw [readFraction_point, Option.map_eq_some_iff] at h
        obtain ⟨⟨ds, r⟩, hds, hp⟩ := h
        cases hp
        rw [List.cons_append, readFraction_point, readDigits_before _ _ _ _ hds hmore]
        rfl
      · rw [readFraction_none hc] at h
        cases h

theorem readExponent_before : ReadsBefore readExponent :=
  readExponent_front.readsBefore fun cs exp more h hmore => by
    cases cs with
    | nil =>
      cases h
      cases more with
      | nil => rfl
      | cons c r => exact if_neg (not_or.mpr (hmore c rfl).2.2)
    | cons c cs =>
      simp only [readExponent, List.cons_append] at h ⊢
      split at h
      next hc =>
        simp only [Option.bind_eq_bind, Option.bind_eq_some_iff, Prod.exists, Option.some.injEq,
          Prod.mk.injEq] at h
        obtain ⟨ds, r, hds, hexp, rfl⟩ := h
        have hne : cs ≠ [] := by
          rintro rfl
          cases hds
        rw [if_pos hc, readSign_append hne]
        simp only [readDigits_before _ _ _ _ hds hmore, List.nil_append, Option.bind_eq_bind,
          Option.bind_some, hexp]
      next hc => cases h

theorem readUnsigned_before (h : readUnsigned cs = some rest) (hmore : EndsNumber more) :
    readUnsigned (cs ++ more) = some (rest ++ more) := by
  obtain ⟨int, r, frac, s, exp, hint, hfrac, hexp, hfinite⟩ := readUnsigned_eq_some_iff.mp h
  exact readUnsigned_eq_some_iff.mpr ⟨int, _, frac, _, exp, readInteger_before _ _ _ _ hint hmore,
    readFraction_before _ _ _ _ hfrac hmore, readExponent_before _ _ _ _ hexp hmore, hfinite⟩

/-- **A number is read as it is** before what does not go on with it. -/
theorem readNumber_before (h : readNumber cs = some rest) (hmore : EndsNumber more) :
    readNumber (cs ++ more) = some (rest ++ more) := by
  obtain ⟨c, r, rfl, _⟩ := readNumber_head h
  by_cases hc : c = '-'
  · subst hc
    exact readUnsigned_before h hmore
  · rw [readNumber_unsigned hc] at h
    rw [List.cons_append, readNumber_unsigned hc]
    exact readUnsigned_before h hmore

end Ends

end HtmlTree.Json
