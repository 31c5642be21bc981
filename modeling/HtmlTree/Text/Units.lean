import HtmlTree.Text.Bytes

/-!
# Offsets counted in UTF-16 units

Character data is addressed in UTF-16 code units: a character of the basic plane takes one unit,
any other takes two.  A walk over the characters turns such an offset into one of bytes.  An offset
that falls between the two units of one character is moved back to the character's start, and one
past the end to the end.

* `width`, `units`          the units of a character and of a text;
* `byteIndex`               the byte offset of an offset in units;
* `takeUnits`, `dropUnits`  the characters before and from an offset;
* `byteIndex_eq`            the byte offset is that of the cut between them;
* `cut_twice`               the parts of a text between two offsets.
-/

namespace HtmlTree.Text

/-- the UTF-16 units of a character -/
def width (c : Char) : Nat := if c.val < 0x10000 then 1 else 2

/-- the UTF-16 units of a text -/
def units : List Char → Nat
  | [] => 0
  | c :: r => width c + units r

/-- the byte offset of the character that holds unit `offset`, where `units` come before the characters
that are left; `size` if none of them holds it -/
def byteIndexFrom (offset size : Nat) : (units : Nat) → List (Nat × Char) → Nat
  | _, [] => size
  | units, (index, c) :: r =>
    let next := units + width c
    if offset < next then index else byteIndexFrom offset size next r

/-- the byte offset of the character that holds unit `offset`, or of the end -/
def byteIndex (s : String) (offset : Nat) : Nat :=
  byteIndexFrom offset s.utf8ByteSize 0 (charIndices 0 s.toList)

/-! ## cuts between characters -/

/-- the characters that end at or before unit `k` -/
def takeUnits : Nat → List Char → List Char
  | _, [] => []
  | k, c :: r => if k < width c then [] else c :: takeUnits (k - width c) r

/-- the characters from unit `k` on, beginning with the one that holds it -/
def dropUnits : Nat → List Char → List Char
  | _, [] => []
  | k, c :: r => if k < width c then c :: r else dropUnits (k - width c) r

theorem units_nil : units [] = 0 := rfl
theorem units_cons (c : Char) (r : List Char) : units (c :: r) = width c + units r := rfl

theorem units_append (s t : List Char) : units (s ++ t) = units s + units t := by
  induction s with
  | nil => rw [List.nil_append, units_nil, Nat.zero_add]
  | cons c r ih => rw [List.cons_append, units_cons, units_cons, ih, Nat.add_assoc]

theorem takeUnits_append_dropUnits (k : Nat) (s : List Char) :
    takeUnits k s ++ dropUnits k s = s := by
  induction s generalizing k with
  | nil => rfl
  | cons c r ih =>
    unfold takeUnits dropUnits
    by_cases h : k < width c
    · rw [if_pos h, if_pos h, List.nil_append]
    · rw [if_neg h, if_neg h, List.cons_append, ih]

theorem takeUnits_takeUnits (k m : Nat) (s : List Char) :
    takeUnits k (takeUnits m s) = takeUnits (min k m) s := by
  induction s generalizing k m with
  | nil => rfl
  | cons c r ih =>
    by_cases hm : m < width c
    · simp only [takeUnits, if_pos hm, if_pos (show min k m < width c by omega)]
    · by_cases hk : k < width c
      · simp only [takeUnits, if_neg hm, if_pos hk, if_pos (show min k m < width c by omega)]
      · have hmin : min (k - width c) (m - width c) = min k m - width c := by omega
        simp only [takeUnits, if_neg hm, if_neg hk, if_neg (show ¬ min k m < width c by omega),
          ih, hmin]

/-- a cut in what is before a later one -/
theorem takeUnits_append_between {k m : Nat} (h : k ≤ m) (s : List Char) :
    takeUnits k s ++ dropUnits k (takeUnits m s) = takeUnits m s := by
  have hcut := takeUnits_append_dropUnits k (takeUnits m s)
  rwa [takeUnits_takeUnits, Nat.min_eq_left h] at hcut

/-- the parts of a text before, between and behind two offsets -/
theorem cut_twice {k m : Nat} (h : k ≤ m) (s : String) :
    String.ofList (takeUnits k s.toList) ++ String.ofList (dropUnits k (takeUnits m s.toList)) ++
      String.ofList (dropUnits m s.toList) = s := by
  rw [← String.ofList_append, ← String.ofList_append, takeUnits_append_between h,
    takeUnits_append_dropUnits, String.ofList_toList]

/-! ## the byte offsets of cuts -/

/-- by induction on the characters that are left: `k` units of them come before the offset -/
theorem byteIndexFrom_eq (k size units index : Nat) (s : List Char)
    (hsize : size = index + (String.ofList s).utf8ByteSize) :
    byteIndexFrom (units + k) size units (charIndices index s) =
      index + (String.ofList (takeUnits k s)).utf8ByteSize := by
  induction s generalizing k units index with
  | nil => exact hsize
  | cons c r ih =>
    rw [charIndices, byteIndexFrom, takeUnits]
    by_cases h : k < width c
    · rw [if_pos h, if_pos (Nat.add_lt_add_left h units)]
      rfl
    · have hk : units + k = units + width c + (k - width c) := by omega
      rw [utf8ByteSize_cons, ← Nat.add_assoc] at hsize
      rw [if_neg h, if_neg (by omega), hk, ih _ _ _ hsize, utf8ByteSize_cons, Nat.add_assoc]

/-- **The byte offset of an offset in units is that of a cut between two characters.** -/
theorem byteIndex_eq (s : String) (k : Nat) :
    byteIndex s k = (String.ofList (takeUnits k s.toList)).utf8ByteSize := by
  have h := byteIndexFrom_eq k s.utf8ByteSize 0 0 s.toList
    (by rw [String.ofList_toList, Nat.zero_add])
  rwa [Nat.zero_add, Nat.zero_add] at h

theorem byteIndex_add {k m : Nat} (h : k ≤ m) (s : String) :
    byteIndex s m =
      byteIndex s k + (String.ofList (dropUnits k (takeUnits m s.toList))).utf8ByteSize := by
  rw [byteIndex_eq, byteIndex_eq, ← String.utf8ByteSize_append, ← String.ofList_append,
    takeUnits_append_between h]

theorem byteIndex_le {k m : Nat} (h : k ≤ m) (s : String) : byteIndex s k ≤ byteIndex s m := by
  rw [byteIndex_add h]
  exact Nat.le_add_right _ _

/-- the byte offset of the later of two offsets is the later one -/
theorem byteIndex_max (k m : Nat) (s : String) :
    byteIndex s (max k m) = max (byteIndex s k) (byteIndex s m) := by
  rcases Nat.le_total k m with h | h
  · rw [Nat.max_eq_right h, Nat.max_eq_right (byteIndex_le h s)]
  · rw [Nat.max_eq_left h, Nat.max_eq_left (byteIndex_le h s)]

end HtmlTree.Text
