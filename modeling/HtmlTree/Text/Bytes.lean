/-!
# Texts cut at byte offsets

A text is held in UTF-8 and is cut at offsets counted in bytes.  A cut is made only where a character
begins or the text ends, and two cuts only in their order; anywhere else there is no result.

* `charIndices`    the characters of a text with their offsets;
* `slice?`         the text between two offsets;
* `replaceRange?`  the text with another in place of what is between two offsets;
* `slice?_of_parts`, `replaceRange?_of_parts`   both, between the parts of a text.
-/

namespace HtmlTree.Text

/-- the characters of a text with their offsets, the first of which is `index` -/
def charIndices : (index : Nat) → List Char → List (Nat × Char)
  | _, [] => []
  | index, c :: r => (index, c) :: charIndices (index + c.utf8Size) r

/-- the text from byte `start` up to byte `stop` -/
def slice? (s : String) (start stop : Nat) : Option String :=
  if h : String.Pos.Raw.IsValid s ⟨start⟩ ∧ String.Pos.Raw.IsValid s ⟨stop⟩ ∧ start ≤ stop then
    some (s.extract (s.pos ⟨start⟩ h.1) (s.pos ⟨stop⟩ h.2.1))
  else none

/-- `text` in place of what is from byte `start` up to byte `stop` -/
def replaceRange? (s : String) (start stop : Nat) (text : String) : Option String :=
  if start ≤ stop then do
    let before ← slice? s 0 start
    let after ← slice? s stop s.utf8ByteSize
    return before ++ text ++ after
  else none

theorem utf8ByteSize_cons (c : Char) (r : List Char) :
    (String.ofList (c :: r)).utf8ByteSize = c.utf8Size + (String.ofList r).utf8ByteSize := by
  rw [String.ofList_cons, String.utf8ByteSize_append, String.utf8ByteSize_singleton]

section
variable {s a b c : String}

/-- the middle of three parts -/
theorem slice?_of_parts (h : a ++ b ++ c = s) :
    slice? s a.utf8ByteSize (a.utf8ByteSize + b.utf8ByteSize) = some b := by
  subst h
  have hstart : String.Pos.Raw.IsValid (a ++ b ++ c) ⟨a.utf8ByteSize⟩ :=
    String.Pos.Raw.isValid_iff_exists_append.mpr ⟨a, b ++ c, String.append_assoc, rfl⟩
  have hstop : String.Pos.Raw.IsValid (a ++ b ++ c) ⟨a.utf8ByteSize + b.utf8ByteSize⟩ :=
    String.Pos.Raw.isValid_iff_exists_append.mpr
      ⟨a ++ b, c, rfl, String.Pos.Raw.ext String.utf8ByteSize_append.symm⟩
  have hbytes : (a.toByteArray ++ (b.toByteArray ++ c.toByteArray)).extract
      (a.toByteArray.size + 0) (a.toByteArray.size + b.toByteArray.size) = b.toByteArray := by
    rw [ByteArray.extract_append_size_add, ByteArray.extract_append_eq_left rfl]
  unfold slice?
  rw [dif_pos ⟨hstart, hstop, Nat.le_add_right _ _⟩]
  refine congrArg some (String.toByteArray_inj.mp ?_)
  rw [String.toByteArray_extract, String.toByteArray_append, String.toByteArray_append,
    ByteArray.append_assoc]
  exact hbytes

/-- an emoji has four bytes, between which there is no cut -/
example : slice? "a😀b" 1 5 = some "😀" ∧ slice? "a😀b" 1 3 = none := by decide +kernel

theorem slice?_first (h : a ++ b = s) : slice? s 0 a.utf8ByteSize = some a := by
  have hslice := slice?_of_parts (s := s) (a := "") (by rwa [String.empty_append])
  rwa [String.utf8ByteSize_empty, Nat.zero_add] at hslice

theorem slice?_last (h : a ++ b = s) : slice? s a.utf8ByteSize s.utf8ByteSize = some b := by
  have hslice := slice?_of_parts (s := s) (c := "") (by rwa [String.append_empty])
  rwa [← String.utf8ByteSize_append, h] at hslice

/-- another text for the middle of three parts -/
theorem replaceRange?_of_parts (h : a ++ b ++ c = s) (text : String) :
    replaceRange? s a.utf8ByteSize (a.utf8ByteSize + b.utf8ByteSize) text =
      some (a ++ text ++ c) := by
  have hbefore : slice? s 0 a.utf8ByteSize = some a :=
    slice?_first (String.append_assoc.symm.trans h)
  have hafter : slice? s (a ++ b).utf8ByteSize s.utf8ByteSize = some c := slice?_last h
  unfold replaceRange?
  rw [if_pos (Nat.le_add_right _ _), ← String.utf8ByteSize_append, hbefore, hafter]
  rfl

end

end HtmlTree.Text
