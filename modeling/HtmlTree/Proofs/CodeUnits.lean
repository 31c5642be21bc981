import HtmlTree.Dom.CharacterData
import Mathlib.Algebra.GroupWithZero.Nat
import Mathlib.Data.Nat.Find
import Mathlib.Data.List.Infix
import Mathlib.Tactic.Common

/-!
# Character data as UTF-16 code units

Scripts address a text by its UTF-16 code units, while it is held in UTF-8 and cut at byte offsets.
Here a text is spelled out as its code units.  Each edit finds its cuts, and is the edit of that list
of units at two offsets, each moved back to where a character begins.

* `Text.codeUnits`                 the units of a text, which determine it;
* `Text.IsBoundary`                an offset between two characters;
* `Text.snap`                      the last boundary at or below an offset;
* `Text.codeUnits_takeUnits`, `Text.codeUnits_dropUnits`  a cut at an offset is a cut at its boundary;
* `CharacterData.edits_by_units`   **what each operation does to the units**.
-/

namespace HtmlTree

namespace Text

/-! ## the units of a text -/

/-- the code units of a character: one in the basic plane, a surrogate pair beyond it -/
def unitsOf (c : Char) : List Nat :=
  if c.toNat < 0x10000 then [c.toNat]
  else [0xD800 + (c.toNat - 0x10000) / 0x400, 0xDC00 + (c.toNat - 0x10000) % 0x400]

/-- the code units of a text -/
def codeUnits (s : List Char) : List Nat := s.flatMap unitsOf

@[simp] theorem codeUnits_nil : codeUnits [] = [] := rfl

@[simp] theorem codeUnits_cons (c : Char) (r : List Char) :
    codeUnits (c :: r) = unitsOf c ++ codeUnits r :=
  List.flatMap_cons

@[simp] theorem codeUnits_append (s t : List Char) :
    codeUnits (s ++ t) = codeUnits s ++ codeUnits t :=
  List.flatMap_append

theorem length_unitsOf (c : Char) : (unitsOf c).length = width c := by
  have hval : c.val < 0x10000 ↔ c.toNat < 0x10000 := UInt32.lt_iff_toNat_lt
  unfold unitsOf width
  by_cases h : c.toNat < 0x10000
  · rw [if_pos h, if_pos (hval.2 h)]
    rfl
  · rw [if_neg h, if_neg (mt hval.1 h)]
    rfl

theorem width_pos (c : Char) : 0 < width c := by
  unfold width
  split <;> omega

@[simp] theorem length_codeUnits (s : List Char) : (codeUnits s).length = units s := by
  induction s with
  | nil => rfl
  | cons c r ih => rw [codeUnits_cons, List.length_append, length_unitsOf, ih, units_cons]

/-- No character is a surrogate, so its units say which it is and where it ends. -/
theorem unitsOf_append_inj {c d : Char} {u v : List Nat}
    (h : unitsOf c ++ u = unitsOf d ++ v) : c = d ∧ u = v := by
  have valid (e : Char) : e.toNat < 0xD800 ∨ (0xDFFF < e.toNat ∧ e.toNat < 0x110000) := e.valid
  have hc := valid c
  have hd := valid d
  suffices hn : c.toNat = d.toNat by
    obtain rfl := Char.toNat_inj.1 hn
    exact ⟨rfl, List.append_cancel_left h⟩
  unfold unitsOf at h
  split at h <;> split at h <;> simp only [List.cons_append, List.nil_append, List.cons.injEq] at h
    <;> omega

/-- **The code units of a text determine it.** -/
theorem codeUnits_injective {s t : List Char} (h : codeUnits s = codeUnits t) : s = t := by
  have nonempty (c : Char) (r : List Char) : codeUnits (c :: r) ≠ [] := by
    intro hnil
    have hlen := congrArg List.length hnil
    rw [length_codeUnits, units_cons, List.length_nil] at hlen
    have := width_pos c
    omega
  induction s generalizing t with
  | nil =>
    cases t with
    | nil => rfl
    | cons d t => exact absurd h.symm (nonempty d t)
  | cons c s ih =>
    cases t with
    | nil => exact absurd h (nonempty c s)
    | cons d t =>
      rw [codeUnits_cons, codeUnits_cons] at h
      obtain ⟨rfl, hrest⟩ := unitsOf_append_inj h
      rw [ih hrest]

/-! ## boundaries -/

/-- unit `k` begins a character of the text, or ends the text -/
def IsBoundary (s : List Char) (k : Nat) : Prop := ∃ p ∈ s.inits, (codeUnits p).length = k

instance (s : List Char) : DecidablePred (IsBoundary s) := fun k =>
  inferInstanceAs (Decidable (∃ p ∈ s.inits, (codeUnits p).length = k))

/-- the last boundary at or below unit `k`, or below the end for a `k` past it -/
def snap (s : List Char) (k : Nat) : Nat :=
  Nat.findGreatest (IsBoundary s) (min k (codeUnits s).length)

theorem isBoundary_zero (s : List Char) : IsBoundary s 0 := ⟨[], by simp, rfl⟩

theorem isBoundary_units (s : List Char) : IsBoundary s (units s) :=
  ⟨s, List.mem_inits _ _ |>.2 (List.prefix_refl s), length_codeUnits s⟩

theorem isBoundary_snap (s : List Char) (k : Nat) : IsBoundary s (snap s k) :=
  Nat.findGreatest_spec (Nat.zero_le _) (isBoundary_zero s)

theorem snap_le_length (s : List Char) (k : Nat) : snap s k ≤ units s := by
  rw [← length_codeUnits]
  exact (Nat.findGreatest_le _).trans (Nat.min_le_right _ _)

theorem snap_mono (s : List Char) {k l : Nat} (h : k ≤ l) : snap s k ≤ snap s l :=
  Nat.findGreatest_mono_right _ (by omega)

/-- Offsets at and past the end are one offset. -/
theorem snap_min_of_le {s : List Char} {k m : Nat} (h : units s ≤ m) :
    snap s (min k m) = snap s k := by
  unfold snap
  rw [length_codeUnits, Nat.min_assoc, Nat.min_eq_right h]

theorem snap_of_units_le {s : List Char} {k : Nat} (h : units s ≤ k) : snap s k = units s := by
  unfold snap
  rw [length_codeUnits, Nat.min_eq_right h, Nat.findGreatest_eq (isBoundary_units s)]

/-! ## cuts at an offset -/

theorem units_takeUnits_le (k : Nat) (s : List Char) : units (takeUnits k s) ≤ k := by
  induction s generalizing k with
  | nil => exact Nat.zero_le k
  | cons c r ih =>
    unfold takeUnits
    split
    · exact Nat.zero_le k
    · have := ih (k - width c)
      rw [units_cons]
      omega

theorem takeUnits_prefix (k : Nat) (s : List Char) : takeUnits k s <+: s :=
  ⟨dropUnits k s, takeUnits_append_dropUnits k s⟩

/-- No other prefix that ends by unit `k` is longer. -/
theorem units_le_units_takeUnits {p s : List Char} {k : Nat} (hp : p <+: s) (hk : units p ≤ k) :
    units p ≤ units (takeUnits k s) := by
  induction s generalizing p k with
  | nil =>
    rw [List.prefix_nil.1 hp]
    exact Nat.zero_le _
  | cons c r ih =>
    cases p with
    | nil => exact Nat.zero_le _
    | cons d p =>
      obtain ⟨rfl, hp'⟩ := List.cons_prefix_cons.1 hp
      rw [units_cons] at hk
      have := ih hp' (show units p ≤ k - width d by omega)
      unfold takeUnits
      rw [if_neg (by omega), units_cons, units_cons]
      omega

theorem units_le_of_prefix {p s : List Char} (hp : p <+: s) : units p ≤ units s := by
  obtain ⟨q, rfl⟩ := hp
  rw [units_append]
  exact Nat.le_add_right _ _

/-- **A cut at an offset ends at its boundary.** -/
theorem snap_eq (s : List Char) (k : Nat) : snap s k = units (takeUnits k s) := by
  unfold snap
  rw [Nat.findGreatest_eq_iff, length_codeUnits]
  have hprefix := takeUnits_prefix k s
  refine ⟨Nat.le_min.2 ⟨units_takeUnits_le k s, units_le_of_prefix hprefix⟩, fun _ => ?_, ?_⟩
  · exact ⟨_, List.mem_inits _ _ |>.2 hprefix, length_codeUnits _⟩
  · rintro n hlt hle ⟨p, hp, rfl⟩
    rw [length_codeUnits] at hlt hle
    have := units_le_units_takeUnits (List.mem_inits _ _ |>.1 hp) (hle.trans (Nat.min_le_left _ _))
    omega

theorem codeUnits_takeUnits (k : Nat) (s : List Char) :
    codeUnits (takeUnits k s) = (codeUnits s).take (snap s k) := by
  have hcut := congrArg codeUnits (takeUnits_append_dropUnits k s)
  rw [codeUnits_append] at hcut
  rw [← hcut, snap_eq, ← length_codeUnits, List.take_left']
  rfl

theorem codeUnits_dropUnits (k : Nat) (s : List Char) :
    codeUnits (dropUnits k s) = (codeUnits s).drop (snap s k) := by
  have hcut := congrArg codeUnits (takeUnits_append_dropUnits k s)
  rw [codeUnits_append] at hcut
  rw [← hcut, snap_eq, ← length_codeUnits, List.drop_left']
  rfl

/-- The part of a text between two offsets, cut first at the later one. -/
theorem codeUnits_between {s : List Char} {k m : Nat} (h : k ≤ m) :
    codeUnits (dropUnits k (takeUnits m s)) = ((codeUnits s).take (snap s m)).drop (snap s k) := by
  have hstart : snap (takeUnits m s) k = snap s k := by
    rw [snap_eq, takeUnits_takeUnits, Nat.min_eq_left h, ← snap_eq]
  rw [codeUnits_dropUnits, codeUnits_takeUnits, hstart]

end Text

/-! ## the operations on character data -/

namespace CharacterData

/-- the code units of the data -/
def codeUnits (d : CharacterData) : List Nat := Text.codeUnits d.data.toList

/-- unit `k` of the data begins a character, or is its end -/
def IsBoundary (d : CharacterData) (k : Nat) : Prop := Text.IsBoundary d.data.toList k

/-- the last boundary of the data at or below unit `k`, or below its end for a `k` past it -/
def snap (d : CharacterData) (k : Nat) : Nat := Text.snap d.data.toList k

theorem length_codeUnits (d : CharacterData) : d.codeUnits.length = d.length :=
  Text.length_codeUnits _

/-- Two data of the same units are the same. -/
theorem ext_codeUnits {d e : CharacterData} (h : d.codeUnits = e.codeUnits) : d = e := by
  obtain ⟨s⟩ := d
  obtain ⟨t⟩ := e
  have hlist : s.toList = t.toList := Text.codeUnits_injective h
  rw [String.toList_injective hlist]

variable (d : CharacterData) (text : String) (offset count : Nat)

theorem snap_zero : d.snap 0 = 0 := Nat.le_zero.1 (by
  rw [snap, Text.snap_eq]
  exact Text.units_takeUnits_le 0 _)

theorem rangeEnd_eq : rangeEnd offset count = min (offset + count) (2 ^ 64 - 1) := rfl

section
variable {d}
variable (short : d.length < 2 ^ 63)
include short

/-- The cap on the end of a range is past the end of the data. -/
theorem snap_capped (k : Nat) : d.snap (min k (2 ^ 64 - 1)) = d.snap k :=
  Text.snap_min_of_le (show d.length ≤ 2 ^ 64 - 1 by omega)

theorem snap_le_snap_rangeEnd : d.snap offset ≤ d.snap (rangeEnd offset count) := by
  rw [rangeEnd_eq, snap_capped short]
  exact Text.snap_mono _ (Nat.le_add_right _ _)

/-- Where the cap puts the end of a range before its first unit, both are past the end. -/
theorem snap_max_rangeEnd :
    d.snap (max offset (rangeEnd offset count)) = d.snap (rangeEnd offset count) := by
  rcases Nat.lt_or_ge (rangeEnd offset count) offset with h | h
  · have hcap : d.length ≤ rangeEnd offset count := by
      rw [rangeEnd_eq] at h ⊢
      omega
    have hlate : d.length ≤ offset := hcap.trans h.le
    rw [Nat.max_eq_left h.le, snap, snap, Text.snap_of_units_le hlate, Text.snap_of_units_le hcap]
  · rw [Nat.max_eq_right h]

theorem codeUnits_substring : Text.codeUnits (d.substring offset count).toList
    = (d.codeUnits.take (d.snap (rangeEnd offset count))).drop (d.snap offset) := by
  rw [substring_eq, String.toList_ofList, Text.codeUnits_between (Nat.le_max_left _ _),
    ← snap_max_rangeEnd offset count short]
  rfl

theorem codeUnits_replace : (d.replace offset count text).codeUnits
    = d.codeUnits.take (d.snap offset) ++ Text.codeUnits text.toList
      ++ d.codeUnits.drop (d.snap (rangeEnd offset count)) := by
  rw [replace_eq, ← snap_max_rangeEnd offset count short]
  unfold codeUnits
  rw [String.toList_append, String.toList_append, String.toList_ofList, String.toList_ofList,
    Text.codeUnits_append, Text.codeUnits_append, Text.codeUnits_takeUnits,
    Text.codeUnits_dropUnits]
  rfl

/-- An insertion replaces nothing. -/
theorem codeUnits_insert : (d.insert offset text).codeUnits
    = d.codeUnits.take (d.snap offset) ++ Text.codeUnits text.toList
      ++ d.codeUnits.drop (d.snap offset) := by
  unfold insert
  rw [codeUnits_replace _ _ _ short, rangeEnd_eq, Nat.add_zero, snap_capped short]

/-- A deletion puts nothing in the place of the range. -/
theorem codeUnits_delete : (d.delete offset count).codeUnits
    = d.codeUnits.take (d.snap offset) ++ d.codeUnits.drop (d.snap (rangeEnd offset count)) := by
  unfold delete
  rw [codeUnits_replace _ _ _ short, String.toList_empty, Text.codeUnits_nil, List.append_nil]

/-- Setting the data replaces the whole of it. -/
theorem set_eq : d.set text = ⟨text⟩ := by
  apply ext_codeUnits
  have hstop : d.snap (rangeEnd 0 d.length) = d.length := by
    rw [rangeEnd_eq, Nat.zero_add, snap_capped short]
    exact Text.snap_of_units_le (Nat.le_refl _)
  unfold set
  rw [codeUnits_replace _ _ _ short, snap_zero, hstop, List.take_zero, List.nil_append,
    ← d.length_codeUnits, List.drop_length, List.append_nil]
  rfl

/-- The length of the data after a replacement: the range goes and the text comes. -/
theorem length_replace : (d.replace offset count text).length
    = d.length - (d.snap (rangeEnd offset count) - d.snap offset)
      + (Text.codeUnits text.toList).length := by
  have hle := snap_le_snap_rangeEnd offset count short
  have hstop : d.snap (rangeEnd offset count) ≤ d.length := Text.snap_le_length _ _
  rw [← length_codeUnits, codeUnits_replace _ _ _ short, List.length_append, List.length_append,
    List.length_take, List.length_drop, length_codeUnits]
  omega

/-- The parts before, in and behind a range make up the data. -/
theorem pieces_append :
    d.substring 0 offset ++ d.substring offset count
      ++ d.substring (rangeEnd offset count) (2 ^ 64 - 1) = d.data := by
  have hle := snap_le_snap_rangeEnd offset count short
  have hfirst : d.snap (rangeEnd 0 offset) = d.snap offset := by
    rw [rangeEnd_eq, Nat.zero_add, snap_capped short]
  have hlast : d.snap (rangeEnd (rangeEnd offset count) (2 ^ 64 - 1)) = d.length := by
    rw [rangeEnd_eq _ (2 ^ 64 - 1), snap_capped short]
    exact Text.snap_of_units_le (show d.length ≤ _ by omega)
  have hall : ∀ a b : Nat, a ≤ b →
      d.codeUnits.take a ++ (d.codeUnits.take b).drop a ++ d.codeUnits.drop b = d.codeUnits := by
    intro a b hab
    conv_rhs => rw [← List.take_append_drop b d.codeUnits, ← List.take_append_drop a (d.codeUnits.take b)]
    rw [List.take_take, Nat.min_eq_left hab]
  apply String.toList_injective
  apply Text.codeUnits_injective
  rw [String.toList_append, String.toList_append, Text.codeUnits_append, Text.codeUnits_append,
    codeUnits_substring _ _ short, codeUnits_substring _ _ short, codeUnits_substring _ _ short,
    hfirst, hlast, snap_zero, List.drop_zero, ← d.length_codeUnits, List.take_length]
  exact hall _ _ hle

end

/-- **Every operation is an edit of the code units between two characters.**  The range is cut at
its first unit and at its end, the sum capped at the largest offset there is; both cuts are moved
back to a boundary, never cross, and stay within the data.  So the byte offsets of the range are
always those of cuts, and every operation has a result. -/
theorem edits_by_units (short : d.length < 2 ^ 63) :
    let start := d.snap offset
    let stop := d.snap (min (offset + count) (2 ^ 64 - 1))
    (d.IsBoundary start ∧ d.IsBoundary stop ∧ start ≤ stop ∧ stop ≤ d.codeUnits.length) ∧
    (d.substring? offset count = some (d.substring offset count) ∧
      d.replace? offset count text = some (d.replace offset count text) ∧
      d.insert? offset text = some (d.insert offset text) ∧
      d.delete? offset count = some (d.delete offset count) ∧
      d.set? text = some (d.set text)) ∧
    Text.codeUnits (d.substring offset count).toList = (d.codeUnits.take stop).drop start ∧
    (d.replace offset count text).codeUnits
      = d.codeUnits.take start ++ Text.codeUnits text.toList ++ d.codeUnits.drop stop ∧
    (d.insert offset text).codeUnits
      = d.codeUnits.take start ++ Text.codeUnits text.toList ++ d.codeUnits.drop start ∧
    (d.delete offset count).codeUnits = d.codeUnits.take start ++ d.codeUnits.drop stop ∧
    (d.set text).data = text ∧
    d.length = d.codeUnits.length ∧
    (d.replace offset count text).length
      = d.length - (stop - start) + (Text.codeUnits text.toList).length ∧
    d.substring 0 offset ++ d.substring offset count
      ++ d.substring (min (offset + count) (2 ^ 64 - 1)) (2 ^ 64 - 1) = d.data := by
  intro start stop
  have hstop : stop ≤ d.codeUnits.length := by
    rw [length_codeUnits]
    exact Text.snap_le_length _ _
  refine ⟨⟨Text.isBoundary_snap _ _, Text.isBoundary_snap _ _,
    snap_le_snap_rangeEnd offset count short, hstop⟩, ?_⟩
  refine ⟨⟨d.substring?_eq_some _ _, d.replace?_eq_some _ _ _, d.replace?_eq_some _ _ _,
    d.replace?_eq_some _ _ _, d.replace?_eq_some _ _ _⟩, ?_⟩
  refine ⟨codeUnits_substring offset count short, codeUnits_replace text offset count short,
    codeUnits_insert text offset short, codeUnits_delete offset count short, ?_⟩
  refine ⟨congrArg data (set_eq text short), (length_codeUnits d).symm,
    length_replace text offset count short, pieces_append offset count short⟩

/-- A range whose first unit is the second half of a pair takes the whole pair. -/
theorem edits_by_units_in_pair :
    CharacterData.length ⟨"a😀b"⟩ < 2 ^ 63 ∧
    byteRange ⟨"a😀b"⟩ 2 1 = (1, 5) ∧
    snap ⟨"a😀b"⟩ 2 = 1 ∧ snap ⟨"a😀b"⟩ (min (2 + 1) (2 ^ 64 - 1)) = 3 ∧
    (∃ part, substring? ⟨"a😀b"⟩ 2 1 = some part ∧
      Text.codeUnits part.toList = [0xD83D, 0xDE00]) ∧
    ∃ e, replace? ⟨"a😀b"⟩ 2 1 "é" = some e ∧ e.codeUnits = [0x61, 0xE9, 0x62] := by
  have short : CharacterData.length ⟨"a😀b"⟩ < 2 ^ 63 := by decide +kernel
  have hstart : snap ⟨"a😀b"⟩ 2 = 1 := by decide +kernel
  have hstop : snap ⟨"a😀b"⟩ (min (2 + 1) (2 ^ 64 - 1)) = 3 := by decide +kernel
  obtain ⟨_, ⟨hpart, hreplaced, _⟩, hsubstring, hreplace, _⟩ :=
    edits_by_units ⟨"a😀b"⟩ "é" 2 1 short
  rw [hstart, hstop] at hsubstring hreplace
  refine ⟨short, by decide +kernel, hstart, hstop, ⟨_, hpart, ?_⟩, _, hreplaced, ?_⟩
  · rw [hsubstring]
    decide +kernel
  · rw [hreplace]
    decide +kernel

end CharacterData

end HtmlTree
