import HtmlTree.Proofs.Closers
import Mathlib.Order.Bounds.Basic

/-!
# Searches of the stack

Elements are closed by three searches of the stack: one asks whether an element is in scope, one
looks for its place, and one pops up to it.  All three are defined by the entries alone, so they
select the same entry on every stack: where entries are no elements or unknown, where foreign
elements have the names looked for, and where the entry that is found bounds the scope itself.

* `OpenElements.Has`                   a property of the entry at a place, from the outermost on;
* `OpenElements.Names`, `OpenElements.Bounds`   the properties that searches look for;
* `has_split_iff`, `has_inside_iff`, `isGreatest_iff`   a stack cut at an entry, told by places;
* `exists_isGreatest_of_reaches`, `reaches_of_has`      where the search of a scope arrives;
* `selects_of_isGreatest`, `selects_of_not_has`         what is found and what is popped;
* `searches_agree`                     **the three searches select the same entry**.
-/

namespace HtmlTree

namespace OpenElements

/-! ## entries and their places -/

/-- the entry at this place has the property -/
def Has (s : OpenElements) (p : NodeId → Bool) (place : Nat) : Prop :=
  ∃ id, s.get? place = some id ∧ p id = true

/-- the entry at this place is an HTML element with one of these names -/
def Names (s : OpenElements) (t : Tree) (names : List String) (place : Nat) : Prop :=
  ∃ id e, s.get? place = some id ∧ t.element? id = some e ∧ e.ns = .html ∧ e.localName ∈ names

/-- the entry at this place is an element that bounds the scope -/
def Bounds (s : OpenElements) (t : Tree) (scope : Scope) (place : Nat) : Prop :=
  ∃ id e, s.get? place = some id ∧ t.element? id = some e ∧ scope.isBoundary e = true

variable {s : OpenElements} {t : Tree} {p target boundary : NodeId → Bool} {id : NodeId}
  {inside outside : List NodeId} {place : Nat}

theorem names_iff {names : List String} :
    s.Names t names place ↔ s.Has (t.isHtmlOneOf names) place := by
  unfold Names Has
  refine exists_congr fun id => ?_
  rw [show t.isHtmlOneOf names id = t.elementSatisfies (·.isHtmlOneOf names) id from rfl,
    Tree.elementSatisfies_iff]
  simp only [Element.isHtmlOneOf_iff, exists_and_left]

theorem bounds_iff {scope : Scope} :
    s.Bounds t scope place ↔ s.Has (t.elementSatisfies scope.isBoundary) place := by
  unfold Bounds Has
  refine exists_congr fun id => ?_
  rw [Tree.elementSatisfies_iff, exists_and_left]

/-- the entry with this handle -/
theorem has_beq_iff {target : NodeId} : s.Has (· == target) place ↔ s.get? place = some target := by
  unfold Has
  simp only [beq_iff_eq, exists_eq_right]

theorem not_has_iff : (∀ i, ¬s.Has p i) ↔ ∀ x ∈ s.entries, p x = false := by
  constructor
  · intro h x hx
    obtain ⟨i, hi⟩ := List.mem_iff_getElem?.mp (List.mem_reverse.mpr hx)
    exact Bool.eq_false_iff.mpr fun hp => h i ⟨x, hi, hp⟩
  · rintro h i ⟨x, hi, hp⟩
    rw [h x (List.mem_reverse.mp (List.mem_of_getElem? hi))] at hp
    cases hp

/-! ## a stack cut at an entry -/

theorem toList_split (h : s.entries = inside ++ id :: outside) :
    s.toList = outside.reverse ++ id :: inside.reverse := by
  unfold toList
  rw [h, List.reverse_append, List.reverse_cons, List.append_assoc]
  rfl

/-- as many entries are outside of an entry as its place says -/
theorem get?_split (h : s.entries = inside ++ id :: outside) :
    s.get? outside.length = some id := by
  unfold get?
  rw [toList_split h, List.getElem?_append_right (by rw [List.length_reverse]),
    List.length_reverse, Nat.sub_self]
  rfl

theorem exists_split_of_get? (h : s.get? place = some id) :
    ∃ inside outside, s.entries = inside ++ id :: outside ∧ outside.length = place := by
  obtain ⟨hlt, hid⟩ := List.getElem?_eq_some_iff.mp h
  refine ⟨(s.toList.drop (place + 1)).reverse, (s.toList.take place).reverse, ?_, ?_⟩
  · have hcut : s.toList = s.toList.take place ++ id :: s.toList.drop (place + 1) := by
      rw [← hid, ← List.drop_eq_getElem_cons hlt, List.take_append_drop]
    have hrev := congrArg List.reverse hcut
    rw [List.reverse_append, List.reverse_cons, List.append_assoc] at hrev
    exact (List.reverse_reverse _).symm.trans hrev
  · rw [List.length_reverse, List.length_take]
    exact Nat.min_eq_left (Nat.le_of_lt hlt)

theorem has_split_iff (h : s.entries = inside ++ id :: outside) :
    s.Has p outside.length ↔ p id = true := by
  unfold Has
  rw [get?_split h]
  constructor
  · rintro ⟨x, hx, hp⟩
    cases hx
    exact hp
  · exact fun hp => ⟨id, rfl, hp⟩

/-- the entries inside of an entry are those at higher places -/
theorem has_inside_iff (h : s.entries = inside ++ id :: outside) :
    (∀ j, outside.length < j → ¬s.Has p j) ↔ ∀ x ∈ inside, p x = false := by
  have hget : ∀ n, s.get? (outside.length + (n + 1)) = inside.reverse[n]? := by
    intro n
    unfold get?
    rw [toList_split h, List.getElem?_append_right (by rw [List.length_reverse]; omega),
      List.length_reverse, Nat.add_sub_cancel_left, List.getElem?_cons_succ]
  constructor
  · intro hno x hx
    obtain ⟨n, hn⟩ := List.mem_iff_getElem?.mp (List.mem_reverse.mpr hx)
    have hhere := hno (outside.length + (n + 1)) (by omega)
    exact Bool.eq_false_iff.mpr fun hp => hhere ⟨x, (hget n).trans hn, hp⟩
  · rintro hin j hj ⟨x, hx, hp⟩
    obtain ⟨n, rfl⟩ : ∃ n, j = outside.length + (n + 1) := ⟨j - outside.length - 1, by omega⟩
    rw [hget n] at hx
    rw [hin x (List.mem_reverse.mp (List.mem_of_getElem? hx))] at hp
    cases hp

/-- an entry with nothing of its kind inside of it is the highest of its kind -/
theorem isGreatest_iff (h : s.entries = inside ++ id :: outside) :
    IsGreatest {i | s.Has p i} outside.length ↔ p id = true ∧ ∀ x ∈ inside, p x = false := by
  show s.Has p outside.length ∧ _ ↔ _
  rw [has_split_iff h, ← has_inside_iff h]
  refine and_congr_right fun _ => ⟨fun hle j hj hp => ?_, fun hno j hp => ?_⟩
  · exact Nat.not_le_of_lt hj (hle hp)
  · exact Nat.le_of_not_lt fun hlt => hno j hlt hp

/-! ## what searches find -/

/-- a search arrives at the highest entry that it looks for, and meets no boundary on its way -/
theorem exists_isGreatest_of_reaches (h : reaches target boundary s.entries = true) :
    ∃ i, IsGreatest {i | s.Has target i} i ∧ ∀ j, i < j → ¬s.Has boundary j := by
  obtain ⟨inside, id, outside, hsplit, hid, hin⟩ := exists_split_of_reaches h
  refine ⟨outside.length, (isGreatest_iff hsplit).mpr ⟨hid, fun x hx => (hin x hx).1⟩, ?_⟩
  exact (has_inside_iff hsplit).mpr fun x hx => (hin x hx).2

/-- it arrives where some entry that it looks for has no boundary above it -/
theorem reaches_of_has (h : s.Has target place) (hclear : ∀ j, place < j → ¬s.Has boundary j) :
    reaches target boundary s.entries = true := by
  obtain ⟨id, hget, hid⟩ := h
  obtain ⟨inside, outside, hsplit, rfl⟩ := exists_split_of_get? hget
  rw [hsplit]
  exact reaches_of_split hid ((has_inside_iff hsplit).mp hclear)

/-- the highest match is the one that is found, and what is popped is all from it on -/
theorem selects_of_isGreatest (h : IsGreatest {i | s.Has p i} place) :
    (splitAt? p s.entries).map (·.2.2.length) = some place ∧
      (s.popUntil p).toList = s.toList.take place := by
  obtain ⟨id, hget, _⟩ := h.1
  obtain ⟨inside, outside, hsplit, rfl⟩ := exists_split_of_get? hget
  obtain ⟨hid, hin⟩ := (isGreatest_iff hsplit).mp h
  have hpop : (s.popUntil p).entries = outside := by
    show (s.entries.dropWhile fun x => !p x).tail = outside
    rw [hsplit, dropWhile_not_split hid hin, List.tail_cons]
  constructor
  · rw [hsplit, splitAt?_of_split hid hin]
    rfl
  · rw [toList, hpop, toList_split hsplit, List.take_left' List.length_reverse]

/-- without a match there is no place, and all is popped -/
theorem selects_of_not_has (h : ∀ i, ¬s.Has p i) :
    splitAt? p s.entries = none ∧ (s.popUntil p).toList = [] := by
  have hnone := not_has_iff.mp h
  constructor
  · cases hs : splitAt? p s.entries with
    | none => rfl
    | some cut =>
      obtain ⟨inside, id, outside⟩ := cut
      obtain ⟨hsplit, hid⟩ := splitAt?_eq_some hs
      exact absurd ((has_split_iff hsplit).mpr hid) (h outside.length)
  · have hall : s.entries.dropWhile (fun x => !p x) = [] :=
      List.dropWhile_eq_nil_iff.mpr fun x hx => by rw [hnone x hx]; rfl
    show (s.entries.dropWhile fun x => !p x).tail.reverse = []
    rw [hall]
    rfl

/-! ## the searches together -/

/-- **The searches of the stack select the same entry**, whatever the stack holds.  An element is in
scope where no element above it bounds the scope; then it is its place that is found, the stack is
popped down to the entries below it, and nothing that is popped with it bounds the scope.  A node is
in scope where nothing above its last entry bounds the default scope.  Where there is no such
element, no place is found and all is popped. -/
theorem searches_agree (t : Tree) (s : OpenElements) (names : List String) (scope : Scope) :
    (s.hasOneOfInScope t names scope = true ↔
      ∃ i, s.Names t names i ∧ ∀ j, i < j → ¬s.Bounds t scope j) ∧
    (s.hasOneOfInScope t names scope = true →
      ∃ i, IsGreatest {i | s.Names t names i} i ∧ s.position? t names = some i ∧
        (s.popUntilOneOf t names).toList = s.toList.take i ∧
        ∀ j, i < j → ¬s.Bounds t scope j) ∧
    (∀ target, s.hasNodeInScope t target = true ↔
      ∃ i, IsGreatest {i | s.get? i = some target} i ∧ ∀ j, i < j → ¬s.Bounds t .default j) ∧
    ((∀ i, ¬s.Names t names i) →
      s.position? t names = none ∧ (s.popUntilOneOf t names).toList = []) := by
  simp only [names_iff, bounds_iff]
  refine ⟨⟨fun h => ?_, ?_⟩, fun h => ?_, fun target => ?_, fun h => ?_⟩
  · obtain ⟨i, hi, hclear⟩ := exists_isGreatest_of_reaches h
    exact ⟨i, hi.1, hclear⟩
  · rintro ⟨i, hi, hclear⟩
    exact reaches_of_has hi hclear
  · obtain ⟨i, hi, hclear⟩ := exists_isGreatest_of_reaches h
    obtain ⟨hfound, hpopped⟩ := selects_of_isGreatest hi
    exact ⟨i, hi, hfound, hpopped, hclear⟩
  · simp only [← has_beq_iff]
    constructor
    · exact exists_isGreatest_of_reaches
    · rintro ⟨i, hi, hclear⟩
      exact reaches_of_has hi.1 hclear
  · obtain ⟨hfound, hpopped⟩ := selects_of_not_has h
    exact ⟨congrArg (Option.map _) hfound, hpopped⟩

/-- a button in a paragraph, with a foreign element of its name, a comment and an unknown handle on
top; it bounds the scope in which it is looked for -/
theorem searches_agree_button :
    let t : Tree := ⟨#[.detached .document, .detached (.element (.bare "html" .html)),
      .detached (.element (.bare "p" .html)), .detached (.element (.bare "button" .html)),
      .detached (.element (.bare "button" .svg)), .detached (.comment ⟨"x"⟩)], .noQuirks⟩
    let s : OpenElements := ⟨[⟨9⟩, ⟨5⟩, ⟨4⟩, ⟨3⟩, ⟨2⟩, ⟨1⟩]⟩
    s.hasOneOfInScope t ["p", "button"] .button = true ∧
      (∃ i, IsGreatest {i | s.Names t ["p", "button"] i} i ∧
        s.position? t ["p", "button"] = some i ∧
        (s.popUntilOneOf t ["p", "button"]).toList = s.toList.take i ∧
        ∀ j, i < j → ¬s.Bounds t .button j) ∧
      (∀ i, ¬s.Names t ["li"] i) ∧
      s.position? t ["li"] = none ∧ (s.popUntilOneOf t ["li"]).toList = [] := by
  intro t s
  have hnone : ∀ i, ¬s.Names t ["li"] i := by
    simp only [names_iff]
    exact not_has_iff.mpr (by decide)
  have hin : s.hasOneOfInScope t ["p", "button"] .button = true := by decide
  exact ⟨hin, (searches_agree t s _ .button).2.1 hin, hnone,
    (searches_agree t s _ .button).2.2.2 hnone⟩

end OpenElements

end HtmlTree
