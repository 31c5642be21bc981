/-!
# The attributes of an element

A finite map from qualified names to values.  The entries are kept in strictly increasing order of
their names (by code point), so two maps with the same entries are equal and a listing needs no
further sorting.

* `Attributes.get?`         the value under a name;
* `Attributes.insert`       sets a value, an older one is replaced;
* `Attributes.insertIfNew`  sets a value unless the name has one: the first value wins;
* `get?_insert_self`, `get?_insertIfNew_self` and the `_ne` lemmas say what each does to `get?`.
-/

namespace HtmlTree

/-- names in strictly increasing order -/
def NamesIncrease (entries : List (String × String)) : Prop :=
  entries.Pairwise fun a b => a.1 < b.1

structure Attributes where
  entries : List (String × String)
  increasing : NamesIncrease entries

namespace Attributes

theorem ext_entries {a b : Attributes} (h : a.entries = b.entries) : a = b := by
  cases a; cases b; cases h; rfl

instance : DecidableEq Attributes := fun a b =>
  decidable_of_iff (a.entries = b.entries) ⟨ext_entries, fun h => by rw [h]⟩

def empty : Attributes := ⟨[], List.Pairwise.nil⟩

/-! ## entry lists -/

/-- the value under `name` -/
def lookup (name : String) : List (String × String) → Option String
  | [] => none
  | e :: r => if e.1 = name then some e.2 else lookup name r

/-- puts an entry in its place; `keep old new` is the value left where the name has one already -/
def place (keep : String → String → String) (name value : String) :
    List (String × String) → List (String × String)
  | [] => [(name, value)]
  | e :: r =>
    if name < e.1 then (name, value) :: e :: r
    else if name = e.1 then (e.1, keep e.2 value) :: r
    else e :: place keep name value r

variable {keep : String → String → String} {name value : String}

theorem place_nil : place keep name value [] = [(name, value)] := rfl

theorem name_of_mem_place {entries : List (String × String)} {e : String × String}
    (h : e ∈ place keep name value entries) : e.1 = name ∨ ∃ d ∈ entries, e.1 = d.1 := by
  induction entries with
  | nil =>
    rw [place_nil, List.mem_singleton] at h
    exact Or.inl (by rw [h])
  | cons d r ih =>
    unfold place at h
    split at h
    · rcases List.mem_cons.mp h with h | h
      · exact Or.inl (by rw [h])
      · exact Or.inr ⟨e, h, rfl⟩
    · split at h
      · rcases List.mem_cons.mp h with h | h
        · exact Or.inr ⟨d, List.mem_cons_self, by rw [h]⟩
        · exact Or.inr ⟨e, List.mem_cons_of_mem _ h, rfl⟩
      · rcases List.mem_cons.mp h with h | h
        · exact Or.inr ⟨e, h ▸ List.mem_cons_self, rfl⟩
        · rcases ih h with h | ⟨x, hx, hn⟩
          · exact Or.inl h
          · exact Or.inr ⟨x, List.mem_cons_of_mem _ hx, hn⟩

theorem lt_of_not_lt_of_ne {a b : String} (h : ¬ a < b) (hne : a ≠ b) : b < a := by
  by_cases hb : b < a
  · exact hb
  · exact absurd (String.le_antisymm (String.not_lt.mp hb) (String.not_lt.mp h)) hne

/-- placing an entry keeps the names in order -/
theorem increasing_place {entries : List (String × String)} (h : NamesIncrease entries) :
    NamesIncrease (place keep name value entries) := by
  induction entries with
  | nil => exact List.pairwise_singleton _ _
  | cons d r ih =>
    obtain ⟨hd, hr⟩ := List.pairwise_cons.mp h
    unfold place
    split
    · rename_i hlt
      refine List.pairwise_cons.mpr ⟨fun x hx => ?_, h⟩
      rcases List.mem_cons.mp hx with hx | hx
      · rw [hx]; exact hlt
      · exact String.lt_trans hlt (hd x hx)
    · rename_i hlt
      split
      · exact List.pairwise_cons.mpr ⟨hd, hr⟩
      · rename_i hne
        refine List.pairwise_cons.mpr ⟨fun x hx => ?_, ih hr⟩
        rcases name_of_mem_place hx with hx | ⟨y, hy, hx⟩
        · rw [hx]; exact lt_of_not_lt_of_ne hlt hne
        · rw [hx]; exact hd y hy

theorem lookup_eq_none_of_lt {entries : List (String × String)} {n : String}
    (h : ∀ e ∈ entries, n < e.1) : lookup n entries = none := by
  induction entries with
  | nil => rfl
  | cons d r ih =>
    have hd : d.1 ≠ n := fun e => String.lt_irrefl n (by
      have := h d List.mem_cons_self
      rw [e] at this
      exact this)
    unfold lookup
    rw [if_neg hd]
    exact ih fun e he => h e (List.mem_cons_of_mem _ he)

theorem lookup_place_self {entries : List (String × String)} (h : NamesIncrease entries) :
    lookup name (place keep name value entries)
      = some ((lookup name entries).elim value fun old => keep old value) := by
  induction entries with
  | nil => simp [place, lookup]
  | cons d r ih =>
    obtain ⟨hd, hr⟩ := List.pairwise_cons.mp h
    unfold place
    split
    · rename_i hlt
      have hnone : lookup name (d :: r) = none := lookup_eq_none_of_lt fun e he => by
        rcases List.mem_cons.mp he with he | he
        · rw [he]; exact hlt
        · exact String.lt_trans hlt (hd e he)
      rw [hnone]
      simp [lookup]
    · split
      · rename_i heq
        simp [lookup, heq]
      · rename_i hne
        have hne' : d.1 ≠ name := fun e => hne e.symm
        simp only [lookup, if_neg hne', ih hr]

theorem lookup_place_ne {entries : List (String × String)} {n : String} (h : n ≠ name) :
    lookup n (place keep name value entries) = lookup n entries := by
  have h' : name ≠ n := fun e => h e.symm
  induction entries with
  | nil => simp [place, lookup, h']
  | cons d r ih =>
    unfold place
    split
    · simp [lookup, h']
    · split
      · rename_i heq
        have hd : d.1 ≠ n := fun e => h' (heq.trans e)
        simp [lookup, hd]
      · simp only [lookup, ih]

/-! ## the map -/

/-- the value under `name` -/
def get? (a : Attributes) (name : String) : Option String := lookup name a.entries

/-- sets the value under `name`, whether or not it had one -/
def insert (a : Attributes) (name value : String) : Attributes :=
  ⟨place (fun _ new => new) name value a.entries, increasing_place a.increasing⟩

/-- sets the value under `name` unless it has one -/
def insertIfNew (a : Attributes) (name value : String) : Attributes :=
  ⟨place (fun old _ => old) name value a.entries, increasing_place a.increasing⟩

theorem get?_empty (n : String) : empty.get? n = none := rfl

theorem get?_insert_self (a : Attributes) : (a.insert name value).get? name = some value := by
  unfold get? insert
  rw [lookup_place_self a.increasing]
  cases lookup name a.entries <;> rfl

theorem get?_insert_ne (a : Attributes) {n : String} (h : n ≠ name) :
    (a.insert name value).get? n = a.get? n := lookup_place_ne h

theorem get?_insertIfNew_self (a : Attributes) :
    (a.insertIfNew name value).get? name = some ((a.get? name).getD value) := by
  unfold get? insertIfNew
  rw [lookup_place_self a.increasing]
  cases lookup name a.entries <;> rfl

theorem get?_insertIfNew_ne (a : Attributes) {n : String} (h : n ≠ name) :
    (a.insertIfNew name value).get? n = a.get? n := lookup_place_ne h

end Attributes

end HtmlTree
