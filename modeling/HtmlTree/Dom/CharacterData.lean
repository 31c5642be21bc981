import HtmlTree.Text.Units

/-!
# Character data

The text of a Text, CDATA, comment or processing instruction node.  Offsets and counts are UTF-16
units, while the text is cut at byte offsets, which a cut may miss.  An offset past the end stands
for the end, one inside a character for the character's start, so that the byte offsets of a range
are those of two cuts, and no edit fails or splits a character.

* `CharacterData.length`, `byteRange`   the length in units, the byte offsets of a range;
* `substring?`, `replace?`, `insert?`, `delete?`, `set?`   cuts at these offsets;
* `substring?_eq`, `replace?_eq`        the cuts are never missed;
* `substring`, `replace`, `insert`, `delete`, `set`, `append`   reading and editing.
-/

namespace HtmlTree

structure CharacterData where
  data : String
  deriving DecidableEq

namespace CharacterData

/-- the largest offset there is; the end of a range never exceeds it -/
def maxOffset : Nat := Nat.pow 2 64 - 1

/-- the offset `count` units after `offset` -/
def rangeEnd (offset count : Nat) : Nat := min (offset + count) maxOffset

/-- the length in UTF-16 units -/
def length (d : CharacterData) : Nat := Text.units d.data.toList

/-- the byte offsets between which the `count` units from `offset` on are, the second not below the
first -/
def byteRange (d : CharacterData) (offset count : Nat) : Nat × Nat :=
  let start := Text.byteIndex d.data offset
  let stop := Text.byteIndex d.data (rangeEnd offset count)
  (start, max stop start)

/-! ## cuts that may be missed -/

/-- the text of `count` units from `offset` on -/
def substring? (d : CharacterData) (offset count : Nat) : Option String :=
  let (start, stop) := d.byteRange offset count
  Text.slice? d.data start stop

/-- `count` units from `offset` on give way to `text` -/
def replace? (d : CharacterData) (offset count : Nat) (text : String) : Option CharacterData :=
  let (start, stop) := d.byteRange offset count
  (Text.replaceRange? d.data start stop text).map CharacterData.mk

def insert? (d : CharacterData) (offset : Nat) (text : String) : Option CharacterData :=
  d.replace? offset 0 text

def delete? (d : CharacterData) (offset count : Nat) : Option CharacterData :=
  d.replace? offset count ""

def set? (d : CharacterData) (text : String) : Option CharacterData := d.replace? 0 d.length text

/-! ## cuts that are made -/

section
variable (d : CharacterData) (offset count : Nat)

/-- the byte offsets of a range, by the text before it and the text in it -/
theorem byteRange_eq :
    let first := String.ofList (Text.takeUnits offset d.data.toList)
    let part := String.ofList
      (Text.dropUnits offset (Text.takeUnits (max offset (rangeEnd offset count)) d.data.toList))
    d.byteRange offset count = (first.utf8ByteSize, first.utf8ByteSize + part.utf8ByteSize) := by
  intro first part
  unfold byteRange
  dsimp only
  rw [Nat.max_comm, ← Text.byteIndex_max, Text.byteIndex_add (Nat.le_max_left _ _),
    Text.byteIndex_eq]

/-- **A substring is cut between characters.** -/
theorem substring?_eq : d.substring? offset count = some (String.ofList
    (Text.dropUnits offset (Text.takeUnits (max offset (rangeEnd offset count)) d.data.toList))) := by
  unfold substring?
  rw [byteRange_eq]
  exact Text.slice?_of_parts (Text.cut_twice (Nat.le_max_left _ _) _)

/-- **A replacement is made between characters.** -/
theorem replace?_eq (text : String) : d.replace? offset count text = some
    ⟨String.ofList (Text.takeUnits offset d.data.toList) ++ text ++
      String.ofList (Text.dropUnits (max offset (rangeEnd offset count)) d.data.toList)⟩ := by
  unfold replace?
  rw [byteRange_eq]
  dsimp only
  rw [Text.replaceRange?_of_parts (Text.cut_twice (Nat.le_max_left _ _) _)]
  rfl

end

/-! ## the operations -/

/-- the text of `count` units from `offset` on -/
def substring (d : CharacterData) (offset count : Nat) : String :=
  (d.substring? offset count).get (by rw [substring?_eq]; rfl)

/-- `count` units from `offset` on give way to `text` -/
def replace (d : CharacterData) (offset count : Nat) (text : String) : CharacterData :=
  (d.replace? offset count text).get (by rw [replace?_eq]; rfl)

def insert (d : CharacterData) (offset : Nat) (text : String) : CharacterData :=
  d.replace offset 0 text

def delete (d : CharacterData) (offset count : Nat) : CharacterData :=
  d.replace offset count ""

def set (d : CharacterData) (text : String) : CharacterData :=
  d.replace 0 d.length text

/-- `text` at the end -/
def append (d : CharacterData) (text : String) : CharacterData := ⟨d.data ++ text⟩

/-! ### none of them fails -/

theorem substring?_eq_some (d : CharacterData) (offset count : Nat) :
    d.substring? offset count = some (d.substring offset count) :=
  (Option.some_get _).symm

theorem replace?_eq_some (d : CharacterData) (offset count : Nat) (text : String) :
    d.replace? offset count text = some (d.replace offset count text) :=
  (Option.some_get _).symm

theorem substring_eq (d : CharacterData) (offset count : Nat) :
    d.substring offset count = String.ofList
      (Text.dropUnits offset (Text.takeUnits (max offset (rangeEnd offset count)) d.data.toList)) :=
  Option.some.inj ((d.substring?_eq_some offset count).symm.trans (d.substring?_eq offset count))

theorem replace_eq (d : CharacterData) (offset count : Nat) (text : String) :
    d.replace offset count text = ⟨String.ofList (Text.takeUnits offset d.data.toList) ++ text ++
      String.ofList (Text.dropUnits (max offset (rangeEnd offset count)) d.data.toList)⟩ :=
  Option.some.inj ((d.replace?_eq_some offset count text).symm.trans (d.replace?_eq _ _ text))

end CharacterData

end HtmlTree
