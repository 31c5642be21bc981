/-!
# Text without control sequences

A log line may quote text that holds control characters, or sequences of them that a terminal would
act on.  Where the log does not go to a terminal they are left out: all control characters but
tab, line feed, form feed and carriage return, and all that belongs to a sequence which an escape
character begins.  A blank inside such a sequence is still shown; then text is shown up to the next
character that cannot be, where the sequence is taken up again.

* `Sequence`            the kinds of sequence, by what ends them;
* `Sequence.next`       the sequence that a character leads to;
* `Filter.step`         whether a character is shown;
* `withoutSequences`    what is left of a text.
-/

namespace HtmlTree.Cli

/-! ## characters -/

def isAscii (c : Char) : Bool := c.toNat < 0x80

/-- control characters that are blanks -/
def isControlBlank (c : Char) : Bool := c == '\t' || c == '\n' || c == '\x0c' || c == '\r'

/-- characters that are shown outside of sequences -/
def isVisible (c : Char) : Bool := isControlBlank c || (0x20 ≤ c.toNat && c.toNat != 0x7f)

/-! ## sequences -/

/-- how far a control sequence has come -/
inductive Sequence where
  | none
  /-- the escape character -/
  | escape
  /-- an escape sequence of several characters -/
  | intermediate
  /-- parameters up to a final letter -/
  | parameters
  /-- a command up to a bell -/
  | command
  /-- the start of a string for a device -/
  | device
  /-- the parameters of a string for a device -/
  | deviceParameters
  /-- the characters between the parameters and the string itself -/
  | deviceIntermediate
  /-- a string up to its terminator -/
  | string
  deriving DecidableEq

/-- whether the encoding of a character holds the byte that terminates strings -/
def holdsTerminator (c : Char) : Bool := (String.utf8EncodeChar c).contains 0x9c

namespace Sequence

/-- the sequence that follows the escape character -/
def ofEscaped (c : Char) : Sequence :=
  if c = '[' then parameters
  else if c = ']' then command
  else if c = 'P' then device
  else if c = 'X' ∨ c = '^' ∨ c = '_' then string
  else if 0x30 ≤ c.toNat ∧ c.toNat < 0x7f then none
  else if 0x20 ≤ c.toNat ∧ c.toNat < 0x30 then intermediate
  else escape

/-- a further character of `s`, the head of a string for a device.  A letter begins the string, as
does a parameter out of place, which `misplaced` tells; nothing terminates the head. -/
def ofDevice (s : Sequence) (misplaced : Char → Bool) (c : Char) : Sequence :=
  if 0x20 ≤ c.toNat ∧ c.toNat < 0x30 then deviceIntermediate
  else if 0x30 ≤ c.toNat ∧ c.toNat < 0x40 then if misplaced c then string else deviceParameters
  else if 0x40 ≤ c.toNat ∧ c.toNat < 0x7f then string
  else s

/-- a further character of a sequence -/
def next (s : Sequence) (c : Char) : Sequence :=
  if c = '\x18' ∨ c = '\x1a' then none
  else if c = '\x1b' then escape
  else
    match s with
    | none => none
    | escape => ofEscaped c
    | intermediate => if 0x30 ≤ c.toNat ∧ c.toNat < 0x7f then none else intermediate
    | parameters => if 0x40 ≤ c.toNat ∧ c.toNat < 0x7f then none else parameters
    | command => if c = '\x07' then none else command
    | device => ofDevice device (fun _ => false) c
    | deviceParameters => ofDevice deviceParameters (fun c => 0x3c ≤ c.toNat) c
    | deviceIntermediate => ofDevice deviceIntermediate (fun _ => true) c
    | string => if !isAscii c && holdsTerminator c then none else string

/-- whether a character is shown although it stands in this sequence -/
def shows (s : Sequence) (c : Char) : Bool :=
  match s with
  | none => isVisible c
  | escape => isControlBlank c
  | intermediate => isControlBlank c
  | parameters => isControlBlank c
  | _ => false

end Sequence

/-! ## the filter -/

structure Filter where
  sequence : Sequence
  /-- the last character was shown -/
  showing : Bool
  deriving DecidableEq

namespace Filter

def start : Filter := ⟨.none, false⟩

/-- a character while none is shown -/
def scan (s : Sequence) (c : Char) : Bool × Filter :=
  if s.shows c then (true, ⟨s.next c, true⟩) else (false, ⟨s.next c, false⟩)

/-- whether the next character is shown, and what comes then -/
def step (f : Filter) (c : Char) : Bool × Filter :=
  if f.showing && isVisible c then (true, if isAscii c then f else ⟨.none, true⟩)
  else scan f.sequence c

/-- the characters that are shown -/
def apply (f : Filter) : List Char → List Char
  | [] => []
  | c :: r =>
    let (shown, f) := f.step c
    if shown then c :: f.apply r else f.apply r

end Filter

def withoutSequences (text : List Char) : List Char := Filter.start.apply text

end HtmlTree.Cli
