/-!
# Number literals

A literal is an optional minus sign, digits without a leading zero, and optional fraction and
exponent with at least one digit each.  It must also denote a number that a binary64 float can
hold: a literal with a fraction or exponent, or with more digits than 64 bits hold, is brought into
the form `significand * 10 ^ exponent`, both factors are rounded to binary64, and their product
must be finite.

* `nearestDouble`  a natural number rounded to 53 significant bits, a tie to the even one;
* `Magnitude`      significand and exponent of a literal, `Magnitude.isFinite`;
* `readNumber`     the longest literal at the front of a text.
-/

namespace HtmlTree.Json

/-! ## range -/

/-- the binary64 number nearest to a natural number, were there no largest one -/
def nearestDouble (n : Nat) : Nat :=
  if n < Nat.pow 2 53 then n
  else
    let step := Nat.pow 2 (n.log2 - 52)
    let q := n / step
    let r := 2 * (n % step)
    if step < r || (r == step && q % 2 == 1) then (q + 1) * step else q * step

/-- the first number that no longer rounds to a finite binary64 number -/
def doubleOverflow : Nat := Nat.pow 2 1024 - Nat.pow 2 970

structure Magnitude where
  significand : Nat
  exponent : Int
  deriving DecidableEq

namespace Magnitude

/-- the greatest power of ten that is a binary64 number -/
def maxExponent : Nat := 308

/-- whether the product of the rounded factors is a binary64 number -/
def isFinite (m : Magnitude) : Bool :=
  m.significand == 0 || decide (m.exponent ≤ 0) ||
    (decide (m.exponent ≤ maxExponent) &&
      nearestDouble m.significand * nearestDouble (Nat.pow 10 m.exponent.toNat) < doubleOverflow)

/-- the significand has 64 bits -/
def significandBound : Nat := Nat.pow 2 64

def digitValue (c : Char) : Nat := c.toNat - '0'.toNat

/-- reads digits into the significand while it has room; the rest is left -/
def absorb : Nat → List Char → Nat × List Char
  | s, [] => (s, [])
  | s, c :: r =>
    if 10 * s + digitValue c < significandBound then absorb (10 * s + digitValue c) r else (s, c :: r)

/-- the magnitude of integer digits: each digit that finds no room counts for a factor of ten -/
def ofInteger (digits : List Char) : Magnitude :=
  let (s, rest) := absorb 0 digits
  ⟨s, rest.length⟩

/-- further digits after the point: those that find no room are dropped -/
def withFraction (m : Magnitude) (digits : List Char) : Magnitude :=
  let (s, rest) := absorb m.significand digits
  ⟨s, m.exponent - (digits.length - rest.length : Nat)⟩

def withExponent (m : Magnitude) (e : Int) : Magnitude := { m with exponent := m.exponent + e }

end Magnitude

/-! ## grammar -/

/-- the digits at the front, of which there must be one at least -/
def readDigits (cs : List Char) : Option (List Char × List Char) :=
  match cs.takeWhile Char.isDigit with
  | [] => none
  | d :: ds => some (d :: ds, cs.dropWhile Char.isDigit)

/-- the integer digits: a zero stands alone -/
def readInteger (cs : List Char) : Option (List Char × List Char) := do
  let (ds, r) ← readDigits cs
  match ds with
  | '0' :: _ :: _ => none
  | _ => some (ds, r)

/-- the digits after a point, if a point follows -/
def readFraction : List Char → Option (Option (List Char) × List Char)
  | '.' :: r => do
    let (ds, r) ← readDigits r
    some (some ds, r)
  | r => some (none, r)

/-- the sign of an exponent -/
def readSign : List Char → Bool × List Char
  | '+' :: r => (false, r)
  | '-' :: r => (true, r)
  | r => (false, r)

/-- the exponent, if one follows -/
def readExponent (cs : List Char) : Option (Option Int × List Char) :=
  match cs with
  | c :: r =>
    if c = 'e' ∨ c = 'E' then do
      let (negative, r) := readSign r
      let (ds, r) ← readDigits r
      let n := ds.foldl (fun n d => 10 * n + Magnitude.digitValue d) 0
      some (some (if negative then -(n : Int) else n), r)
    else some (none, cs)
  | [] => some (none, [])

/-- the number literal at the front, without its sign, and what follows it -/
def readUnsigned (cs : List Char) : Option (List Char) := do
  let (int, r) ← readInteger cs
  let (frac, r) ← readFraction r
  let (exp, r) ← readExponent r
  let m := Magnitude.ofInteger int
  let m := frac.elim m m.withFraction
  let m := exp.elim m m.withExponent
  if m.isFinite then some r else none

/-- what follows the number literal at the front -/
def readNumber : List Char → Option (List Char)
  | '-' :: r => readUnsigned r
  | r => readUnsigned r

end HtmlTree.Json
