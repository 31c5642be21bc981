/-!
# String literals

A string is written between quotes.  A quote, a backslash and every character below the space are
escaped when written; reading also takes the other escapes, and `\u` escapes in UTF-16 units, of
which a pair of surrogates must stand together.  A bare character below the space, a surrogate on
its own and an unknown escape are refused.

* `encodeChar`, `encode`  the written form, without and with the quotes;
* `readPieces`            a literal up to its closing quote, in characters and units;
* `joinPieces`            the units put together;
* `readText`              both.
-/

namespace HtmlTree.Json

/-! ## writing -/

def hexDigit (n : Nat) : Char := Char.ofNat (if n < 10 then n + '0'.toNat else n - 10 + 'a'.toNat)

/-- the written form of one character -/
def encodeChar (c : Char) : List Char :=
  if c = '"' then ['\\', '"']
  else if c = '\\' then ['\\', '\\']
  else if c = '\n' then ['\\', 'n']
  else if c = '\t' then ['\\', 't']
  else if c = '\r' then ['\\', 'r']
  else if c = '\x08' then ['\\', 'b']
  else if c = '\x0c' then ['\\', 'f']
  else if c.toNat < 0x20 then ['\\', 'u', '0', '0', hexDigit (c.toNat / 16), hexDigit (c.toNat % 16)]
  else [c]

/-- a text between quotes -/
def encode (text : String) : List Char := '"' :: text.toList.flatMap encodeChar ++ ['"']

/-! ## reading -/

/-- a character of a literal, or a UTF-16 unit given by its number -/
inductive Piece where
  | char (c : Char)
  | unit (n : Nat)
  deriving DecidableEq

def hexValue? (c : Char) : Option Nat :=
  if c.isDigit then some (c.toNat - '0'.toNat)
  else if 'a' ≤ c ∧ c ≤ 'f' then some (c.toNat - 'a'.toNat + 10)
  else if 'A' ≤ c ∧ c ≤ 'F' then some (c.toNat - 'A'.toNat + 10)
  else none

/-- a unit from its four digits -/
def unit? (a b c d : Char) : Option Nat := do
  let a ← hexValue? a
  let b ← hexValue? b
  let c ← hexValue? c
  let d ← hexValue? d
  some (((a * 16 + b) * 16 + c) * 16 + d)

/-- the character of a short escape -/
def shortEscape? : Char → Option Char
  | '"' => some '"'
  | '\\' => some '\\'
  | '/' => some '/'
  | 'b' => some '\x08'
  | 'f' => some '\x0c'
  | 'n' => some '\n'
  | 'r' => some '\r'
  | 't' => some '\t'
  | _ => none

/-- a literal up to its closing quote, and what follows -/
def readPieces : List Char → Option (List Piece × List Char)
  | [] => none
  | '"' :: r => some ([], r)
  | '\\' :: 'u' :: a :: b :: c :: d :: r => do
    let n ← unit? a b c d
    let (ps, rest) ← readPieces r
    some (.unit n :: ps, rest)
  | '\\' :: e :: r => do
    let c ← shortEscape? e
    let (ps, rest) ← readPieces r
    some (.char c :: ps, rest)
  | c :: r =>
    if c.toNat < 0x20 then none
    else do
      let (ps, rest) ← readPieces r
      some (.char c :: ps, rest)

def isHighSurrogate (n : Nat) : Bool := 0xD800 ≤ n && n < 0xDC00

def isLowSurrogate (n : Nat) : Bool := 0xDC00 ≤ n && n < 0xE000

/-- the character of a pair of surrogates -/
def pairChar (high low : Nat) : Char :=
  Char.ofNat (0x10000 + (high - 0xD800) * 0x400 + (low - 0xDC00))

/-- the characters that the pieces stand for -/
def joinPieces : List Piece → Option (List Char)
  | [] => some []
  | .char c :: r => (joinPieces r).map (c :: ·)
  | .unit n :: r =>
    if isHighSurrogate n then
      match r with
      | .unit m :: r =>
        if isLowSurrogate m then (joinPieces r).map (pairChar n m :: ·) else none
      | _ => none
    else if isLowSurrogate n then none
    else (joinPieces r).map (Char.ofNat n :: ·)

/-- the text of a literal whose opening quote is already read, and what follows -/
def readText (cs : List Char) : Option (String × List Char) := do
  let (ps, rest) ← readPieces cs
  let text ← joinPieces ps
  some (String.ofList text, rest)

end HtmlTree.Json
