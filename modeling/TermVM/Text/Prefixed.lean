/-
  TermVM.Text.Prefixed

  Numerals whose first characters tell their base, as `vmgen` reads them from
  options and from the names of databases: `0b`, `0o` and `0x`, a leading zero
  for octal, and decimal otherwise.  An underscore may stand between two digits,
  or between the mark of the base and a digit.
-/

namespace TermVM.Text

/-- Why a text is no numeral of a signed 64-bit word. -/
inductive NumeralDefect where
  | malformed
  | outOfRange
  deriving DecidableEq, Repr

/-- The base that a numeral is written in, whether a mark of the base stands before its digits, and
    the digits. -/
def splitBase : List Char → Nat × Bool × List Char
  | '0' :: mark :: c :: cs =>
      if mark = 'b' ∨ mark = 'B' then (2, true, c :: cs)
      else if mark = 'o' ∨ mark = 'O' then (8, true, c :: cs)
      else if mark = 'x' ∨ mark = 'X' then (16, true, c :: cs)
      else (8, true, mark :: c :: cs)
  | '0' :: cs => (8, true, cs)
  | cs => (10, false, cs)

/-- The value of a digit of any base up to 36. -/
def digitValue? (c : Char) : Option Nat :=
  if c.isDigit then some (c.toNat - '0'.toNat)
  else if c.isLower then some (c.toNat - 'a'.toNat + 10)
  else if c.isUpper then some (c.toNat - 'A'.toNat + 10)
  else none

/-- Whether each underscore follows a digit or the mark of the base, and is followed by a digit. -/
def underscoresFit : (afterDigit : Bool) → List Char → Bool
  | _, [] => true
  | afterDigit, c :: cs =>
      if c = '_' then afterDigit && !cs.isEmpty && underscoresFit false cs
      else underscoresFit true cs

/-- Adds digits to a value.  The first digit that makes it too large for 64 bits ends the reading,
    whatever follows it. -/
def readDigitsFrom (base : Nat) : (value : Nat) → List Char → Except NumeralDefect Nat
  | value, [] => .ok value
  | value, c :: cs =>
      if c = '_' then readDigitsFrom base value cs
      else match digitValue? c with
        | none => .error .malformed
        | some d =>
            if base ≤ d then .error .malformed
            else if UInt64.size ≤ value * base + d then .error .outOfRange
            else readDigitsFrom base (value * base + d) cs

/-- The value of a numeral without a sign. -/
def readUnsigned (cs : List Char) : Except NumeralDefect Nat :=
  if cs.isEmpty then .error .malformed
  else
    let (base, marked, ds) := splitBase cs
    match readDigitsFrom base 0 ds with
    | .error e => .error e
    | .ok n => if underscoresFit marked ds then .ok n else .error .malformed

/-- The sign of a numeral, and what follows it. -/
def splitSign : List Char → Bool × List Char
  | '-' :: cs => (true, cs)
  | '+' :: cs => (false, cs)
  | cs => (false, cs)

/-- The value of a numeral with an optional sign, as a signed 64-bit word. -/
def readPrefixed (s : String) : Except NumeralDefect Int :=
  let (negative, cs) := splitSign s.toList
  match readUnsigned cs with
  | .error e => .error e
  | .ok n =>
      if negative then if n ≤ Nat.pow 2 63 then .ok (-(n : Int)) else .error .outOfRange
      else if n < Nat.pow 2 63 then .ok n else .error .outOfRange

end TermVM.Text
