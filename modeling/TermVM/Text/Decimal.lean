/-
  TermVM.Text.Decimal

  Decimal numerals: how `vmgen` writes integers in listings, messages and wire
  strings, and which character sequences are read back as integers.

  A numeral is an optional sign followed by one or more ASCII digits.  Leading
  zeros are allowed, separators are not, and `-0` is zero.
-/

namespace TermVM.Text

/-- The decimal digits of `n`, most significant first. -/
def digits (n : Nat) : List Char :=
  Nat.toDigits 10 n

/-- The written form of an integer: a minus sign when negative, then its digits. -/
def decimal : Int → String
  | .ofNat n => String.ofList (digits n)
  | .negSucc n => String.ofList ('-' :: digits (n + 1))

/-- The value of a non-empty sequence of ASCII digits. -/
def readDigits? (cs : List Char) : Option Nat :=
  if !cs.isEmpty && cs.all Char.isDigit then some (Nat.ofDigitChars 10 cs 0) else none

/-- The value of a numeral: an optional sign, then one or more digits. -/
def readInt? : List Char → Option Int
  | '-' :: cs => (readDigits? cs).map fun n => -(n : Int)
  | '+' :: cs => (readDigits? cs).map fun n => (n : Int)
  | cs => (readDigits? cs).map fun n => (n : Int)

/-- The value of a numeral that fits a signed 64-bit word. -/
def readWord? (s : String) : Option Int :=
  (readInt? s.toList).filter fun n => Int64.minValue.toInt ≤ n && n ≤ Int64.maxValue.toInt

/-- A decimal right-aligned with zeros to four columns; the sign counts as a column. -/
def decimal4 (n : Int) : String :=
  let ds := digits n.natAbs
  if n < 0 then String.ofList ('-' :: (List.replicate (3 - ds.length) '0' ++ ds))
  else String.ofList (List.replicate (4 - ds.length) '0' ++ ds)

theorem readDigits?_digits (n : Nat) : readDigits? (digits n) = some n := by
  have hne : digits n ≠ [] := by
    simp [digits]
  have hall : (digits n).all Char.isDigit = true := by
    rw [List.all_eq_true]
    intro c hc
    exact Nat.isDigit_of_mem_toDigits (by decide) (by decide) hc
  have hval : Nat.ofDigitChars 10 (digits n) 0 = n :=
    Nat.ofDigitChars_toDigits (by decide) (by decide)
  simp [readDigits?, hne, hall, hval]

/-! ## Hexadecimal forms of bytes -/

/-- One hexadecimal digit, in lower case. -/
def hexDigit (n : Nat) : Char :=
  Nat.digitChar (n % 16)

/-- Two lower-case hexadecimal digits per byte, in order. -/
def hex (bytes : List UInt8) : String :=
  String.ofList <| bytes.flatMap fun b => [hexDigit (b.toNat / 16), hexDigit b.toNat]

/-- One byte as two upper-case hexadecimal digits. -/
def hexByteUpper (b : UInt8) : String :=
  String.ofList [(hexDigit (b.toNat / 16)).toUpper, (hexDigit b.toNat).toUpper]

/-- A number as lower-case hexadecimal digits, padded with zeros to `width`. -/
def hexPadded (width n : Nat) : String :=
  let ds := Nat.toDigits 16 n
  String.ofList (List.replicate (width - ds.length) '0' ++ ds)

end TermVM.Text
