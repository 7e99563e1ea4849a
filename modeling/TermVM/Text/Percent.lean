/-
  TermVM.Text.Percent

  Texts in which a percent sign and two hexadecimal digits stand for a byte, and
  lists of parameters written with such texts, as in the database names that
  `vmgen` is given.
-/
import TermVM.Cbor.Item
import TermVM.Path

namespace TermVM.Text

/-! ## Bytes and characters -/

/-- The character that bytes start with, and how many bytes it takes. -/
def leadingChar? (bs : Bytes) : Option (Char × Nat) :=
  [1, 2, 3, 4].findSome? fun n => (ofUtf8? (bs.take n)).bind fun s => s.toList.head?.map (·, n)

/-- The characters of bytes after the first `skip` of them.  A byte that belongs to no character
    stands for the replacement character. -/
def lossyFrom : (skip : Nat) → Bytes → List Char
  | _, [] => []
  | skip + 1, _ :: bs => lossyFrom skip bs
  | 0, b :: bs =>
      match leadingChar? (b :: bs) with
      | some (c, n) => c :: lossyFrom (n - 1) bs
      | none => '�' :: lossyFrom 0 bs

/-- The text of bytes, well-formed or not. -/
def lossy (bs : Bytes) : String := (ofUtf8? bs).getD (String.ofList (lossyFrom 0 bs))

/-! ## Escapes -/

/-- The value of a hexadecimal digit. -/
def hexValue? (b : UInt8) : Option UInt8 :=
  if '0'.toUInt8 ≤ b ∧ b ≤ '9'.toUInt8 then some (b - '0'.toUInt8)
  else if 'a'.toUInt8 ≤ b ∧ b ≤ 'f'.toUInt8 then some (b - 'a'.toUInt8 + 10)
  else if 'A'.toUInt8 ≤ b ∧ b ≤ 'F'.toUInt8 then some (b - 'A'.toUInt8 + 10)
  else none

/-- The byte of two hexadecimal digits. -/
def hexPair? (high low : UInt8) : Option UInt8 := do
  return 16 * (← hexValue? high) + (← hexValue? low)

/-- The bytes that a text of a parameter list stands for, with plus signs for blanks; none if a
    percent sign starts no escape. -/
def unescape? : Bytes → Option Bytes
  | [] => some []
  | b :: bs =>
      if b = '%'.toUInt8 then
        match bs with
        | high :: low :: rest => do return (← hexPair? high low) :: (← unescape? rest)
        | _ => none
      else do return (if b = '+'.toUInt8 then ' '.toUInt8 else b) :: (← unescape? bs)

/-- The bytes that a text stands for.  A percent sign that starts no escape stands for itself, and an
    escaped zero ends the text. -/
def unescapeToZero : Bytes → Bytes
  | b :: high :: low :: rest =>
      match if b = '%'.toUInt8 then hexPair? high low else none with
      | some value => if value = 0 then [] else value :: unescapeToZero rest
      | none => b :: unescapeToZero (high :: low :: rest)
  | bs => bs

/-! ## Parameters -/

/-- Cuts bytes at the first occurrence of one; without one, nothing follows. -/
def cutAt (sep : UInt8) (bs : Bytes) : Bytes × Bytes :=
  (bs.takeWhile (· != sep), (bs.dropWhile (· != sep)).drop 1)

/-- The names and values of a parameter list; none if it cannot be read. -/
def parameters? (bs : Bytes) : Option (List (Bytes × Bytes)) :=
  ((splitAt '&'.toUInt8 bs).filter fun part => !part.isEmpty).mapM fun part =>
    if part.contains ';'.toUInt8 then none
    else do
      let (name, value) := cutAt '='.toUInt8 part
      return (← unescape? name, ← unescape? value)

/-- The values of a parameter, in order. -/
def valuesOf (name : String) (parameters : List (Bytes × Bytes)) : List Bytes :=
  (parameters.filter fun p => p.1 == utf8 name).map (·.2)

end TermVM.Text
