/-
  TermVM.Text.Quoted

  Names in `vmgen`'s messages are written between double quotes.  The quote and
  the backslash are escaped, the seven named controls have letters, the other
  ASCII controls are two hexadecimal digits, and any other code point that is
  not printable is four or eight hexadecimal digits.
-/
import TermVM.Text.Decimal
import TermVM.Text.Printable

namespace TermVM.Text

/-- The letter of a control character that has one. -/
def namedEscape? (c : Char) : Option Char :=
  match c.toNat with
  | 7 => some 'a'
  | 8 => some 'b'
  | 9 => some 't'
  | 10 => some 'n'
  | 11 => some 'v'
  | 12 => some 'f'
  | 13 => some 'r'
  | _ => none

/-- One character as it stands between the quotes. -/
def quotedChar (c : Char) : String :=
  if c = '"' then "\\\""
  else if c = '\\' then "\\\\"
  else match namedEscape? c with
    | some e => String.ofList ['\\', e]
    | none =>
      if isPrintable c then String.singleton c
      else if c.toNat < 0x80 then "\\x" ++ hexPadded 2 c.toNat
      else if c.toNat < 0x10000 then "\\u" ++ hexPadded 4 c.toNat
      else "\\U" ++ hexPadded 8 c.toNat

/-- A text between double quotes, escaped so that it stays on one line. -/
def quoted (s : String) : String :=
  "\"" ++ String.join (s.toList.map quotedChar) ++ "\""

end TermVM.Text
