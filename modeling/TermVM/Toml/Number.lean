/-
  TermVM.Toml.Number

  Literals of `vmgen.toml` that start with a digit or a sign.  A literal is
  first cut out of the text by the characters it may hold, and then judged as a
  whole.
-/
import TermVM.Text.Decimal
import TermVM.Toml.Datetime
import TermVM.Toml.Value

namespace TermVM.Toml

/-- A literal as it is spelled. -/
inductive Literal where
  | integer (spelling : List Char)
  | float (spelling : List Char)
  | datetime (spelling : List Char)
  deriving DecidableEq, Repr

namespace Literal

/-! ## Cutting out -/

/-- A digit or the mark between digits. -/
def isDigitOrMark (c : Char) : Bool := c.isDigit || c == '_'

/-- A digit of base 16. -/
def isHexDigit (c : Char) : Bool :=
  c.isDigit || ('a' ≤ c && c ≤ 'f') || ('A' ≤ c && c ≤ 'F')

/-- A digit of base 8. -/
def isOctalDigit (c : Char) : Bool := '0' ≤ c && c ≤ '7'

/-- A digit of base 2. -/
def isBinaryDigit (c : Char) : Bool := c == '0' || c == '1'

/-- A character of a float. -/
def isFloatChar (c : Char) : Bool :=
  c.isDigit || c == '_' || c == '.' || c == '-' || c == '+' || c == 'e' || c == 'E'

/-- A character that turns an integer into a float. -/
def startsFloat (c : Char) : Bool := c == '.' || c == 'e' || c == 'E'

/-- A character of a date or a time. -/
def isDatetimeChar (c : Char) : Bool :=
  c.isDigit || c == '-' || c == ':' || c == 'T' || c == 't' || c == ' ' || c == '.'
    || c == 'Z' || c == 'z' || c == '+'

/-- Cuts out a float of which `read` has been read. -/
def floatTail (read cs : List Char) : Literal × List Char :=
  (.float (read ++ cs.takeWhile isFloatChar), cs.dropWhile isFloatChar)

/-- Cuts out a date of which `read` has been read; blanks at its end do not belong to it. -/
def datetimeTail (read cs : List Char) : Literal × List Char :=
  let spelling := read ++ cs.takeWhile isDatetimeChar
  (.datetime (spelling.reverse.dropWhile (· == ' ')).reverse, cs.dropWhile isDatetimeChar)

/-- Cuts out a decimal number of which `read` has been read. -/
def decimalTail (read cs : List Char) : Literal × List Char :=
  let read := read ++ cs.takeWhile isDigitOrMark
  let rest := cs.dropWhile isDigitOrMark
  match rest with
  | c :: _ => if startsFloat c then floatTail read rest else (.integer read, rest)
  | [] => (.integer read, rest)

/-- Cuts out a decimal number or a date of which one digit has been read. -/
def numberOrDateTail (read cs : List Char) : Literal × List Char :=
  let read := read ++ cs.takeWhile Char.isDigit
  let rest := cs.dropWhile Char.isDigit
  match rest with
  | c :: _ =>
      if c == '-' || c == ':' then datetimeTail read rest
      else if c == '_' then decimalTail read rest
      else if startsFloat c then floatTail read rest
      else (.integer read, rest)
  | [] => (.integer read, rest)

/-- Cuts out an integer of another base, whose mark has been read. -/
def basedTail? (isDigit : Char → Bool) (read cs : List Char) : Option (Literal × List Char) :=
  match cs with
  | c :: _ =>
      let ok := fun c => isDigit c || c == '_'
      if isDigit c then some (.integer (read ++ cs.takeWhile ok), cs.dropWhile ok) else none
  | [] => none

/-- Cuts out a literal that starts with a sign. -/
def signedTail? (sign : Char) : List Char → Option (Literal × List Char)
  | 'i' :: 'n' :: 'f' :: rest => some (.float [sign, 'i', 'n', 'f'], rest)
  | 'n' :: 'a' :: 'n' :: rest => some (.float [sign, 'n', 'a', 'n'], rest)
  | '0' :: 'b' :: _ | '0' :: 'o' :: _ | '0' :: 'x' :: _ => none
  | c :: rest => if c.isDigit then some (decimalTail [sign, c] rest) else none
  | [] => none

/-- Cuts a literal out of a text. -/
def scan? : List Char → Option (Literal × List Char)
  | '+' :: rest => signedTail? '+' rest
  | '-' :: rest => signedTail? '-' rest
  | 'i' :: 'n' :: 'f' :: rest => some (.float ['i', 'n', 'f'], rest)
  | 'n' :: 'a' :: 'n' :: rest => some (.float ['n', 'a', 'n'], rest)
  | '0' :: 'b' :: rest => basedTail? isBinaryDigit ['0', 'b'] rest
  | '0' :: 'o' :: rest => basedTail? isOctalDigit ['0', 'o'] rest
  | '0' :: 'x' :: rest => basedTail? isHexDigit ['0', 'x'] rest
  | '0' :: c :: rest =>
      if c.isDigit then some (numberOrDateTail ['0'] (c :: rest))
      else if c == '_' then some (decimalTail ['0'] (c :: rest))
      else if startsFloat c then some (floatTail ['0'] (c :: rest))
      else some (.integer ['0'], c :: rest)
  | c :: rest => if c.isDigit then some (numberOrDateTail [c] rest) else none
  | [] => none

/-! ## Judging -/

/-- Whether every mark between digits follows a digit, and a digit ends the literal. -/
def marksOk : (afterDigit : Bool) → List Char → Bool
  | afterDigit, [] => afterDigit
  | afterDigit, c :: cs => (c != '_' || afterDigit) && marksOk (isHexDigit c) cs

/-- Whether a number starts with a zero that it does not need. -/
def hasLeadingZero : List Char → Bool
  | ['0'] => false
  | '0' :: c :: _ => !(c == 'b' || c == 'o' || c == 'x')
  | '-' :: '0' :: _ :: _ | '+' :: '0' :: _ :: _ => true
  | _ => false

/-- The value of a digit. -/
def digitValue (c : Char) : Nat :=
  if c.isDigit then c.toNat - 48
  else if 'a' ≤ c then c.toNat - 87
  else c.toNat - 55

/-- The number that digits of a base denote; marks between them do not count. -/
def natural (base : Nat) (cs : List Char) : Nat :=
  (cs.filter (· != '_')).foldl (fun n c => base * n + digitValue c) 0

/-- The number that an integer denotes. -/
def magnitude : List Char → Int
  | '-' :: cs => -(natural 10 cs : Int)
  | '+' :: cs => natural 10 cs
  | '0' :: 'b' :: cs => natural 2 cs
  | '0' :: 'o' :: cs => natural 8 cs
  | '0' :: 'x' :: cs => natural 16 cs
  | cs => natural 10 cs

/-- The number of an integer that is well spelled and fits 64 bits. -/
def integer? (spelling : List Char) : Option Int :=
  let n := magnitude spelling
  if marksOk false spelling && !hasLeadingZero spelling && Int64.minValue.toInt ≤ n
      && n ≤ Int64.maxValue.toInt then some n
  else none

/-- The parts of a float between its points and exponent marks. -/
def floatParts (spelling : List Char) : List (List Char) :=
  (spelling.splitBy fun a b => !startsFloat a && !startsFloat b).filter fun part =>
    !(part.any startsFloat)

/-- Whether every point is followed by a digit. -/
def pointsOk : List Char → Bool
  | [] => true
  | '.' :: rest =>
      (match rest with
        | c :: _ => c.isDigit
        | [] => false) && pointsOk rest
  | _ :: rest => pointsOk rest

/-- The digits and the power of ten of a float without marks: sign, digits, fraction, exponent. -/
def decompose? (cs : List Char) : Option (Nat × Int) := do
  let cs := match cs with
    | '-' :: rest | '+' :: rest => rest
    | cs => cs
  let whole := cs.takeWhile Char.isDigit
  let cs := cs.dropWhile Char.isDigit
  let (part, cs) := match cs with
    | '.' :: rest => (rest.takeWhile Char.isDigit, rest.dropWhile Char.isDigit)
    | cs => ([], cs)
  if whole.isEmpty && part.isEmpty then none
  let exponent ← match cs with
    | [] => some 0
    | e :: rest =>
        if e == 'e' || e == 'E' then Text.readInt? rest else none
  return (natural 10 (whole ++ part), exponent - part.length)

/-- The least number that is too large for a double: half a unit above the largest one. -/
def tooLarge : Nat := Nat.pow 2 1024 - Nat.pow 2 970

/-- Whether a decimal number is within the range of doubles. -/
def inRange (digits : Nat) (exponent : Int) : Bool :=
  digits == 0 ||
    (let top := (Nat.toDigits 10 digits).length + exponent
     if top < 300 then true
     else if 320 < top then false
     else if 0 ≤ exponent then digits * Nat.pow 10 exponent.toNat < tooLarge
     else digits < tooLarge * Nat.pow 10 (-exponent).toNat)

/-- Whether a float is well spelled and within the range of doubles. -/
def isFloat (spelling : List Char) : Bool :=
  let special := [['i', 'n', 'f'], ['n', 'a', 'n']]
  if spelling ∈ special || spelling.drop 1 ∈ special then true
  else
    let parts := floatParts spelling
    parts.all (marksOk false) && !((parts.head?.map hasLeadingZero).getD false) && pointsOk spelling
      && (match decompose? (spelling.filter (· != '_')) with
          | some (digits, exponent) => inRange digits exponent
          | none => false)

/-- The value of a literal. -/
def value? : Literal → Option Value
  | integer spelling => (integer? spelling).map .integer
  | float spelling => if isFloat spelling then some (.float (String.ofList spelling)) else none
  | datetime spelling =>
      if Datetime.isDatetime spelling then some (.datetime (String.ofList spelling)) else none

end Literal

end TermVM.Toml
