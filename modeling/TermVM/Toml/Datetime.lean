/-
  TermVM.Toml.Datetime

  Dates and times of day in the texts that `vmgen` is configured by.  A date is
  `YYYY-MM-DD`; a time is `hh:mm`, with seconds and a fraction of them if
  wanted; a date and a time are joined by a letter T or a blank, and may be
  followed by an offset from universal time.
-/

namespace TermVM.Toml.Datetime

/-- A number of exactly two digits. -/
def two? : List Char → Option (Nat × List Char)
  | a :: b :: rest =>
      if a.isDigit && b.isDigit then some (10 * (a.toNat - 48) + (b.toNat - 48), rest) else none
  | _ => none

/-- Whether a year has a 29th of February. -/
def isLeap (year : Nat) : Bool :=
  year % 4 == 0 && (year % 100 != 0 || year % 400 == 0)

/-- The number of days of a month. -/
def daysIn (year month : Nat) : Nat :=
  if month == 2 then if isLeap year then 29 else 28
  else if month == 4 || month == 6 || month == 9 || month == 11 then 30
  else 31

/-- What follows a date. -/
def date? (cs : List Char) : Option (List Char) := do
  let (century, cs) ← two? cs
  let (years, cs) ← two? cs
  let '-' :: cs := cs | none
  let (month, cs) ← two? cs
  let '-' :: cs := cs | none
  let (day, cs) ← two? cs
  let year := 100 * century + years
  if 1 ≤ month ∧ month ≤ 12 ∧ 1 ≤ day ∧ day ≤ daysIn year month then some cs else none

/-- What follows a fraction of seconds, if there is one. -/
def fraction : List Char → List Char
  | '.' :: c :: rest => if c.isDigit then rest.dropWhile Char.isDigit else '.' :: c :: rest
  | cs => cs

/-- What follows a time of day. -/
def time? (cs : List Char) : Option (List Char) := do
  let (hour, cs) ← two? cs
  let ':' :: cs := cs | none
  let (minute, cs) ← two? cs
  if 24 ≤ hour ∨ 60 ≤ minute then none
  match cs with
  | ':' :: rest => do
      let (second, rest) ← two? rest
      if second < 60 then some (fraction rest) else none
  | cs => some cs

/-- Whether a text is an offset from universal time.  Offsets of 24 hours and of 60 minutes occur. -/
def isOffset : List Char → Bool
  | ['Z'] => true
  | sign :: cs =>
      (sign == '+' || sign == '-') &&
        (match two? cs with
          | some (hours, ':' :: cs) =>
              match two? cs with
              | some (minutes, []) => hours ≤ 24 && minutes ≤ 60
              | _ => false
          | _ => false)
  | [] => false

/-- A blank or a small letter stands for the capital one. -/
def capital (c : Char) : Char :=
  if c = ' ' ∨ c = 't' then 'T' else if c = 'z' then 'Z' else c

/-- Whether a text is a date, a time of day, or both. -/
def isDatetime (spelling : List Char) : Bool :=
  let cs := spelling.map capital
  match time? cs with
  | some rest => rest.isEmpty
  | none =>
    match date? cs with
    | none => false
    | some [] => true
    | some ('T' :: rest) =>
        match time? rest with
        | none => false
        | some rest => rest.isEmpty || isOffset rest
    | some _ => false

end TermVM.Toml.Datetime
