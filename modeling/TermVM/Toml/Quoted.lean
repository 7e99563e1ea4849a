/-
  TermVM.Toml.Quoted

  Quoted texts of `vmgen.toml`.  A text between double quotes may hold escapes,
  one between single quotes is taken as it stands.  A text between tripled
  quotes may run over several lines; a newline right after its opening is not
  part of it.
-/
import TermVM.Toml.Number

namespace TermVM.Toml.Quoted

/-! ## Escapes -/

/-- What a backslash has started. -/
inductive Escape where
  /-- The character after the backslash is awaited. -/
  | opened
  /-- Hexadecimal digits are awaited; `value` is what the digits so far denote. -/
  | digits (left value : Nat)
  deriving DecidableEq, Repr

/-- How an escape goes on. -/
inductive Escape.Next where
  | more (escape : Escape)
  | char (c : Char)
  deriving DecidableEq, Repr

/-- The next character of an escape. -/
def Escape.step? : Escape → Char → Option Escape.Next
  | opened, 'b' => some (.char '\x08')
  | opened, 't' => some (.char '\t')
  | opened, 'n' => some (.char '\n')
  | opened, 'f' => some (.char '\x0c')
  | opened, 'r' => some (.char '\r')
  | opened, 'e' => some (.char '\x1b')
  | opened, '"' => some (.char '"')
  | opened, '\\' => some (.char '\\')
  | opened, 'x' => some (.more (.digits 2 0))
  | opened, 'u' => some (.more (.digits 4 0))
  | opened, 'U' => some (.more (.digits 8 0))
  | opened, _ => none
  | digits left value, c =>
      if Literal.isHexDigit c then
        let value := 16 * value + Literal.digitValue c
        if left ≤ 1 then
          if value.isValidChar then some (.char (Char.ofNat value)) else none
        else some (.more (.digits (left - 1) value))
      else none

/-! ## Texts on one line -/

/-- Reads a text between double quotes, from after the first one.  `text` is what was read so far,
    last character first. -/
def basic? : Option Escape → (text : List Char) → List Char → Option (String × List Char)
  | _, _, [] => none
  | none, text, c :: cs =>
      if c = '"' then some (String.ofList text.reverse, cs)
      else if c = '\n' ∨ c = '\r' then none
      else if c = '\\' then basic? (some .opened) text cs
      else basic? none (c :: text) cs
  | some e, text, c :: cs =>
      match e.step? c with
      | none => none
      | some (.more e) => basic? (some e) text cs
      | some (.char d) => basic? none (d :: text) cs

/-- Reads a text between single quotes, from after the first one. -/
def literal? (cs : List Char) : Option (String × List Char) :=
  let plain := fun c => c != '\'' && c != '\n' && c != '\r'
  match cs.dropWhile plain with
  | '\'' :: rest => some (String.ofList (cs.takeWhile plain), rest)
  | _ => none

/-! ## Texts over several lines -/

/-- Where the reader of a text over several lines stands. -/
inductive Mode where
  /-- In the text; `slash` after an escaped backslash. -/
  | text (slash : Bool)
  | escape (escape : Escape)
  /-- After a backslash and blanks: a newline has to follow. -/
  | lineEnd
  /-- After an escaped newline: blanks are passed over. -/
  | indent
  /-- After a run of quotes; `slash` if an escaped backslash stands before it. -/
  | quotes (count : Nat) (slash : Bool)
  deriving DecidableEq, Repr

/-- One step of the reader: it goes on with what it has read, or ends before the character. -/
inductive Step where
  | more (mode : Mode) (text : List Char)
  | done (text : List Char)
  | bad
  deriving DecidableEq, Repr

/-- A blank or a newline. -/
def isGap (c : Char) : Bool :=
  c == ' ' || c == '\t' || c == '\n' || c == '\r'

/-- What a run of quotes means once it is over.  Up to two quotes belong to the text, three close it,
    and up to two before the closing ones belong to it; six are too many, unless an escaped
    backslash stands before them. -/
def afterQuotes (quote : Char) (count : Nat) (slash : Bool) (text : List Char) : Step :=
  if count < 3 then .more (.text false) (List.replicate count quote ++ text)
  else if count < 6 ∨ (count = 6 ∧ slash) then .done (List.replicate (count - 3) quote ++ text)
  else .bad

/-- A character in the text proper. -/
def inText (c : Char) (slash : Bool) (text : List Char) : Step :=
  if c = '"' then .more (.quotes 1 slash) text
  else if c = '\\' then .more (.escape .opened) text
  else .more (.text false) (c :: text)

/-- The next character of a text between tripled double quotes. -/
def step (text : List Char) (c : Char) : Mode → Step
  | .text slash => inText c slash text
  | .escape .opened =>
      if c = '\n' ∨ c = '\r' then .more .indent text
      else if isGap c then .more .lineEnd text
      else match Escape.opened.step? c with
        | none => .bad
        | some (.more e) => .more (.escape e) text
        | some (.char d) => .more (.text (d == '\\')) (d :: text)
  | .escape e =>
      match e.step? c with
      | none => .bad
      | some (.more e) => .more (.escape e) text
      | some (.char d) => .more (.text false) (d :: text)
  | .lineEnd =>
      if c = '\n' ∨ c = '\r' then .more .indent text
      else if isGap c then .more .lineEnd text
      else .bad
  | .indent => if isGap c then .more .indent text else inText c false text
  | .quotes count slash =>
      if c = '"' then .more (.quotes (count + 1) slash) text
      else match afterQuotes '"' count slash text with
        | .more _ text => inText c false text
        | s => s

/-- Reads a text between tripled double quotes. -/
def multiline? : Mode → (text : List Char) → List Char → Option (String × List Char)
  | mode, text, c :: cs =>
      match step text c mode with
      | .more mode text => multiline? mode text cs
      | .done text => some (String.ofList text.reverse, c :: cs)
      | .bad => none
  | .quotes count slash, text, [] =>
      match afterQuotes '"' count slash text with
      | .done text => some (String.ofList text.reverse, [])
      | _ => none
  | _, _, [] => none

/-- Reads a text between tripled single quotes; `count` quotes were read last. -/
def multilineLiteral? : (count : Nat) → (text : List Char) → List Char →
    Option (String × List Char)
  | count, text, [] =>
      match afterQuotes '\'' count false text with
      | .done text => some (String.ofList text.reverse, [])
      | _ => none
  | count, text, c :: cs =>
      if c = '\'' then multilineLiteral? (count + 1) text cs
      else match afterQuotes '\'' count false text with
        | .more _ text => multilineLiteral? 0 (c :: text) cs
        | .done text => some (String.ofList text.reverse, c :: cs)
        | .bad => none

/-- A text without the newline it starts with. -/
def dropNewline : List Char → List Char
  | '\n' :: cs | '\r' :: '\n' :: cs => cs
  | cs => cs

/-- Reads any quoted text. -/
def value? : List Char → Option (String × List Char)
  | '"' :: '"' :: '"' :: cs => multiline? (.text false) [] (dropNewline cs)
  | '"' :: cs => basic? none [] cs
  | '\'' :: '\'' :: '\'' :: cs => multilineLiteral? 0 [] (dropNewline cs)
  | '\'' :: cs => literal? cs
  | _ => none

/-- Reads a quoted name, which stays on one line. -/
def name? : List Char → Option (String × List Char)
  | '"' :: cs => basic? none [] cs
  | '\'' :: cs => literal? cs
  | _ => none

end TermVM.Toml.Quoted
