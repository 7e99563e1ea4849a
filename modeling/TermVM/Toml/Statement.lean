/-
  TermVM.Toml.Statement

  The statements of a TOML text such as `vmgen.toml`: headers of tables, headers
  of arrays of tables, and assignments.  What the names in them refer to is not
  decided here.
-/
import TermVM.Toml.Quoted

namespace TermVM.Toml

/-- A value as written.  An inline table is a list of assignments, whose keys may be dotted. -/
inductive Expr where
  | value (value : Value)
  | array (items : List Expr)
  | inline (pairs : List (List String × Expr))
  deriving Repr, Inhabited

/-- One statement. -/
inductive Statement where
  | header (key : List String)
  | arrayHeader (key : List String)
  | assign (key : List String) (expr : Expr)
  deriving Repr, Inhabited

namespace Statement

/-- A blank within a line. -/
def isSpace (c : Char) : Bool := c == ' ' || c == '\t'

/-- The end of a line. -/
def isNewline (c : Char) : Bool := c == '\n' || c == '\r'

/-- Passes over the blanks of a line. -/
def skipSpace (cs : List Char) : List Char := cs.dropWhile isSpace

/-- Passes over blanks, newlines and comments; `inComment` after a number sign. -/
def skipGap : (inComment : Bool) → List Char → List Char
  | _, [] => []
  | true, c :: cs => skipGap (!isNewline c) cs
  | false, c :: cs =>
      if isSpace c || isNewline c then skipGap false cs
      else if c == '#' then skipGap true cs
      else c :: cs

/-- A character of a name without quotes. -/
def isBareChar (c : Char) : Bool :=
  c.isAlphanum || c == '_' || c == '-'

/-- Reads one part of a key. -/
def keyPart? (cs : List Char) : Option (String × List Char) :=
  match cs with
  | '"' :: _ | '\'' :: _ => Quoted.name? cs
  | _ =>
      let bare := cs.takeWhile isBareChar
      if bare.isEmpty then none else some (String.ofList bare, cs.dropWhile isBareChar)

/-- Reads the parts of a key and what ends it.  Blanks may stand around each part. -/
def key? : (fuel : Nat) → (parts : List String) → List Char → Option (List String × List Char)
  | 0, _, _ => none
  | fuel + 1, parts, cs => do
      let (part, cs) ← keyPart? (skipSpace cs)
      match skipSpace cs with
      | '.' :: cs => key? fuel (part :: parts) cs
      | cs => return ((part :: parts).reverse, cs)

/-- Reads a value that is not made of others. -/
def simple? : List Char → Option (Value × List Char)
  | 't' :: 'r' :: 'u' :: 'e' :: cs => some (.boolean true, cs)
  | 'f' :: 'a' :: 'l' :: 's' :: 'e' :: cs => some (.boolean false, cs)
  | cs@('"' :: _) | cs@('\'' :: _) => (Quoted.value? cs).map fun (s, cs) => (.text s, cs)
  | cs => do
      let (literal, cs) ← Literal.scan? cs
      return (← literal.value?, cs)

mutual

/-- Reads a value. -/
def expr? : (fuel : Nat) → List Char → Option (Expr × List Char)
  | 0, _ => none
  | fuel + 1, cs =>
      match skipSpace cs with
      | '[' :: cs => items? fuel [] cs
      | '\x7b' :: cs => pairs? fuel [] cs
      | cs => (simple? cs).map fun (v, cs) => (.value v, cs)

/-- Reads the items of an array, from after its bracket or a comma. -/
def items? : (fuel : Nat) → (items : List Expr) → List Char → Option (Expr × List Char)
  | 0, _, _ => none
  | fuel + 1, items, cs =>
      match skipGap false cs with
      | ']' :: cs => some (.array items.reverse, cs)
      | cs => do
          let (item, cs) ← expr? fuel cs
          match skipGap false cs with
          | ',' :: cs => items? fuel (item :: items) cs
          | ']' :: cs => some (.array (item :: items).reverse, cs)
          | _ => none

/-- Reads the assignments of an inline table, from after its brace or a comma. -/
def pairs? : (fuel : Nat) → (pairs : List (List String × Expr)) → List Char →
    Option (Expr × List Char)
  | 0, _, _ => none
  | fuel + 1, pairs, cs =>
      match skipGap false cs with
      | '\x7d' :: cs => some (.inline pairs.reverse, cs)
      | cs => do
          let (key, cs) ← key? fuel [] cs
          let '=' :: cs := cs | none
          let (e, cs) ← expr? fuel cs
          match skipGap false cs with
          | ',' :: cs => pairs? fuel ((key, e) :: pairs) cs
          | '\x7d' :: cs => some (.inline ((key, e) :: pairs).reverse, cs)
          | _ => none

end

/-- Reads one statement. -/
def statement? (fuel : Nat) (cs : List Char) : Option (Statement × List Char) :=
  match cs with
  | '[' :: '[' :: cs => do
      let (key, cs) ← key? fuel [] cs
      let ']' :: ']' :: cs := cs | none
      return (.arrayHeader key, cs)
  | '[' :: cs => do
      let (key, cs) ← key? fuel [] cs
      let ']' :: cs := cs | none
      return (.header key, cs)
  | cs => do
      let (key, cs) ← key? fuel [] cs
      let '=' :: cs := cs | none
      let (e, cs) ← expr? fuel cs
      return (.assign key e, cs)

/-- Whether a text may follow a statement on its line. -/
def endsLine : List Char → Bool
  | [] => true
  | c :: _ => isNewline c || c == '#'

/-- Reads statements to the end of the text. -/
def all? : (fuel : Nat) → (done : List Statement) → List Char → Option (List Statement)
  | 0, _, _ => none
  | fuel + 1, done, cs =>
      match skipGap false cs with
      | [] => some done.reverse
      | cs => do
          let (s, cs) ← statement? (fuel + 1) cs
          let cs := skipSpace cs
          if endsLine cs then all? fuel (s :: done) cs else none

/-- Whether a text holds only characters that a document may hold: no control characters but tabs and
    newlines, and a carriage return only before a line feed. -/
def isAdmissible : List Char → Bool
  | [] => true
  | '\r' :: cs =>
      (match cs with
        | '\n' :: _ => true
        | _ => false) && isAdmissible cs
  | c :: cs => (c == '\t' || c == '\n' || (0x1f < c.toNat && c.toNat != 0x7f)) && isAdmissible cs

/-- The statements of a text.  Every step of the reader takes at least one character, so the text's
    length bounds the work. -/
def read? (cs : List Char) : Option (List Statement) :=
  if isAdmissible cs then all? (2 * cs.length + 4) [] cs else none

end Statement

end TermVM.Toml
