/-
  TermVM.Toml.Value

  Values of a TOML document, which `vmgen.toml` is read as.
-/

namespace TermVM.Toml

/-- A value.  Floats and dates are kept as they are spelled. -/
inductive Value where
  | text (value : String)
  | integer (value : Int)
  | float (spelling : String)
  | boolean (value : Bool)
  | datetime (spelling : String)
  | array (items : List Value)
  | table (entries : List (String × Value))
  deriving Repr, Inhabited

/-- The entries of a table, in the order their keys first appear. -/
abbrev Entries := List (String × Value)

namespace Value

/-- The text of a value. -/
def text? : Value → Option String
  | text s => some s
  | _ => none

/-- The number of an integer. -/
def integer? : Value → Option Int
  | integer n => some n
  | _ => none

/-- The truth of a boolean. -/
def boolean? : Value → Option Bool
  | boolean b => some b
  | _ => none

/-- The items of an array. -/
def array? : Value → Option (List Value)
  | array items => some items
  | _ => none

/-- The entries of a table. -/
def table? : Value → Option Entries
  | table entries => some entries
  | _ => none

end Value

end TermVM.Toml
