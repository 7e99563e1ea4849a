/-
  TermVM.Log

  Log entries of `vmgen` and the levels that filter them.
-/

namespace TermVM.Log

/-- The severity of an entry. -/
inductive Level where
  | critical
  | error
  | warning
  | notice
  | info
  | debug
  deriving DecidableEq, Repr

namespace Level

/-- The name of a level. -/
def name : Level → String
  | critical => "Critical"
  | error => "Error"
  | warning => "Warning"
  | notice => "Notice"
  | info => "Info"
  | debug => "Debug"

/-- The verbosity from which on a level is shown. -/
def verbosity : Level → Int
  | critical => -3
  | error => -2
  | warning => -1
  | notice => 0
  | info => 1
  | debug => 2

/-- Whether entries of a level are shown. -/
def shownAt (l : Level) (verbosity : Int) : Bool :=
  l.verbosity ≤ verbosity

end Level

/-- One entry.  `values` holds what is noted beside the message; a value whose text is not fixed is
    left out. -/
structure Entry where
  level : Level
  logger : String
  message : String
  values : List (String × String)
  deriving DecidableEq, Repr

/-- The entries that are shown at a verbosity. -/
def shown (verbosity : Int) (es : List Entry) : List Entry :=
  es.filter fun e => e.level.shownAt verbosity

end TermVM.Log
