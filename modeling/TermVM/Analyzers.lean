/-
  TermVM.Analyzers

  `CasesTable` of `vmgen`'s machine: the case analyzers that the runtime
  implements natively.  An analyzer takes over one eliminator constant; the
  registry is filled once, frozen, and then only read.
-/
import TermVM.Term.Basic

namespace TermVM

/-- One native analyzer: the eliminator it handles, its index in the runtime, and the number of
    constructors it distinguishes. -/
structure Analyzer where
  name : String
  index : UInt32
  alternatives : UInt32
  deriving DecidableEq, Repr

/-- The registry of native analyzers, sorted by name. -/
structure Analyzers where
  entries : List Analyzer
  frozen : Bool
  deriving DecidableEq, Repr

namespace Analyzers

/-- A refused registration. -/
inductive Refusal where
  | frozen
  | naturalNumbers
  | noAlternatives (name : String)
  | duplicate (name : String)
  deriving DecidableEq, Repr

/-- The text of a refusal. -/
def Refusal.message : Refusal → String
  | frozen => "vm: cases table is frozen"
  | naturalNumbers => "vm: " ++ Term.natCasesOn ++ " is handled by NAT_CASES"
  | noAlternatives name => "vm: case analyzer " ++ name ++ " needs at least one alternative"
  | duplicate name => "vm: duplicate declaration: case analyzer " ++ name

/-- A registry without analyzers. -/
def empty : Analyzers := ⟨[], false⟩

/-- The analyzer of an eliminator. -/
def lookup? (t : Analyzers) (name : String) : Option Analyzer :=
  t.entries.find? fun e => e.name == name

/-- Inserts an analyzer before the first one with a larger name. -/
def insertSorted (e : Analyzer) : List Analyzer → List Analyzer
  | [] => [e]
  | x :: xs => if e.name < x.name then e :: x :: xs else x :: insertSorted e xs

/-- Registers an analyzer. -/
def register (t : Analyzers) (name : String) (index alternatives : UInt32) :
    Except Refusal Analyzers :=
  if t.frozen then .error .frozen
  else if name = Term.natCasesOn then .error .naturalNumbers
  else if alternatives = 0 then .error (.noAlternatives name)
  else match t.lookup? name with
    | some _ => .error (.duplicate name)
    | none => .ok { t with entries := insertSorted ⟨name, index, alternatives⟩ t.entries }

/-- Stops further registration. -/
def freeze (t : Analyzers) : Analyzers :=
  { t with frozen := true }

/-- Registers analyzers in order, then freezes the registry. -/
def ofList (es : List Analyzer) : Except Refusal Analyzers := do
  let t ← es.foldlM (fun t e => t.register e.name e.index e.alternatives) empty
  return t.freeze

end Analyzers

end TermVM
