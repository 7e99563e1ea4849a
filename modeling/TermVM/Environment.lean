/-
  TermVM.Environment

  The declaration table of `vmgen`'s machine as it is kept: the records, a code
  slot for each of them, and a map from names to indices.

  Every access by name goes through the map to an element of one of the two
  lists, and an index past the end of a list is a fault.  `view` reads the lists
  side by side as the rows of a `DeclTable`, which is the form in which the
  rest of the library uses the table.
-/
import TermVM.DeclTable

namespace TermVM

/-- The declaration table in its three parts. -/
structure Environment where
  /-- The records, in index order. -/
  decls : List Decl
  /-- The code installed for the record at each index. -/
  procs : List (Option Procedure)
  /-- The indices of names.  Of several entries for a name the first counts. -/
  byName : List (String × UInt32)
  deriving DecidableEq, Repr

namespace Environment

/-- A failed update. -/
inductive Failure where
  | refused (why : DeclTable.Refusal)
  | fault (f : Fault)
  deriving DecidableEq, Repr

/-! ## Access -/

/-- The element of a list at an index. -/
def element {α : Type} (xs : List α) (index : UInt32) : Except Fault α :=
  match xs[index.toNat]? with
  | some x => .ok x
  | none => .error .missingElement

/-- A list with another element at an index. -/
def replace {α : Type} (xs : List α) (index : UInt32) (x : α) : Except Fault (List α) :=
  if index.toNat < xs.length then .ok (xs.set index.toNat x) else .error .missingElement

/-- The table without declarations. -/
def empty : Environment := ⟨[], [], []⟩

/-- The number of declarations. -/
def size (e : Environment) : Nat := e.decls.length

/-- The index that the map has for a name. -/
def indexOf? (e : Environment) (name : String) : Option UInt32 :=
  e.byName.lookup name

/-- The record that bears a name. -/
def lookup (e : Environment) (name : String) : Except Fault (Option Decl) :=
  match e.indexOf? name with
  | none => .ok none
  | some index => (element e.decls index).map some

/-- The record at an index. -/
def at? (e : Environment) (index : UInt32) : Option Decl :=
  e.decls[index.toNat]?

/-- The code installed for a name. -/
def procedure (e : Environment) (name : String) : Except Fault (Option Procedure) :=
  match e.indexOf? name with
  | none => .ok none
  | some index => element e.procs index

/-! ## Updates -/

/-- Appends a record, an empty code slot, and an entry for the name. -/
def add (e : Environment) (name : String) (arity : UInt32) (kind : DeclKind) : Environment :=
  let index := UInt32.ofNat e.size
  { decls := e.decls ++ [⟨name, arity, kind, index⟩]
    procs := e.procs ++ [none]
    byName := (name, index) :: e.byName }

/-- Adds a builtin or native declaration. -/
def declare (e : Environment) (name : String) (arity : UInt32) (kind : DeclKind) :
    Except Failure Environment :=
  if kind = .builtin ∨ kind = .native then
    match e.indexOf? name with
    | some _ => .error (.refused (.duplicate name))
    | none => .ok (e.add name arity kind)
  else .error (.refused (.notDeclarable name kind))

/-- Reserves one compiled slot: a name that has one keeps its index, takes the new arity and
    loses its code. -/
def reserveOne (e : Environment) (name : String) (arity : UInt32) : Except Failure Environment :=
  match e.indexOf? name with
  | none => .ok (e.add name arity .compiled)
  | some index => do
      let d ← (element e.decls index).mapError .fault
      if d.kind ≠ .compiled then throw (.refused (.occupied name d.kind))
      else
        let decls ← (replace e.decls index { d with arity := arity }).mapError .fault
        let procs ← (replace e.procs index none).mapError .fault
        return { e with decls, procs }

/-- Reserves compiled slots in order. -/
def reserve (e : Environment) (wanted : List (String × UInt32)) : Except Failure Environment :=
  wanted.foldlM (fun e w => e.reserveOne w.1 w.2) e

/-- Attaches code to its reserved slot. -/
def installOne (e : Environment) (p : Procedure) : Except Failure Environment :=
  match e.indexOf? p.name with
  | none => .error (.refused (.notReserved p.name))
  | some index => do
      let d ← (element e.decls index).mapError .fault
      if d.kind ≠ .compiled then throw (.refused (.notReserved p.name))
      else if d.arity ≠ p.arity then throw (.refused (.arityMismatch p.name d.arity p.arity))
      else
        let procs ← (replace e.procs index (some p)).mapError .fault
        return { e with procs }

/-- Attaches procedures to their reserved slots in order. -/
def install (e : Environment) (procs : List Procedure) : Except Failure Environment :=
  procs.foldlM (fun e p => e.installOne p) e

/-! ## Rows -/

/-- The rows of the table: each record with its code slot. -/
def view (e : Environment) : DeclTable :=
  ⟨List.zipWith DeclTable.Row.mk e.decls e.procs⟩

end Environment

end TermVM
