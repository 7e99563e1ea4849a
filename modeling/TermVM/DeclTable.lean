/-
  TermVM.DeclTable

  The table of global declarations that `vmgen` compiles against (`Env`), as the
  rows that its users see.  A declaration's index is its position and never
  changes: builtin and native declarations are fixed once made, compiled ones
  may be reserved again with another arity, which drops their code.

  Tables are values; every update gives a new one.
-/
import TermVM.Instr
import TermVM.Text.Quoted

namespace TermVM

/-- How a global is implemented.  The kind is a byte, of which three values are in use. -/
inductive DeclKind where
  | builtin
  | native
  | compiled
  | other (code : UInt8) (unused : code = 0 ∨ 3 < code)
  deriving DecidableEq, Repr

namespace DeclKind

/-- The byte of a kind. -/
def toByte : DeclKind → UInt8
  | builtin => 1
  | native => 2
  | compiled => 3
  | other code _ => code

/-- The kind of a byte. -/
def ofByte (b : UInt8) : DeclKind :=
  if h : b = 0 ∨ 3 < b then other b h
  else match b.toNat with
    | 1 => builtin
    | 2 => native
    | _ => compiled

/-- The name of a kind. -/
def name : DeclKind → String
  | builtin => "builtin"
  | native => "native"
  | compiled => "compiled"
  | other code _ => "DeclKind(" ++ Text.decimal code.toNat ++ ")"

/-- The kind a configuration spelling stands for. -/
def ofSpelling? (s : String) : Option DeclKind :=
  if s = "builtin" then some builtin
  else if s = "native" ∨ s = "cfun" then some native
  else if s = "compiled" then some compiled
  else none

/-- The complaint about a spelling that stands for no kind. -/
def unknownSpelling (s : String) : String :=
  "vm: unknown declaration kind " ++ Text.quoted s

end DeclKind

/-- The record of one global. -/
structure Decl where
  name : String
  arity : UInt32
  kind : DeclKind
  index : UInt32
  deriving DecidableEq, Repr

/-- One row of the table: a record, and the code installed for it. -/
structure DeclTable.Row where
  decl : Decl
  proc : Option Procedure
  deriving DecidableEq, Repr

/-- The table of global declarations, in index order. -/
structure DeclTable where
  rows : List DeclTable.Row
  deriving DecidableEq, Repr

namespace DeclTable

/-- A refused update. -/
inductive Refusal where
  | notDeclarable (name : String) (kind : DeclKind)
  | duplicate (name : String)
  | occupied (name : String) (kind : DeclKind)
  | notReserved (name : String)
  | arityMismatch (name : String) (reserved given : UInt32)
  deriving DecidableEq, Repr

/-- The text of a refusal. -/
def Refusal.message : Refusal → String
  | notDeclarable name kind => "vm: " ++ name ++ " cannot be declared as " ++ kind.name
  | duplicate name => "vm: duplicate declaration: " ++ name
  | occupied name kind =>
      "vm: duplicate declaration: " ++ name ++ " is a " ++ kind.name ++ " declaration"
  | notReserved name => "vm: no reserved slot: " ++ name
  | arityMismatch name reserved given =>
      "vm: arity mismatch: " ++ name ++ " reserved with arity " ++ Text.decimal reserved.toNat
        ++ ", code has " ++ Text.decimal given.toNat

/-- The table without declarations. -/
def empty : DeclTable := ⟨[]⟩

/-- The number of declarations. -/
def size (t : DeclTable) : Nat := t.rows.length

/-- All records in index order. -/
def decls (t : DeclTable) : List Decl := t.rows.map (·.decl)

/-- The row that bears a name. -/
def row? (t : DeclTable) (name : String) : Option Row :=
  t.rows.find? fun r => r.decl.name == name

/-- The record that bears a name. -/
def lookup? (t : DeclTable) (name : String) : Option Decl :=
  (t.row? name).map (·.decl)

/-- The record at an index. -/
def at? (t : DeclTable) (index : UInt32) : Option Decl :=
  t.rows[index.toNat]?.map (·.decl)

/-- The code installed for a name. -/
def procedure? (t : DeclTable) (name : String) : Option Procedure :=
  (t.row? name).bind (·.proc)

/-- Appends a record without code; its index is its position. -/
def append (t : DeclTable) (name : String) (arity : UInt32) (kind : DeclKind) : DeclTable :=
  ⟨t.rows ++ [⟨⟨name, arity, kind, UInt32.ofNat t.size⟩, none⟩]⟩

/-- Changes the row that bears a name. -/
def modify (t : DeclTable) (name : String) (f : Row → Row) : DeclTable :=
  ⟨t.rows.map fun r => if r.decl.name == name then f r else r⟩

/-- Adds a builtin or native declaration. -/
def declare (t : DeclTable) (name : String) (arity : UInt32) (kind : DeclKind) :
    Except Refusal DeclTable :=
  if kind = .builtin ∨ kind = .native then
    match t.lookup? name with
    | some _ => .error (.duplicate name)
    | none => .ok (t.append name arity kind)
  else .error (.notDeclarable name kind)

/-- Reserves one compiled slot: a name that has one keeps its index, takes the new arity and
    loses its code. -/
def reserveOne (t : DeclTable) (name : String) (arity : UInt32) : Except Refusal DeclTable :=
  match t.lookup? name with
  | none => .ok (t.append name arity .compiled)
  | some d =>
    if d.kind = .compiled then
      .ok (t.modify name fun r => { decl := { r.decl with arity := arity }, proc := none })
    else .error (.occupied name d.kind)

/-- Reserves compiled slots in order. -/
def reserve (t : DeclTable) (wanted : List (String × UInt32)) : Except Refusal DeclTable :=
  wanted.foldlM (fun t w => t.reserveOne w.1 w.2) t

/-- Attaches code to its reserved slot. -/
def installOne (t : DeclTable) (p : Procedure) : Except Refusal DeclTable :=
  match t.lookup? p.name with
  | none => .error (.notReserved p.name)
  | some d =>
    if d.kind ≠ .compiled then .error (.notReserved p.name)
    else if d.arity ≠ p.arity then .error (.arityMismatch p.name d.arity p.arity)
    else .ok (t.modify p.name fun r => { r with proc := some p })

/-- Attaches procedures to their reserved slots in order. -/
def install (t : DeclTable) (procs : List Procedure) : Except Refusal DeclTable :=
  procs.foldlM (fun t p => t.installOne p) t

end DeclTable

end TermVM
