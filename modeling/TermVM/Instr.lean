/-
  TermVM.Instr

  Instructions, code and procedures of `vmgen`'s stack machine (`Instruction`,
  `Procedure`).

  Every instruction has the same operands; its operation says which of them it
  reads.  `targets` are program counters, `fields` says how many values each
  alternative of a dispatch finds pushed on entry.

  Code can arrive with operands missing; using them is a fault, kept apart from
  the errors that a caller is told about.
-/
import TermVM.Opcode
import TermVM.Term.Basic

namespace TermVM

/-- An access to something that is not there. -/
inductive Fault where
  /-- A position past the end of a list. -/
  | missingElement
  /-- A value that was never given. -/
  | missingValue
  deriving DecidableEq, Repr

/-- One instruction.  An instruction that carries no quoted term has `expr` absent. -/
structure Instr (ν : Type := String) where
  op : Opcode
  a : UInt32 := 0
  b : UInt32 := 0
  num : Option Int := none
  expr : Term ν := .absent
  targets : List UInt32 := []
  fields : List UInt32 := []
  deriving DecidableEq, Repr, Inhabited

namespace Instr

/-- Push the value at `slot`. -/
def push (slot : UInt32) : Instr := { op := .named .push, a := slot }

/-- Remove `n` values below the top. -/
def drop (n : UInt32) : Instr := { op := .named .drop, a := n }

/-- Push constructor `index` without fields. -/
def scnstr (index : UInt32) : Instr := { op := .named .scnstr, a := index }

/-- Pop `n` fields, push constructor `index`. -/
def cnstr (index n : UInt32) : Instr := { op := .named .cnstr, a := index, b := n }

/-- Push a literal. -/
def literal (value : Int) : Instr := { op := .named .num, num := some value }

/-- Push a quoted term. -/
def quotation (t : Term) : Instr := { op := .named .expr, expr := t }

/-- Replace the top by its field `index`. -/
def proj (index : UInt32) : Instr := { op := .named .proj, a := index }

/-- A jump whose target is still to be patched. -/
def goto : Instr := { op := .named .goto, targets := [0] }

/-- Pop a value, push its fields; the number of fields is still to be set. -/
def destruct : Instr := { op := .named .destruct, fields := [0] }

/-- A dispatch over `n` alternatives with all targets and field counts still to be filled in. -/
def dispatch (m : Mnemonic) (a : UInt32) (n : Nat) : Instr :=
  { op := .named m, a := a, targets := List.replicate n 0, fields := List.replicate n 0 }

/-- Trap. -/
def unreachable : Instr := { op := .named .unreachable }

/-- Pop a callable and one argument, push the result. -/
def apply : Instr := { op := .named .apply }

/-- Call declaration `index`, which is of the kind that `m` calls. -/
def invoke (m : Mnemonic) (index : UInt32) : Instr := { op := .named m, a := index }

/-- Pop `n` arguments, push a partial application of declaration `index`. -/
def closure (index n : UInt32) : Instr := { op := .named .closure, a := index, b := n }

/-- Return the top of the stack. -/
def ret : Instr := { op := .named .ret }

end Instr

/-- A sequence of instructions, addressed by position. -/
abbrev Code (ν : Type := String) := List (Instr ν)

/-- The finished code of one compiled declaration.  The first `arity` values of its frame are
    the arguments, the last argument deepest. -/
structure Procedure where
  name : String
  arity : UInt32
  code : Code
  deriving DecidableEq, Repr, Inhabited

/-! ## Sameness of code

Quoted terms are compared by identity.  Code that was built separately shares no
quoted term; a copy shares all of them with what it was copied from. -/

/-- How two pieces of code came about. -/
inductive Sharing where
  | separate
  | copied
  deriving DecidableEq, Repr

/-- Whether two quotations are the same object. -/
def Sharing.sameQuotation : Sharing → Term → Term → Bool
  | separate, s, t => s == .absent && t == .absent
  | copied, s, t => s == t

/-- Whether two instructions are the same. -/
def Instr.same (how : Sharing) (i j : Instr) : Bool :=
  i.op == j.op && i.a == j.a && i.b == j.b && how.sameQuotation i.expr j.expr
    && i.num == j.num && i.targets == j.targets && i.fields == j.fields

/-- Whether two pieces of code are the same, instruction for instruction. -/
def Code.same (how : Sharing) : Code → Code → Bool
  | [], [] => true
  | i :: is, j :: js => i.same how j && Code.same how is js
  | _, _ => false

end TermVM
