/-
  TermVM.Opcode

  The operations of `vmgen`'s stack machine (`Opcode`).  An operation code is a
  byte; twenty values are assigned, and the others are kept apart so that a byte
  and its meaning determine each other.
-/
import TermVM.Text.Decimal

namespace TermVM

/-- An assigned operation. -/
inductive Mnemonic where
  /-- Push the value at a frame slot. -/
  | push
  /-- Remove `a` values below the top. -/
  | drop
  /-- Push a constructor without fields. -/
  | scnstr
  /-- Pop `b` fields, push a constructor. -/
  | cnstr
  /-- Push a literal. -/
  | num
  /-- Push a quoted term. -/
  | expr
  /-- Replace the top by one of its fields. -/
  | proj
  /-- Jump. -/
  | goto
  /-- Pop a value, push its fields. -/
  | destruct
  /-- Pop a value of two constructors, push its fields, branch. -/
  | cases2
  /-- Pop a value, push its fields, branch through a table. -/
  | casesN
  /-- Pop a number, branch on zero, push the predecessor otherwise. -/
  | natCases
  /-- Pop a value, branch through an analyzer of the runtime. -/
  | builtinCases
  /-- Trap. -/
  | unreachable
  /-- Pop a callable and one argument, push the result. -/
  | apply
  /-- Call a compiled procedure with all its arguments. -/
  | invokeGlobal
  /-- Call an intrinsic with all its arguments. -/
  | invokeBuiltin
  /-- Call a native function with all its arguments. -/
  | invokeNative
  /-- Pop `b` arguments, push a partial application. -/
  | closure
  /-- Return the top of the stack. -/
  | ret
  deriving DecidableEq, Repr

/-- The net change an operation makes to the stack depth. -/
inductive StackEffect where
  | fixed (change : Int)
  /-- It depends on the operands or on the declaration they refer to. -/
  | operand
  deriving DecidableEq, Repr

namespace Mnemonic

/-- All assigned operations in the order of their codes. -/
def all : List Mnemonic :=
  [push, drop, scnstr, cnstr, num, expr, proj, goto, destruct, cases2, casesN, natCases,
   builtinCases, unreachable, apply, invokeGlobal, invokeBuiltin, invokeNative, closure, ret]

/-- The code of an operation. -/
def toByte : Mnemonic → UInt8
  | push => 0x01
  | drop => 0x02
  | scnstr => 0x10
  | cnstr => 0x11
  | num => 0x12
  | expr => 0x13
  | proj => 0x14
  | goto => 0x20
  | destruct => 0x21
  | cases2 => 0x22
  | casesN => 0x23
  | natCases => 0x24
  | builtinCases => 0x25
  | unreachable => 0x26
  | apply => 0x30
  | invokeGlobal => 0x31
  | invokeBuiltin => 0x32
  | invokeNative => 0x33
  | closure => 0x34
  | ret => 0x35

/-- The operation a code is assigned to. -/
def ofByte? (b : UInt8) : Option Mnemonic :=
  all.find? fun m => m.toByte == b

/-- The name of an operation in listings. -/
def name : Mnemonic → String
  | push => "PUSH"
  | drop => "DROP"
  | scnstr => "SCONSTRUCTOR"
  | cnstr => "CONSTRUCTOR"
  | num => "NUM"
  | expr => "EXPR"
  | proj => "PROJ"
  | goto => "GOTO"
  | destruct => "DESTRUCT"
  | cases2 => "CASES2"
  | casesN => "CASESN"
  | natCases => "NAT_CASES"
  | builtinCases => "BUILTIN_CASES"
  | unreachable => "UNREACHABLE"
  | apply => "APPLY"
  | invokeGlobal => "INVOKE_GLOBAL"
  | invokeBuiltin => "INVOKE_BUILTIN"
  | invokeNative => "INVOKE_CFUN"
  | closure => "CLOSURE"
  | ret => "RET"

/-- The operation of a listing name. -/
def ofName? (s : String) : Option Mnemonic :=
  all.find? fun m => m.name == s

/-- The stack effect of an operation. -/
def effect : Mnemonic → StackEffect
  | push | scnstr | num | expr => .fixed 1
  | proj | goto | unreachable => .fixed 0
  | apply | ret => .fixed (-1)
  | drop | cnstr | destruct | cases2 | casesN | natCases | builtinCases
  | invokeGlobal | invokeBuiltin | invokeNative | closure => .operand

/-- Whether an operation carries forward targets that are patched after emission. -/
def branches : Mnemonic → Bool
  | goto | cases2 | casesN | natCases | builtinCases => true
  | _ => false

theorem ofByte?_toByte (m : Mnemonic) : ofByte? m.toByte = some m := by
  cases m <;> rfl

end Mnemonic

/-- An operation code: an assigned operation, or a byte that is assigned to none. -/
inductive Opcode where
  | named (m : Mnemonic)
  | undefined (code : UInt8) (unassigned : Mnemonic.ofByte? code = none)
  deriving DecidableEq, Repr

namespace Opcode

instance : Inhabited Opcode := ⟨.named .ret⟩

/-- The byte of an operation code. -/
def toByte : Opcode → UInt8
  | named m => m.toByte
  | undefined code _ => code

/-- The operation code of a byte. -/
def ofByte (b : UInt8) : Opcode :=
  match h : Mnemonic.ofByte? b with
  | some m => named m
  | none => undefined b h

/-- The name of an operation code in listings. -/
def name : Opcode → String
  | named m => m.name
  | undefined code _ => "UNKNOWN_" ++ Text.hexByteUpper code

/-- The stack effect of an operation code; an unassigned one has none. -/
def effect : Opcode → StackEffect
  | named m => m.effect
  | undefined .. => .fixed 0

/-- Whether an operation code carries forward targets. -/
def branches : Opcode → Bool
  | named m => m.branches
  | undefined .. => false

end Opcode

end TermVM
