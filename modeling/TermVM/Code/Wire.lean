/-
  TermVM.Code.Wire

  The byte form of `vmgen`'s code and procedures (`MarshalCode`, `UnmarshalCode`
  and the like).  An instruction is a record of seven numbered fields, of which
  all but the operation are left out when they are zero or empty.

  As with terms, bytes are first read as records, which may be refused; the
  records are then turned into instructions one by one.  Only a literal keeps a
  number and only a quotation keeps a term.
-/
import TermVM.Instr
import TermVM.Term.Wire

namespace TermVM

open Cbor

namespace Instr

/-- The travelling form of an instruction. -/
structure Raw (ν : Type := String) [Spelling ν] where
  op : UInt8 := 0
  a : UInt32 := 0
  b : UInt32 := 0
  num : String := ""
  expr : Option (Node ν) := none
  targets : List UInt32 := []
  fields : List UInt32 := []
  deriving Repr, Inhabited

/-- A list of words as an item. -/
def wordsItem (ws : List UInt32) : Item :=
  .array (ws.map fun w => .uint w.toUInt64)

section

variable {ν : Type} [Spelling ν]

/-- The record of an instruction; there is none if its term has an absent part. -/
def toRaw? (i : Instr ν) : Option (Raw ν) := do
  let expr ← match i.expr with
    | .absent => some none
    | t => (Node.ofTerm? t).map some
  return { op := i.op.toByte, a := i.a, b := i.b,
           num := (i.num.map Text.decimal).getD "", expr := expr,
           targets := i.targets, fields := i.fields }

/-- The item of a record. -/
def Raw.toItem [DecidableEq ν] (r : Raw ν) : Item :=
  .map <|
    [entry 1 (.uint r.op.toUInt64)]
    ++ entryIf (r.a != 0) 2 (.uint r.a.toUInt64)
    ++ entryIf (r.b != 0) 3 (.uint r.b.toUInt64)
    ++ entryIf (r.num != "") 4 (.text r.num)
    ++ (match r.expr with
        | none => []
        | some n => [entry 5 n.toItem])
    ++ entryIf (!r.targets.isEmpty) 6 (wordsItem r.targets)
    ++ entryIf (!r.fields.isEmpty) 7 (wordsItem r.fields)

end

/-- The node in a field value; null is a node that is not there. -/
def optionalNode? (v : Item) : Option (Option Node) :=
  if v.isNull then some none else (Node.ofItem? v).map some

/-- Takes a field into a record. -/
def Raw.assign (n : Nat) (v : Item) (r : Raw) : Option (Except Unit Raw) :=
  let set {α : Type} (x : Option α) (f : α → Raw) : Option (Except Unit Raw) :=
    some ((orRefuse () x).map f)
  match n with
  | 1 => set v.toByte? fun x => { r with op := x }
  | 2 => set v.toWord? fun x => { r with a := x }
  | 3 => set v.toWord? fun x => { r with b := x }
  | 4 => set v.toText? fun x => { r with num := x }
  | 5 => set (optionalNode? v) fun x => { r with expr := x }
  | 6 => set (v.toListOf? Item.toWord?) fun x => { r with targets := x }
  | 7 => set (v.toListOf? Item.toWord?) fun x => { r with fields := x }
  | _ => none

/-- The record of an item. -/
def Raw.ofItem? (x : Item) : Option Raw :=
  (readRecord () Raw.assign {} x).toOption

/-- Why a record is no instruction. -/
inductive Malformed where
  | opcode (code : UInt8)
  | literal (num : String)
  | noTerm
  | term (defect : Node.Malformed)
  deriving DecidableEq, Repr

/-- The instruction of a record. -/
def Raw.toInstr (r : Raw) : Except Malformed Instr :=
  let plain : Instr :=
    { op := .ofByte r.op, a := r.a, b := r.b, targets := r.targets, fields := r.fields }
  match plain.op with
  | .undefined code _ => .error (.opcode code)
  | .named .num =>
      match Text.readInt? r.num.toList with
      | some v => .ok { plain with num := some v }
      | none => .error (.literal r.num)
  | .named .expr =>
      match r.expr with
      | none => .error .noTerm
      | some n => (n.toTerm.mapError .term).map fun t => { plain with expr := t }
  | .named _ => .ok plain

end Instr

namespace Code

/-- A defect of the instruction at a position. -/
structure Malformed where
  index : Nat
  defect : Instr.Malformed
  deriving DecidableEq, Repr

/-- The text of a defect. -/
def Malformed.message (m : Malformed) : String :=
  "vm: instruction " ++ Text.decimal m.index ++ ": " ++ match m.defect with
  | .opcode code => "unknown opcode 0x" ++ Text.hexByteUpper code
  | .literal num => "bad literal " ++ Text.quoted num
  | .noTerm => "EXPR without a term"
  | .term defect => defect.message

section

variable {ν : Type} [DecidableEq ν] [Spelling ν]

/-- The item of a piece of code; there is none if some term has an absent part. -/
def toItem? (code : Code ν) : Option Item := do
  let raws ← code.mapM Instr.toRaw?
  return .array (raws.map Instr.Raw.toItem)

/-- The bytes of a piece of code. -/
def encode? (code : Code ν) : Option Bytes := do
  let x ← toItem? code
  return x.encode

end

/-- The instructions of records from a position on. -/
def ofRawsFrom : (index : Nat) → List Instr.Raw → Except Malformed Code
  | _, [] => .ok []
  | index, r :: rs => do
      let i ← r.toInstr.mapError (⟨index, ·⟩)
      let is ← ofRawsFrom (index + 1) rs
      return i :: is

/-- The instructions of a list of records. -/
def ofRaws (rs : List Instr.Raw) : Except Malformed Code :=
  ofRawsFrom 0 rs

/-- Why bytes are no code. -/
inductive WireError where
  | refused
  | malformed (defect : Malformed)
  deriving DecidableEq, Repr

/-- The code of a byte sequence. -/
def decode (bs : Bytes) : Except WireError Code := do
  let raws ← orRefuse .refused ((Cbor.decode? bs).bind fun x => x.toListOf? Instr.Raw.ofItem?)
  (ofRaws raws).mapError .malformed

end Code

namespace Procedure

/-- The item of a procedure; there is none if some term has an absent part. -/
def toItem? (p : Procedure) : Option Item := do
  let code ← Code.toItem? p.code
  return .map [entry 1 (.text p.name), entry 2 (.uint p.arity.toUInt64), entry 3 code]

/-- The travelling form of a procedure. -/
structure Raw where
  name : String := ""
  arity : UInt32 := 0
  code : List Instr.Raw := []
  deriving Repr, Inhabited

/-- Why an item is no procedure. -/
inductive WireError where
  | refused
  | malformed (name : String) (defect : Code.Malformed)
  deriving DecidableEq, Repr

/-- The text of a defect; what is refused has no text of its own. -/
def WireError.message? : WireError → Option String
  | refused => none
  | malformed name defect =>
      some ("procedure " ++ Text.quoted name ++ ": " ++ defect.message)

/-- Takes a field into a record. -/
def Raw.assign (n : Nat) (v : Item) (r : Raw) : Option (Except WireError Raw) :=
  match n with
  | 1 => some ((orRefuse .refused v.toText?).map fun x => { r with name := x })
  | 2 => some ((orRefuse .refused v.toWord?).map fun x => { r with arity := x })
  | 3 => some ((orRefuse .refused (v.toListOf? Instr.Raw.ofItem?)).map fun x => { r with code := x })
  | _ => none

/-- The procedure of an item: all of the item is read before its code is looked at. -/
def ofItem (x : Item) : Except WireError Procedure := do
  let raw ← readRecord .refused Raw.assign {} x
  let code ← (Code.ofRaws raw.code).mapError (.malformed raw.name)
  return ⟨raw.name, raw.arity, code⟩

/-- The procedure of an item; null is a procedure that is not there. -/
def optionalOfItem (x : Item) : Except WireError (Option Procedure) :=
  if x.isNull then .ok none else (ofItem x).map some

/-- The items of a list of procedures, or null where no list was made. -/
def listToItem? (ps : Option (List (Option Procedure))) : Option Item :=
  match ps with
  | none => some .null
  | some ps => do
      let items ← ps.mapM fun p => match p with
        | none => some Item.null
        | some p => p.toItem?
      return .array items

/-- The procedures of an item in order; null is a list that was never made. -/
def listOfItem (x : Item) : Except WireError (Option (List (Option Procedure))) := do
  let items ← orRefuse .refused x.toList?
  match items with
  | none => return none
  | some items => return some (← items.mapM optionalOfItem)

/-- The bytes of a list of procedures. -/
def encodeList? (ps : Option (List (Option Procedure))) : Option Bytes := do
  let x ← listToItem? ps
  return x.encode

/-- The text of a defect in a file of procedures. -/
def fileMessage? (e : WireError) : Option String :=
  e.message?.map ("vm: unmarshal procedures: " ++ ·)

/-- The procedures of a byte sequence. -/
def decodeList (bs : Bytes) : Except WireError (Option (List (Option Procedure))) := do
  let x ← orRefuse .refused (Cbor.decode? bs)
  listOfItem x

end Procedure

end TermVM
