/-
  TermVM.Buffer

  The instruction buffer of `vmgen`'s code generator: append-only, with checked
  backpatching.

  A branching instruction is emitted before its targets are known: each of its
  target slots becomes a pending placeholder.  A placeholder is patched once,
  with a target that lies after its instruction and not beyond the end of the
  code, and the code may be handed out only when no placeholder is left.  The
  field counts of an instruction may be set once.

  Code is handed out as it stands in the buffer and goes on sharing it: what the
  buffer still does to an instruction shows in the code that was handed out.

  Positions are integers, so that a caller may ask for any of them; a refused
  call leaves the buffer as it was.
-/
import TermVM.Instr

namespace TermVM

/-! ## Crashes -/

/-- How a piece of work was abandoned. -/
inductive Crash where
  /-- A violated invariant, in a declaration if it is known. -/
  | invariant (decl violation : String)
  /-- Any other broken promise, in its own words. -/
  | text (message : String)
  | fault (fault : Fault)
  deriving DecidableEq, Repr

/-- The text of a violated invariant, with the declaration it was found in if that has a name. -/
def Crash.invariantText (decl violation : String) : String :=
  if decl = "" then "compiler invariant violated: " ++ violation
  else "compiler invariant violated in " ++ decl ++ ": " ++ violation

/-- The text of a crash; an access to something missing has no text of its own. -/
def Crash.message? : Crash → Option String
  | invariant decl violation => some (invariantText decl violation)
  | text message => some message
  | fault _ => none

/-- The text a crash is reported with to somebody who did not ask for the work. -/
def Crash.report? : Crash → Option String
  | invariant decl violation => some (invariantText decl violation)
  | text message => some ("panic: " ++ message)
  | fault _ => none

/-! ## Buffers -/

/-- One target slot of the instruction at `pc`. -/
structure Slot where
  pc : Int
  index : Int
  deriving DecidableEq, Repr

/-- Code under construction. -/
structure Buffer where
  code : Array Instr
  /-- Placeholders still to be patched. -/
  pending : List Slot
  /-- Placeholders already patched. -/
  patched : List Slot
  /-- Instructions whose field counts have been set. -/
  fielded : List Int
  finalized : Bool
  deriving DecidableEq, Repr

namespace Buffer

/-- A call that the buffer refuses. -/
inductive Misuse where
  | emitAfterFinalize
  | patchedTwice (slot : Slot)
  | noPlaceholder (slot : Slot)
  | badTarget (pc target : Int)
  | fieldsTwice (pc : Int)
  | outside (pc : Int)
  | fieldCount (pc : Int) (alternatives given : Nat)
  | unpatched (count : Nat)
  deriving DecidableEq, Repr

/-- The text of a refusal. -/
def Misuse.message : Misuse → String
  | emitAfterFinalize => "vm: emit after finalize"
  | patchedTwice s =>
      "vm: target " ++ Text.decimal s.index ++ " of pc " ++ Text.decimal s.pc ++ " patched twice"
  | noPlaceholder s =>
      "vm: pc " ++ Text.decimal s.pc ++ " has no placeholder target " ++ Text.decimal s.index
  | badTarget pc target =>
      "vm: pc " ++ Text.decimal pc ++ " cannot target " ++ Text.decimal target
  | fieldsTwice pc => "vm: fields of pc " ++ Text.decimal pc ++ " set twice"
  | outside pc => "vm: no instruction at pc " ++ Text.decimal pc
  | fieldCount pc alternatives given =>
      "vm: pc " ++ Text.decimal pc ++ " has " ++ Text.decimal alternatives
        ++ " alternatives, got " ++ Text.decimal given ++ " field counts"
  | unpatched count => "vm: finalize with " ++ Text.decimal count ++ " unpatched targets"

/-- The crash of a caller that misuses the buffer. -/
def Misuse.toCrash : Misuse → Crash
  | outside _ => .fault .missingElement
  | misuse => .text misuse.message

/-- A buffer without instructions. -/
def empty : Buffer :=
  { code := #[], pending := [], patched := [], fielded := [], finalized := false }

/-- The position of the next instruction. -/
def next (b : Buffer) : Nat :=
  b.code.size

/-- The instruction at a position. -/
def at? (b : Buffer) (pc : Int) : Option Instr :=
  if 0 ≤ pc then b.code[pc.toNat]? else none

/-- The placeholders that an instruction brings along when it is emitted at `pc`. -/
def placeholders (pc : Nat) (i : Instr) : List Slot :=
  if i.op.branches then (List.range i.targets.length).map fun (k : Nat) => ⟨pc, k⟩ else []

/-- Appends an instruction. -/
def emit (b : Buffer) (i : Instr) : Except Misuse Buffer :=
  if b.finalized then .error .emitAfterFinalize
  else .ok { b with
    code := b.code.push i
    pending := b.pending ++ placeholders b.next i }

/-- Sets a placeholder to a target. -/
def patch (b : Buffer) (pc index target : Int) : Except Misuse Buffer :=
  let slot : Slot := ⟨pc, index⟩
  if slot ∈ b.patched then .error (.patchedTwice slot)
  else if slot ∉ b.pending then .error (.noPlaceholder slot)
  else if target ≤ pc ∨ (b.next : Int) < target then .error (.badTarget pc target)
  else .ok { b with
    code := b.code.modify pc.toNat fun i =>
      { i with targets := i.targets.set index.toNat (UInt32.ofNat target.toNat) }
    pending := b.pending.erase slot
    patched := slot :: b.patched }

/-- Sets the field counts of the instruction at a position. -/
def setFields (b : Buffer) (pc : Int) (fields : List UInt32) : Except Misuse Buffer :=
  if pc ∈ b.fielded then .error (.fieldsTwice pc)
  else match b.at? pc with
    | none => .error (.outside pc)
    | some i =>
      if fields.length ≠ i.fields.length then
        .error (.fieldCount pc i.fields.length fields.length)
      else .ok { b with
        code := b.code.modify pc.toNat fun i => { i with fields := fields }
        fielded := pc :: b.fielded }

/-- Closes the buffer for emission; its code is then complete. -/
def finalize (b : Buffer) : Except Misuse Buffer :=
  if b.pending.isEmpty then .ok { b with finalized := true }
  else .error (.unpatched b.pending.length)

/-- Code that was handed out: the part of the buffer's own code that it reaches over. -/
structure Handout where
  length : Nat
  deriving DecidableEq, Repr

/-- What code that was handed out consists of once its buffer has become `b`. -/
def Handout.code (h : Handout) (b : Buffer) : Code :=
  b.code.toList.take h.length

/-- Closes the buffer and hands out all of its code. -/
def handOut (b : Buffer) : Except Misuse (Buffer × Handout) :=
  b.finalize.map fun b' => (b', ⟨b'.next⟩)

end Buffer

end TermVM
