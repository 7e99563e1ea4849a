/-
  TermVM.Verify

  `vmgen`'s verifier of the stack discipline of code (`Verify`, `Analyze`).

  A procedure is executed symbolically: only the stack depth is tracked, along
  every control path, starting from its arguments.  No instruction may find too
  few values, paths must agree on the depth where they meet, and a return must
  find exactly one value above the arguments.

  `edges` says what one instruction requires and where control goes from it;
  `drain` follows the edges, the last found first, until none is left.
-/
import TermVM.DeclTable

namespace TermVM.Verify

/-- The classes of findings. -/
inductive Cause where
  | stackUnderflow
  | depthMismatch
  | badReturn
  | badTarget
  | fallOff
  | badOperand
  deriving DecidableEq, Repr

/-- The text of a class. -/
def Cause.text : Cause → String
  | stackUnderflow => "stack underflow"
  | depthMismatch => "stack depth differs between paths"
  | badReturn => "return with unbalanced stack"
  | badTarget => "branch target out of range"
  | fallOff => "control falls off the end of the code"
  | badOperand => "bad operand"

/-- What is wrong with an instruction, or with control on its way to it. -/
inductive Problem where
  | badSlot (slot : UInt32) (depth : Int)
  | dropUnderflow (count : UInt32) (depth : Int)
  | fieldsUnderflow (count : UInt32) (depth : Int)
  | emptyStack
  | applyUnderflow (depth : Int)
  | badTarget (target : UInt32)
  | fieldCounts (targets fields : Nat)
  | unknownDecl (index : UInt32)
  | wrongKind (name : String) (kind wanted : DeclKind)
  | missingArguments (name : String) (arity : UInt32) (depth : Int)
  | notPartial (name : String) (count arity : UInt32)
  | closureUnderflow (count : UInt32) (depth : Int)
  | badReturn (depth : Int) (arity : UInt32)
  | unknownOpcode (op : Opcode)
  | fallOff (depth : Int)
  | depthMismatch (seen depth : Int)
  deriving DecidableEq, Repr

namespace Problem

/-- The class a problem belongs to. -/
def cause : Problem → Cause
  | badSlot .. | fieldCounts .. | unknownDecl .. | wrongKind .. | notPartial ..
  | unknownOpcode .. => .badOperand
  | dropUnderflow .. | fieldsUnderflow .. | emptyStack | applyUnderflow ..
  | missingArguments .. | closureUnderflow .. => .stackUnderflow
  | badTarget .. => .badTarget
  | badReturn .. => .badReturn
  | fallOff .. => .fallOff
  | depthMismatch .. => .depthMismatch

/-- The particulars of a problem.  The depth a return wants is given as a 32-bit word. -/
def detail : Problem → String
  | badSlot slot depth =>
      "slot " ++ Text.decimal slot.toNat ++ " with depth " ++ Text.decimal depth
  | dropUnderflow count depth =>
      "drop " ++ Text.decimal count.toNat ++ " with depth " ++ Text.decimal depth
  | fieldsUnderflow count depth =>
      Text.decimal count.toNat ++ " fields with depth " ++ Text.decimal depth
  | emptyStack => "empty stack"
  | applyUnderflow depth => "apply with depth " ++ Text.decimal depth
  | badTarget target => Text.decimal target.toNat
  | fieldCounts targets fields =>
      Text.decimal targets ++ " targets, " ++ Text.decimal fields ++ " field counts"
  | unknownDecl index => "unknown declaration " ++ Text.decimal index.toNat
  | wrongKind name kind wanted => name ++ " is " ++ kind.name ++ ", not " ++ wanted.name
  | missingArguments name arity depth =>
      name ++ " needs " ++ Text.decimal arity.toNat ++ " arguments, depth " ++ Text.decimal depth
  | notPartial name count arity =>
      "closure of " ++ name ++ " over " ++ Text.decimal count.toNat ++ " of "
        ++ Text.decimal arity.toNat ++ " arguments"
  | closureUnderflow count depth =>
      "closure over " ++ Text.decimal count.toNat ++ " with depth " ++ Text.decimal depth
  | badReturn depth arity =>
      "depth " ++ Text.decimal depth ++ ", want " ++ Text.decimal (arity + 1).toNat
  | unknownOpcode op => "unknown opcode " ++ op.name
  | fallOff depth => "depth " ++ Text.decimal depth
  | depthMismatch seen depth => Text.decimal seen ++ " vs " ++ Text.decimal depth

end Problem

/-- A problem with the procedure and position it was found at. -/
structure Finding where
  proc : String
  pc : Nat
  problem : Problem
  deriving DecidableEq, Repr

/-- The text of a finding. -/
def Finding.message (f : Finding) : String :=
  "vm: verify " ++ f.proc ++ " at " ++ Text.decimal4 f.pc ++ ": " ++ f.problem.cause.text
    ++ ": " ++ f.problem.detail

/-- Why a verification gave no analysis. -/
inductive Failure where
  | rejected (finding : Finding)
  | fault (fault : Fault)
  /-- The bound on the number of steps was too small. -/
  | unfinished
  deriving DecidableEq, Repr

/-- Control arriving at a position with a stack depth. -/
structure Edge where
  pc : Nat
  depth : Int
  deriving DecidableEq, Repr

/-- What stops the symbolic execution of one instruction. -/
inductive Stop where
  | problem (problem : Problem)
  | fault (fault : Fault)
  deriving DecidableEq, Repr

/-- The kind of declaration that a call operation calls. -/
def callee : Mnemonic → DeclKind
  | .invokeBuiltin => .builtin
  | .invokeNative => .native
  | _ => .compiled

/-- The edges of a dispatch, one per target; every target lies ahead and inside the code. -/
def dispatchEdges (size pc : Nat) (depth : Int) :
    List UInt32 → List UInt32 → Except Problem (List Edge)
  | t :: ts, f :: fs => do
      if t.toNat ≤ pc ∨ size ≤ t.toNat then throw (.badTarget t)
      let rest ← dispatchEdges size pc depth ts fs
      return ⟨t.toNat, depth - 1 + f.toNat⟩ :: rest
  | _, _ => return []

/-- What an instruction requires of the stack depth it is entered with, and the edges that
    leave it. -/
def edges (table : DeclTable) (arity : UInt32) (size pc : Nat) (depth : Int) (i : Instr) :
    Except Stop (List Edge) :=
  let next (d : Int) : Except Stop (List Edge) := .ok [⟨pc + 1, d⟩]
  let problem (p : Problem) : Except Stop (List Edge) := .error (.problem p)
  match i.op with
  | .named .push =>
      if depth ≤ i.a.toNat then problem (.badSlot i.a depth) else next (depth + 1)
  | .named .drop =>
      if depth < i.a.toNat + 1 then problem (.dropUnderflow i.a depth) else next (depth - i.a.toNat)
  | .named .scnstr | .named .num | .named .expr => next (depth + 1)
  | .named .cnstr =>
      if depth < i.b.toNat then problem (.fieldsUnderflow i.b depth)
      else next (depth - i.b.toNat + 1)
  | .named .proj => if depth < 1 then problem .emptyStack else next depth
  | .named .apply => if depth < 2 then problem (.applyUnderflow depth) else next (depth - 1)
  | .named .goto =>
      match i.targets with
      | [] => .error (.fault .missingElement)
      | t :: _ => if size ≤ t.toNat then problem (.badTarget t) else .ok [⟨t.toNat, depth⟩]
  | .named .destruct =>
      if depth < 1 then problem .emptyStack
      else match i.fields with
        | [] => .error (.fault .missingElement)
        | f :: _ => next (depth - 1 + f.toNat)
  | .named .cases2 | .named .casesN | .named .natCases | .named .builtinCases =>
      if depth < 1 then problem .emptyStack
      else if i.fields.length ≠ i.targets.length then
        problem (.fieldCounts i.targets.length i.fields.length)
      else (dispatchEdges size pc depth i.targets i.fields).mapError .problem
  | .named .invokeGlobal => invoke .invokeGlobal next problem
  | .named .invokeBuiltin => invoke .invokeBuiltin next problem
  | .named .invokeNative => invoke .invokeNative next problem
  | .named .closure =>
      match table.at? i.a with
      | none => problem (.unknownDecl i.a)
      | some d =>
        if d.arity ≤ i.b then problem (.notPartial d.name i.b d.arity)
        else if depth < i.b.toNat then problem (.closureUnderflow i.b depth)
        else next (depth - i.b.toNat + 1)
  | .named .unreachable => .ok []
  | .named .ret =>
      if depth ≠ arity.toNat + 1 then problem (.badReturn depth arity) else .ok []
  | .undefined .. => problem (.unknownOpcode i.op)
where
  /-- A call: the declaration exists, is of the kind the operation calls, and finds its
      arguments. -/
  invoke (m : Mnemonic) (next : Int → Except Stop (List Edge))
      (problem : Problem → Except Stop (List Edge)) : Except Stop (List Edge) :=
    match table.at? i.a with
    | none => problem (.unknownDecl i.a)
    | some d =>
      if d.kind ≠ callee m then problem (.wrongKind d.name d.kind (callee m))
      else if depth < d.arity.toNat then problem (.missingArguments d.name d.arity depth)
      else next (depth - d.arity.toNat + 1)

/-- The number of edges that can leave an instruction. -/
def edgeCount (i : Instr) : Nat :=
  match i.op with
  | .named .cases2 | .named .casesN | .named .natCases | .named .builtinCases => i.targets.length
  | .named .unreachable | .named .ret | .undefined .. => 0
  | _ => 1

/-- The depths found so far, by position. -/
abbrev Marks := Array (Option Int)

/-- Follows edges until none is left, the last found first; `steps` bounds the number of edges
    taken. -/
def drain (table : DeclTable) (p : Procedure) (code : Array Instr) :
    (steps : Nat) → Marks → List Edge → Except Failure Marks
  | _, marks, [] => .ok marks
  | 0, _, _ :: _ => .error .unfinished
  | steps + 1, marks, e :: work =>
      let reject (problem : Problem) : Except Failure Marks :=
        .error (.rejected ⟨p.name, e.pc, problem⟩)
      match code[e.pc]? with
      | none => reject (.fallOff e.depth)
      | some i =>
        match marks[e.pc]?.join with
        | some seen =>
          if seen ≠ e.depth then reject (.depthMismatch seen e.depth)
          else drain table p code steps marks work
        | none =>
          match edges table p.arity code.size e.pc e.depth i with
          | .error (.problem problem) => reject problem
          | .error (.fault f) => .error (.fault f)
          | .ok es =>
            drain table p code steps (marks.setIfInBounds e.pc (some e.depth)) (es.reverse ++ work)

/-- A bound on the number of edges taken: the entry, and every edge that leaves an instruction. -/
def stepBound (code : Code) : Nat :=
  1 + code.foldr (fun i n => edgeCount i + n) 0

/-- The depth on entry to each position, or `-1` where control never arrives. -/
structure Analysis where
  depth : List Int
  deriving DecidableEq, Repr

/-- Verifies a procedure and gives the depth on entry to each of its instructions. -/
def analyze (table : DeclTable) (p : Procedure) : Except Failure Analysis := do
  let marks ← drain table p p.code.toArray (stepBound p.code)
    (Array.replicate p.code.length none) [⟨0, p.arity.toNat⟩]
  return ⟨marks.toList.map (·.getD (-1))⟩

end TermVM.Verify
