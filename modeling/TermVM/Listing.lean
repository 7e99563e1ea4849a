/-
  TermVM.Listing

  `vmgen`'s disassembler (`Disassemble`): one line per instruction, with its
  position, its operation and the operands that the operation reads.
  Declaration indices are resolved to names where a table is at hand.
-/
import TermVM.DeclTable

namespace TermVM.Listing

/-- The name at a declaration index, or a question mark. -/
def declName (table : Option DeclTable) (index : UInt32) : String :=
  match table.bind (·.at? index) with
  | some d => d.name
  | none => "?"

/-- The targets of a dispatch, each with the number of fields pushed on entry. -/
def targetEntries : List UInt32 → List UInt32 → Except Fault (List String)
  | [], _ => .ok []
  | _ :: _, [] => .error .missingElement
  | t :: ts, f :: fs => do
      let rest ← targetEntries ts fs
      return (Text.decimal4 t.toNat ++ "/" ++ Text.decimal f.toNat) :: rest

/-- The bracketed targets of a dispatch. -/
def targets (i : Instr) : Except Fault String := do
  let entries ← targetEntries i.targets i.fields
  return "[" ++ String.intercalate " " entries ++ "]"

/-- The first element of an operand list. -/
def first (xs : List UInt32) : Except Fault UInt32 :=
  match xs with
  | [] => .error .missingElement
  | x :: _ => .ok x

/-- The operands of an instruction as listed after its name. -/
def operands (table : Option DeclTable) (i : Instr) : Except Fault String :=
  let a := " " ++ Text.decimal i.a.toNat
  match i.op with
  | .named .apply | .named .ret | .named .unreachable | .undefined .. => .ok ""
  | .named .push | .named .drop | .named .scnstr | .named .proj => .ok a
  | .named .cnstr => .ok (a ++ " " ++ Text.decimal i.b.toNat)
  | .named .num =>
      match i.num with
      | some v => .ok (" " ++ Text.decimal v)
      | none => .ok " <nil>"
  | .named .expr =>
      match i.expr.kind? with
      | some k => .ok (" <" ++ k.name ++ ">")
      | none => .error .missingValue
  | .named .goto => do
      let t ← first i.targets
      return " " ++ Text.decimal4 t.toNat
  | .named .destruct => do
      let n ← first i.fields
      return " fields=" ++ Text.decimal n.toNat
  | .named .cases2 | .named .casesN | .named .natCases => do
      let ts ← targets i
      return " " ++ ts
  | .named .builtinCases => do
      let ts ← targets i
      return a ++ " " ++ ts
  | .named .invokeGlobal | .named .invokeBuiltin | .named .invokeNative =>
      .ok (a ++ " (" ++ declName table i.a ++ ")")
  | .named .closure =>
      .ok (a ++ " (" ++ declName table i.a ++ ") args=" ++ Text.decimal i.b.toNat)

/-- The line of an instruction at a position. -/
def line (table : Option DeclTable) (pc : Int) (i : Instr) : Except Fault String := do
  let ops ← operands table i
  return Text.decimal4 pc ++ "  " ++ i.op.name ++ ops

/-- The lines of a piece of code that starts at a position. -/
def linesFrom (table : Option DeclTable) : Int → Code → List (Except Fault String)
  | _, [] => []
  | pc, i :: is => line table pc i :: linesFrom table (pc + 1) is

/-- The lines of a whole piece of code. -/
def lines (table : Option DeclTable) (code : Code) : List (Except Fault String) :=
  linesFrom table 0 code

/-- A listing: the lines of the code, one below the other. -/
def text (table : Option DeclTable) (code : Code) : Except Fault String := do
  let ls ← (lines table code).mapM id
  return String.intercalate "\n" ls

end TermVM.Listing
