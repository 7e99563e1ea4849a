/-
  TermVM.Marker

  The erasure markers of `vmgen`'s terms (`Marker`).  Erasure lowers recursors
  and irrelevant values to constants that carry a marker: constructor,
  projection and case-analysis heads with an index, the neutral placeholder, and
  the branch proved dead.

  A marker's kind is a byte.  Six values have a meaning; the others can arrive
  from a producer and are kept as they are.
-/
import TermVM.Text.Decimal

namespace TermVM

/-- What a marker says about the constant that bears it. -/
inductive MarkerKind where
  | plain
  | cnstr
  | proj
  | cases
  | neutral
  | unreachable
  | other (code : UInt8) (reserved : 5 < code)
  deriving DecidableEq, Repr

namespace MarkerKind

/-- The byte of a marker kind. -/
def toByte : MarkerKind → UInt8
  | plain => 0
  | cnstr => 1
  | proj => 2
  | cases => 3
  | neutral => 4
  | unreachable => 5
  | other code _ => code

/-- The marker kind of a byte. -/
def ofByte (b : UInt8) : MarkerKind :=
  if h : 5 < b then other b h
  else match b.toNat with
    | 1 => cnstr
    | 2 => proj
    | 3 => cases
    | 4 => neutral
    | 5 => unreachable
    | _ => plain

instance : Inhabited MarkerKind := ⟨plain⟩

end MarkerKind

/-- A marker: its kind, and the constructor index, field index or number of
    alternatives that the kind calls for. -/
structure Marker where
  kind : MarkerKind
  index : UInt32
  deriving DecidableEq, Repr, Inhabited

namespace Marker

/-- The marker of an ordinary constant. -/
def none : Marker := ⟨.plain, 0⟩

/-- The printed form of a marker; an ordinary constant has no printed marker. -/
def text (m : Marker) : String :=
  match m.kind with
  | .plain => ""
  | .cnstr => "_cnstr." ++ Text.decimal m.index.toNat
  | .proj => "_proj." ++ Text.decimal m.index.toNat
  | .cases => "_cases." ++ Text.decimal m.index.toNat
  | .neutral => "_neutral"
  | .unreachable => "_unreachable"
  | .other code _ => "_marker(" ++ Text.decimal code.toNat ++ ")"

end Marker

end TermVM
