/-
  TermVM.Cbor.Field

  The records of `vmgen`'s wire forms as maps.  A record's fields are numbered;
  a key selects a field by its number or by the decimal spelling of its number,
  the first occurrence of a field counts, and keys that select none are skipped
  with their values.

  Null stands for the zero value of any type.  Tags are transparent, except that
  the tags for times and big numbers must hold what they announce.
-/
import TermVM.Cbor.Item
import TermVM.Cbor.Decode
import TermVM.Text.Decimal

namespace TermVM.Cbor

namespace Item

/-- An item without the tags around it; a tag for a big number stays.  There is none if a tag
    does not hold what it announces. -/
def untag : Item → Option Item
  | tag number content =>
      if number = 2 ∨ number = 3 then
        match content with
        | bytes b => some (tag number (bytes b))
        | _ => none
      else if number = 0 then
        match content with
        | text s => some (text s)
        | badText chunk h => some (badText chunk h)
        | _ => none
      else if number = 1 then
        match content with
        | uint n => some (uint n)
        | nint n => some (nint n)
        | half b => some (half b)
        | single b => some (single b)
        | double b => some (double b)
        | _ => none
      else content.untag
  | x => some x

/-- An unsigned integer below `bound`: an integer, a big number, or a simple value that is
    neither a truth value nor null. -/
def toUInt? (bound : Nat) (x : Item) : Option Nat :=
  match x.untag with
  | some (uint n) => if n.toNat < bound then some n.toNat else none
  | some (tag number (bytes b)) =>
      if number = 2 ∧ ofBigEndian b < bound then some (ofBigEndian b) else none
  | some (simple n) =>
      if n = 20 ∨ n = 21 then none
      else if n = 22 ∨ n = 23 then some 0
      else if n.toNat < bound then some n.toNat
      else none
  | _ => none

/-- A byte. -/
def toByte? (x : Item) : Option UInt8 :=
  (x.toUInt? UInt8.size).map UInt8.ofNat

/-- A 32-bit word. -/
def toWord? (x : Item) : Option UInt32 :=
  (x.toUInt? UInt32.size).map UInt32.ofNat

/-- A 64-bit word. -/
def toLong? (x : Item) : Option UInt64 :=
  (x.toUInt? UInt64.size).map UInt64.ofNat

/-- A text. -/
def toText? (x : Item) : Option String :=
  match x.untag with
  | some (text s) => some s
  | some x => if x.isNull then some "" else none
  | none => none

/-- A truth value. -/
def toBool? (x : Item) : Option Bool :=
  match x.untag with
  | some (simple n) =>
      if n = 20 ∨ n = 22 ∨ n = 23 then some false else if n = 21 then some true else none
  | _ => none

/-- The elements of a list; null is the list that was never made. -/
def toList? (x : Item) : Option (Option (List Item)) :=
  match x.untag with
  | some (array items) => some (some items)
  | some x => if x.isNull then some none else none
  | none => none

/-- A list of which each element is read by `elem`; null is the empty list. -/
def toListOf? {α : Type} (elem : Item → Option α) (x : Item) : Option (List α) := do
  let items ← x.toList?
  (items.getD []).mapM elem

/-- The entries of a record; null is the record without entries. -/
def toEntries? (x : Item) : Option (List (Item × Item)) :=
  match x.untag with
  | some (map entries) => some entries
  | some x => if x.isNull then some [] else none
  | none => none

end Item

/-- What a key of a record selects. -/
inductive Key where
  | field (number : Nat)
  | unknown
  | refused
  deriving DecidableEq, Repr

/-- The field that a key selects. -/
def Key.ofItem : Item → Key
  | .uint n => .field n.toNat
  | .nint n => if n.toNat < Nat.pow 2 63 then .unknown else .refused
  | .text s =>
      match (Text.readDigits? s.toList).filter fun (n : Nat) => Text.decimal n == s with
      | some n => .field n
      | none => .unknown
  | _ => .refused

/-- Reads the entries of a record in order.  `assign` takes the value of a field into the record,
    or says that the record has no such field. -/
def readFields {σ ε : Type} (refused : ε) (assign : Nat → Item → σ → Option (Except ε σ)) :
    List (Item × Item) → (seen : List Nat) → σ → Except ε σ
  | [], _, s => .ok s
  | (k, v) :: rest, seen, s =>
      match Key.ofItem k with
      | .refused => .error refused
      | .unknown => readFields refused assign rest seen s
      | .field n =>
        if n ∈ seen then readFields refused assign rest seen s
        else match assign n v s with
          | none => readFields refused assign rest seen s
          | some (.error e) => .error e
          | some (.ok s') => readFields refused assign rest (n :: seen) s'

/-- Reads a record that starts out as `zero`. -/
def readRecord {σ ε : Type} (refused : ε) (assign : Nat → Item → σ → Option (Except ε σ))
    (zero : σ) (x : Item) : Except ε σ :=
  match x.toEntries? with
  | none => .error refused
  | some entries => readFields refused assign entries [] zero

/-- The value of a field, or the refusal that stands for its absence. -/
def orRefuse {α ε : Type} (refused : ε) : Option α → Except ε α
  | some a => .ok a
  | none => .error refused

/-- One entry of an encoded record. -/
def entry (number : UInt64) (value : Item) : Item × Item :=
  (.uint number, value)

/-- One entry of an encoded record, left out when `present` does not hold. -/
def entryIf (present : Bool) (number : UInt64) (value : Item) : List (Item × Item) :=
  if present then [entry number value] else []

end TermVM.Cbor
