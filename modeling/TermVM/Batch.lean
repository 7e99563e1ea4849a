/-
  TermVM.Batch

  The byte form of `vmgen`'s declarations and of batches of them
  (`MarshalBatch`, `UnmarshalBatch`).  A batch carries a version; its list of
  declarations may be null, which is a list that was never made.  A file holds
  one batch.
-/
import TermVM.FileTree
import TermVM.Term.Wire

namespace TermVM

open Cbor

namespace Declaration

/-- Why a declaration has no byte form. -/
inductive Unencodable where
  /-- It has no value. -/
  | noValue (name : String)
  /-- Its value has an absent part. -/
  | absentPart
  deriving DecidableEq, Repr

/-- The text of the complaint. -/
def Unencodable.message : Unencodable → String
  | noValue name => "ir: declaration " ++ Text.quoted name ++ " has no value"
  | absentPart => Term.absentPart

/-- The item of a declaration. -/
def toItem (d : Declaration) : Except Unencodable Item :=
  match d.value with
  | .absent => .error (.noValue d.name)
  | t =>
    match Node.ofTerm? t with
    | none => .error .absentPart
    | some n => .ok (.map [entry 1 (.text d.name), entry 2 n.toItem])

/-- Why an item is no declaration. -/
inductive WireError where
  | refused
  | malformed (name : String) (defect : Node.Malformed)
  deriving DecidableEq, Repr

/-- The text of a defect; what is refused has no text of its own. -/
def WireError.message? : WireError → Option String
  | refused => none
  | malformed name defect =>
      some ("declaration " ++ Text.quoted name ++ ": " ++ defect.message)

/-- Takes a field into a name and a node. -/
def assign (n : Nat) (v : Item) (s : String × Node) : Option (Except WireError (String × Node)) :=
  match n with
  | 1 => some ((orRefuse .refused v.toText?).map fun x => (x, s.2))
  | 2 => some ((orRefuse .refused (Node.ofItem? v)).map fun x => (s.1, x))
  | _ => none

/-- The declaration of an item: all of the item is read before its node is turned into a term. -/
def ofItem (x : Item) : Except WireError Declaration := do
  let (name, node) ← readRecord .refused assign ("", {}) x
  let value ← node.toTerm.mapError (.malformed name)
  return ⟨name, value⟩

/-- The items of a list of declarations, or null where no list was made. -/
def listToItem (ds : Option (List Declaration)) : Except Unencodable Item :=
  match ds with
  | none => .ok .null
  | some ds => do
      let items ← ds.mapM toItem
      return .array items

/-- The declarations of an item, in order; null is a list that was never made. -/
def listOfItem (x : Item) : Except WireError (Option (List Declaration)) := do
  let items ← orRefuse .refused x.toList?
  match items with
  | none => return none
  | some items => return some (← items.mapM ofItem)

end Declaration

namespace Batch

/-- The version that batches are written with. -/
def version : UInt8 := 1

/-- The bytes of a batch. -/
def encode (ds : Option (List Declaration)) : Except Declaration.Unencodable Bytes := do
  let items ← Declaration.listToItem ds
  return (Item.map [entry 1 (.uint version.toUInt64), entry 2 items]).encode

/-- Why bytes are no batch. -/
inductive WireError where
  | declaration (error : Declaration.WireError)
  | version (found : UInt8)
  deriving DecidableEq, Repr

/-- The text of a defect; what is refused has no text of its own. -/
def WireError.message? : WireError → Option String
  | declaration e => e.message?.map ("ir: unmarshal batch: " ++ ·)
  | version found => some ("ir: unsupported batch version " ++ Text.decimal found.toNat)

/-- A batch as read, before its version is looked at. -/
structure Raw where
  version : UInt8 := 0
  decls : Option (List Declaration) := none
  deriving Repr, Inhabited

/-- Takes a field into a batch. -/
def assign (n : Nat) (v : Item) (s : Raw) : Option (Except Declaration.WireError Raw) :=
  match n with
  | 1 => some ((orRefuse .refused v.toByte?).map fun x => { s with version := x })
  | 2 => some ((Declaration.listOfItem v).map fun x => { s with decls := x })
  | _ => none

/-- The batch of a byte sequence; its version is tested last. -/
def decode (bs : Bytes) : Except WireError (Option (List Declaration)) := do
  let x ← orRefuse (.declaration .refused) (Cbor.decode? bs)
  let raw ← (readRecord .refused assign {} x).mapError .declaration
  if raw.version ≠ version then throw (.version raw.version)
  return raw.decls

/-! ## Batches in files -/

/-- Why a file gives no batch. -/
inductive FileError where
  | unreadable (failure : FileTree.Failure)
  | undecodable (path : String) (error : WireError)
  deriving DecidableEq, Repr

/-- The text of an error, where it is fixed. -/
def FileError.message? : FileError → Option String
  | unreadable failure => some failure.message
  | undecodable path error => error.message?.map fun m => path ++ ": " ++ m

/-- The batch in a file. -/
def readFile (t : FileTree) (path : String) : Except FileError (List Declaration) := do
  let bs ← (t.read path).mapError .unreadable
  let batch ← (decode bs).mapError (.undecodable path)
  return batch.getD []

end Batch

end TermVM
