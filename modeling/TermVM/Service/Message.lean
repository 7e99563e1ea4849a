/-
  TermVM.Service.Message

  The messages of `vmgen`'s compile service as bytes.
-/
import TermVM.Batch
import TermVM.Service.Basic

namespace TermVM.Service

open Cbor

/-! ## Requests -/

/-- A request to compile a batch. -/
def compileRequest (batch : Option (List Declaration)) : Except Declaration.Unencodable Bytes := do
  let items ← Declaration.listToItem batch
  return (Item.map [entry 1 items]).encode

/-- The batch of a request. -/
def readCompileRequest (bs : Bytes) : Except Declaration.WireError (List Declaration) := do
  let x ← orRefuse .refused (Cbor.decode? bs)
  let batch ← readRecord .refused (fun n v _ => match n with
    | 1 => some (Declaration.listOfItem v)
    | _ => none) none x
  return batch.getD []

/-- A request about a name. -/
def nameRequest (name : String) : Bytes :=
  (Item.map [entry 1 (.text name)]).encode

/-- The name of a request. -/
def readNameRequest? (bs : Bytes) : Option String := do
  let x ← Cbor.decode? bs
  (readRecord () (fun n v _ => match n with
    | 1 => some (orRefuse () v.toText?)
    | _ => none) "" x).toOption

/-! ## Responses -/

/-- A number. -/
def natItem (n : Nat) : Item := .uint (UInt64.ofNat n)

/-- The response to a compiled batch; there is none if a quoted term has an absent part. -/
def compiledResponse? (c : Compiled) : Option Bytes := do
  let procedures ← Procedure.listToItem? (some (c.procedures.map some))
  return (Item.map <| [entry 1 procedures] ++ entryIf (c.hits ≠ 0) 2 (natItem c.hits)
    ++ [entry 3 (natItem c.tableSize)]).encode

/-- Takes a field of a response to a compiled batch. -/
def Compiled.assign (n : Nat) (v : Item) (c : Compiled) :
    Option (Except Procedure.WireError Compiled) :=
  match n with
  | 1 => some ((Procedure.listOfItem v).map fun ps =>
      { c with procedures := (ps.getD []).filterMap id })
  | 2 => some ((orRefuse .refused (v.toUInt? (Nat.pow 2 63))).map fun x => { c with hits := x })
  | 3 => some ((orRefuse .refused (v.toUInt? (Nat.pow 2 63))).map fun x =>
      { c with tableSize := x })
  | _ => none

/-- The content of a response to a compiled batch. -/
def readCompiledResponse (bs : Bytes) : Except Procedure.WireError Compiled := do
  let x ← orRefuse .refused (Cbor.decode? bs)
  readRecord .refused Compiled.assign ⟨[], 0, 0⟩ x

/-- A truth value. -/
def boolItem (b : Bool) : Item := .simple (if b then 21 else 20)

/-- The response to a name that was looked up. -/
def recordResponse (r : Record) : Bytes :=
  (Item.map <| [entry 1 (boolItem r.found)] ++ entryIf (r.name ≠ "") 2 (.text r.name)
    ++ entryIf (r.kind ≠ "") 3 (.text r.kind) ++ entryIf (r.arity ≠ 0) 4 (.uint r.arity.toUInt64)
    ++ entryIf (r.index ≠ 0) 5 (.uint r.index.toUInt64)).encode

/-- Takes a field of a response to a name that was looked up. -/
def Record.assign (n : Nat) (v : Item) (r : Record) : Option (Except Unit Record) :=
  match n with
  | 1 => some ((orRefuse () v.toBool?).map fun x => { r with found := x })
  | 2 => some ((orRefuse () v.toText?).map fun x => { r with name := x })
  | 3 => some ((orRefuse () v.toText?).map fun x => { r with kind := x })
  | 4 => some ((orRefuse () v.toWord?).map fun x => { r with arity := x })
  | 5 => some ((orRefuse () v.toWord?).map fun x => { r with index := x })
  | _ => none

/-- The content of a response to a name that was looked up. -/
def readRecordResponse? (bs : Bytes) : Option Record := do
  let x ← Cbor.decode? bs
  (readRecord () Record.assign (.of none) x).toOption

/-- The response to a request for a listing. -/
def listedResponse (l : Listed) : Bytes :=
  (Item.map [entry 1 (.text l.name), entry 2 (.uint l.arity.toUInt64),
    entry 3 (.text l.listing)]).encode

/-- Takes a field of a response to a request for a listing. -/
def Listed.assign (n : Nat) (v : Item) (l : Listed) : Option (Except Unit Listed) :=
  match n with
  | 1 => some ((orRefuse () v.toText?).map fun x => { l with name := x })
  | 2 => some ((orRefuse () v.toWord?).map fun x => { l with arity := x })
  | 3 => some ((orRefuse () v.toText?).map fun x => { l with listing := x })
  | _ => none

/-- The content of a response to a request for a listing. -/
def readListedResponse? (bs : Bytes) : Option Listed := do
  let x ← Cbor.decode? bs
  (readRecord () Listed.assign ⟨"", 0, ""⟩ x).toOption

end TermVM.Service
