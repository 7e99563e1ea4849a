/-
  TermVM.Store

  `vmgen`'s stores of compiled procedures, by key (`Store`).  A store in memory
  keeps procedures as they are.  A durable store keeps their arity and the wire
  form of their code in a database; the name of a procedure is not kept there.
-/
import TermVM.Code.Wire

namespace TermVM

/-- A reason to stop before the work is done. -/
inductive Interrupt where
  | cancelled
  | expired
  deriving DecidableEq, Repr

/-- The text of an interrupt. -/
def Interrupt.message : Interrupt → String
  | cancelled => "context canceled"
  | expired => "context deadline exceeded"

/-! ## Entries by key -/

/-- Values by key, in the order their keys were first stored. -/
abbrev Entries (α : Type) := List (String × α)

namespace Entries

/-- The value of a key. -/
def get? {α : Type} (es : Entries α) (key : String) : Option α :=
  (es.find? fun e => e.1 == key).map (·.2)

/-- Stores a value under a key, in place of the one before. -/
def put {α : Type} (key : String) (a : α) : Entries α → Entries α
  | [] => [(key, a)]
  | e :: es => if e.1 = key then (key, a) :: es else e :: put key a es

end Entries

namespace Store

/-- A stored row: an arity as written, and code in its wire form. -/
structure Row where
  arity : Int
  code : Bytes
  deriving DecidableEq, Repr

/-- A database file. -/
structure Database where
  path : String
  rows : Entries Row
  isOpen : Bool
  deriving DecidableEq, Repr

end Store

/-- A store of procedures. -/
inductive Store where
  | memory (procedures : Entries Procedure)
  | durable (db : Store.Database)
  deriving DecidableEq, Repr

namespace Store

/-- What was being done to a database. -/
inductive Access where
  | saving
  | querying
  | counting
  deriving DecidableEq, Repr

/-- The words for an access. -/
def Access.text : Access → String
  | saving => "saving procedure"
  | querying => "querying procedure"
  | counting => "counting procedures"

/-- What can go wrong with a store. -/
inductive Failure where
  | closed (during : Access)
  | interrupted (during : Access) (why : Interrupt)
  /-- A stored arity that is no 32-bit number. -/
  | badArity
  | undecodable (key : String) (error : Code.WireError)
  /-- Code that quotes a term with an absent part has no wire form. -/
  | absentPart
  deriving DecidableEq, Repr

/-- The text of a failure, where it is fixed. -/
def Failure.message? : Failure → Option String
  | closed during => some (during.text ++ ": sql: database is closed")
  | interrupted during why => some (during.text ++ ": " ++ why.message)
  | badArity => none
  | undecodable key error =>
      match error with
      | .refused => none
      | .malformed defect => some ("decoding procedure " ++ key ++ ": " ++ defect.message)
  | absentPart => some Term.absentPart

/-- An empty store in memory. -/
def inMemory : Store := .memory []

/-- The store for a path: in memory for an empty one, otherwise a new database. -/
def atPath (path : String) : Store :=
  if path = "" then inMemory else .durable ⟨path, [], true⟩

/-- Where a store is kept; one in memory is kept nowhere. -/
def path : Store → String
  | memory _ => ""
  | durable db => db.path

/-- Whether a database can be used. -/
def Database.check (db : Database) (during : Access) (interrupt : Option Interrupt) :
    Except Failure Unit :=
  if db.isOpen then
    match interrupt with
    | some why => .error (.interrupted during why)
    | none => .ok ()
  else .error (.closed during)

/-- The procedure of a row. -/
def Row.toProcedure (key : String) (r : Row) : Except Failure Procedure :=
  if 0 ≤ r.arity ∧ r.arity < UInt32.size then
    match Code.decode r.code with
    | .ok code => .ok ⟨"", UInt32.ofNat r.arity.toNat, code⟩
    | .error e => .error (.undecodable key e)
  else .error .badArity

/-- The procedure stored under a key. -/
def get? (interrupt : Option Interrupt) (key : String) :
    Store → Except Failure (Option Procedure)
  | memory procedures => .ok (procedures.get? key)
  | durable db => do
      db.check .querying interrupt
      match db.rows.get? key with
      | none => return none
      | some r => return some (← r.toProcedure key)

/-- Writes a row as it is. -/
def Database.write (db : Database) (key : String) (r : Row) : Database :=
  { db with rows := db.rows.put key r }

/-- Stores a procedure under a key. -/
def put (interrupt : Option Interrupt) (key : String) (p : Procedure) :
    Store → Except Failure Store
  | memory procedures => .ok (.memory (procedures.put key p))
  | durable db =>
      match Code.encode? p.code with
      | none => .error .absentPart
      | some code => do
          db.check .saving interrupt
          return .durable (db.write key ⟨p.arity.toNat, code⟩)

/-- The number of stored procedures. -/
def size : Store → Except Failure Nat
  | memory procedures => .ok procedures.length
  | durable db => do
      db.check .counting none
      return db.rows.length

/-- Closes a store.  One in memory stays usable. -/
def close : Store → Store
  | memory procedures => .memory procedures
  | durable db => .durable { db with isOpen := false }

/-- Opens a store again: one in memory starts empty, a database has what was written to it. -/
def reopen : Store → Store
  | memory _ => inMemory
  | durable db => .durable { db with isOpen := true }

end Store

end TermVM
