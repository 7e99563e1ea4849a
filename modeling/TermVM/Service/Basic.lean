/-
  TermVM.Service.Basic

  `vmgen`'s compile service (`CompileService`): a table that clients add batches
  to, look names up in, and read listings from.
-/
import TermVM.Build
import TermVM.Worker

namespace TermVM

/-- The service: its worker, and how it compiles. -/
structure Service where
  worker : Worker
  settings : Build.Settings
  store : Option Store
  /-- The verbosity of the log. -/
  verbosity : Int

namespace Service

/-- What kind of failure a client is told about. -/
inductive Code where
  | invalidArgument
  | failedPrecondition
  | internal
  | notFound
  | unavailable
  | canceled
  | deadlineExceeded
  deriving DecidableEq, Repr

/-- The name of a code. -/
def Code.name : Code → String
  | invalidArgument => "invalid_argument"
  | failedPrecondition => "failed_precondition"
  | internal => "internal"
  | notFound => "not_found"
  | unavailable => "unavailable"
  | canceled => "canceled"
  | deadlineExceeded => "deadline_exceeded"

/-- A failure as a client is told, with its text where that is fixed. -/
structure Error where
  code : Code
  message? : Option String
  deriving DecidableEq, Repr

/-- Why a call has no answer. -/
inductive Failure where
  | error (error : Error)
  | crash (crash : Crash)
  deriving DecidableEq, Repr

/-- A failure with a fixed text. -/
def Failure.of (code : Code) (message : String) : Failure :=
  .error ⟨code, some message⟩

/-- The end of a call: the service after it, what it left in the log, and the answer. -/
structure Exchange (α : Type) where
  service : Service
  entries : List Log.Entry
  answer : Except Failure α

/-- The end of a call that changes nothing. -/
def answered {α : Type} (s : Service) (answer : Except Failure α) : Exchange α :=
  ⟨s, [], answer⟩

/-- The code for an interrupt. -/
def Code.ofInterrupt : Interrupt → Code
  | .cancelled => canceled
  | .expired => deadlineExceeded

/-- The code for a batch that was not compiled. -/
def Code.ofBuild : Build.Failure → Code
  | .unknownConstant _ => failedPrecondition
  | .unsupportedExtension _ => invalidArgument
  | .duplicate _ => invalidArgument
  | .refused (.duplicate _) => invalidArgument
  | .refused (.occupied ..) => invalidArgument
  | .interrupted why => ofInterrupt why
  | .store _ (.interrupted _ why) => ofInterrupt why
  | _ => internal

/-- The text that a failed batch is reported with. -/
def reportOf? : Build.Failure → Option String
  | .crash c => c.report?
  | e => e.message?

/-- The failure of an update, as a client is told. -/
def Error.ofUpdate : Worker.Failure Build.Failure → Error
  | .refused (.interrupted why) => ⟨.ofInterrupt why, some why.message⟩
  | .refused .stopped => ⟨.unavailable, some Worker.Refusal.stopped.message⟩
  | .failed e => ⟨.ofBuild e, reportOf? e⟩

/-- The answer to a compiled batch. -/
structure Compiled where
  procedures : List Procedure
  hits : Nat
  /-- The number of declarations after the batch. -/
  tableSize : Nat
  deriving DecidableEq, Repr

/-- An entry of the service's own log, if it is shown. -/
def note (s : Service) (level : Log.Level) (message : String) (values : List (String × String)) :
    List Log.Entry :=
  Log.shown s.verbosity [⟨level, "vmgen.server", message, values⟩]

/-- The log entry for a batch that was not compiled. -/
def noteFailure (s : Service) (decls : Nat) (e : Error) : List Log.Entry :=
  s.note .info "compile failed" <| ("decls", Text.decimal decls) ::
    (match e.message? with
      | some m => [("error", m)]
      | none => [])

/-- Compiles a batch against the published table and publishes the result. -/
def compile (s : Service) (interrupt : Option Interrupt) (batch : List Declaration) :
    Exchange Compiled :=
  if batch.isEmpty then s.answered (.error (.of .invalidArgument "batch is empty"))
  else
    match s.worker.accept interrupt with
    | .error r =>
        let e := Error.ofUpdate (.refused r)
        ⟨s, s.noteFailure batch.length e, .error (.error e)⟩
    | .ok () =>
        let r := Build.run s.settings none s.store s.worker.table batch
        let (worker, outcome) := s.worker.publish (r.outcome.map fun o => (some o.table, o))
        let s := { s with worker := worker, store := r.store }
        match outcome with
        | .error e =>
            let e := Error.ofUpdate (.failed e)
            ⟨s, r.entries ++ s.noteFailure batch.length e, .error (.error e)⟩
        | .ok o =>
            ⟨s, r.entries ++ s.note .info "compiled batch"
                [("decls", Text.decimal batch.length), ("cacheHits", Text.decimal o.hits)],
              .ok ⟨o.procedures, o.hits, o.table.size⟩⟩

/-- The answer to a name that was looked up. -/
structure Record where
  found : Bool
  name : String
  kind : String
  arity : UInt32
  index : UInt32
  deriving DecidableEq, Repr

/-- The record of a declaration, or of a name that has none. -/
def Record.of : Option Decl → Record
  | none => ⟨false, "", "", 0, 0⟩
  | some d => ⟨true, d.name, d.kind.name, d.arity, d.index⟩

/-- Looks a name up. -/
def lookup (s : Service) (name : String) : Exchange Record :=
  s.answered <|
    if name = "" then .error (.of .invalidArgument "name is required")
    else .ok (.of (s.worker.table.lookup? name))

/-- The answer to a request for a listing. -/
structure Listed where
  name : String
  arity : UInt32
  listing : String
  deriving DecidableEq, Repr

/-- The listing of a compiled procedure. -/
def disassemble (s : Service) (name : String) : Exchange Listed :=
  s.answered <|
    if name = "" then .error (.of .invalidArgument "name is required")
    else match s.worker.table.procedure? name with
      | none => .error (.of .notFound ("procedure " ++ Text.quoted name ++ " not found"))
      | some p =>
          match Listing.text (some s.worker.table) p.code with
          | .ok listing => .ok ⟨p.name, p.arity, listing⟩
          | .error f => .error (.crash (.fault f))

/-- Stops taking batches; names and listings stay available. -/
def stop (s : Service) : Service :=
  { s with worker := s.worker.stop }

end Service

end TermVM
