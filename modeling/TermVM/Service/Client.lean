/-
  TermVM.Service.Client

  Calls of `vmgen`'s compile service over the wire (`Client`).  A request is
  encoded by the client and decoded by the service, and the response the other
  way round.  A response that the client cannot decode does not undo what the
  service has done.
-/
import TermVM.Batch
import TermVM.Service.Message

namespace TermVM.Service.Client

/-- The failure of a message that cannot be decoded. -/
def undecodable (message? : Option String) : Failure :=
  .error ⟨.invalidArgument, message?.map ("unmarshal message: " ++ ·)⟩

/-- Catches the crash of a handler: it is logged, and the client is told of an internal failure. -/
def guarded {α : Type} (method : String) (x : Exchange α) : Exchange α :=
  match x.answer with
  | .error (.crash c) =>
      let values := ("procedure", "/vmgen.v1.CompileService/" ++ method) ::
        (match c.message? with
          | some m => [("panic", m)]
          | none => [])
      ⟨x.service, x.entries ++ x.service.note .error "handler panicked" values,
        .error (.error ⟨.internal, c.report?⟩)⟩
  | _ => x

/-- Carries an answer back to the client. -/
def respond {α : Type} (x : Exchange α) (carry : α → Except Failure α) : Exchange α :=
  { x with answer := x.answer.bind carry }

/-- The failure of a batch that cannot be encoded. -/
def unencodable : Declaration.Unencodable → Failure
  | .noValue name =>
      .of .internal ("marshal message: " ++ (Declaration.Unencodable.noValue name).message)
  | .absentPart => .crash (.text Declaration.Unencodable.absentPart.message)

/-- Sends a batch. -/
def compile (s : Service) (batch : Option (List Declaration)) : Exchange Compiled :=
  match compileRequest batch with
  | .error e => s.answered (.error (unencodable e))
  | .ok bytes =>
      match readCompileRequest bytes with
      | .error e => s.answered (.error (undecodable e.message?))
      | .ok decls => respond (guarded "Compile" (s.compile none decls)) fun c =>
          match compiledResponse? c with
          | none => .error (.crash (.text Term.absentPart))
          | some bytes => (readCompiledResponse bytes).mapError fun e => undecodable e.message?

/-- Asks for the record of a name. -/
def lookup (s : Service) (name : String) : Exchange Record :=
  match readNameRequest? (nameRequest name) with
  | none => s.answered (.error (undecodable none))
  | some name => respond (guarded "Lookup" (s.lookup name)) fun r =>
      match readRecordResponse? (recordResponse r) with
      | some r => .ok r
      | none => .error (undecodable none)

/-- Asks for a listing. -/
def disassemble (s : Service) (name : String) : Exchange Listed :=
  match readNameRequest? (nameRequest name) with
  | none => s.answered (.error (undecodable none))
  | some name => respond (guarded "Disassemble" (s.disassemble name)) fun l =>
      match readListedResponse? (listedResponse l) with
      | some l => .ok l
      | none => .error (undecodable none)

/-! ## Batches in files -/

/-- Why sending files has ended early. -/
inductive SendError where
  | unread (error : Batch.FileError)
  | rejected (path : String) (failure : Failure)
  | unlisted (failure : Failure)
  deriving DecidableEq, Repr

/-- The end of sending files: the service, the log, the printed text, and the error that ended it. -/
structure Sent where
  service : Service
  entries : List Log.Entry
  output : String
  error : Option SendError

/-- Text printed before a part of the work. -/
def Sent.after (entries : List Log.Entry) (output : String) (r : Sent) : Sent :=
  { r with entries := entries ++ r.entries, output := output ++ r.output }

/-- Prints the listing of each procedure. -/
def printListings (s : Service) : List Procedure → Sent
  | [] => ⟨s, [], "", none⟩
  | p :: ps =>
      let x := disassemble s p.name
      match x.answer with
      | .error e => ⟨x.service, x.entries, "", some (.unlisted e)⟩
      | .ok l =>
          (printListings x.service ps).after x.entries
            (l.name ++ "/" ++ Text.decimal l.arity.toNat ++ "\n" ++ l.listing ++ "\n\n")

/-- Sends the batch of a file and prints the listings of its procedures. -/
def sendFile (t : FileTree) (path : String) (s : Service) : Sent :=
  match Batch.readFile t path with
  | .error e => ⟨s, [], "", some (.unread e)⟩
  | .ok batch =>
      let x := compile s (some batch)
      match x.answer with
      | .error e => ⟨x.service, x.entries, "", some (.rejected path e)⟩
      | .ok c => (printListings x.service c.procedures).after x.entries ""

/-- Sends the batches of files in order, up to the first that fails. -/
def sendFiles (t : FileTree) : List String → Service → Sent
  | [], s => ⟨s, [], "", none⟩
  | path :: paths, s =>
      let r := sendFile t path s
      match r.error with
      | some _ => r
      | none => (sendFiles t paths r.service).after r.entries r.output

end TermVM.Service.Client
