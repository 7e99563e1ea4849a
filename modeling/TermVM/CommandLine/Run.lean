/-
  TermVM.CommandLine.Run

  What `vmgen` does with a command line: it compiles batch files or sends them
  to a service, lists a file of procedures, or serves.  It reads files of a
  tree, prints, leaves files behind, and ends with an exit code.
-/
import TermVM.Batch
import TermVM.CommandLine.Options
import TermVM.Manifest.Project
import TermVM.Store.File

namespace TermVM.CommandLine

/-- All that a run shows. -/
structure Outcome where
  exit : UInt8
  stdout : String
  stderr : String
  /-- The shown entries of the log. -/
  log : List Log.Entry
  files : FileTree

/-- All bytes on standard output: the printed text, then what was saved there. -/
def Outcome.stdoutBytes (r : Outcome) : Bytes :=
  utf8 r.stdout ++ r.files.streamed FileTree.stdout

/-- All bytes on standard error: what was saved there, then the complaint. -/
def Outcome.stderrBytes (r : Outcome) : Bytes :=
  r.files.streamed FileTree.stderr ++ utf8 r.stderr

/-- How a command ends. -/
inductive Ending where
  | done
  /-- A failure, with its text. -/
  | failed (message : String)
  | crashed (crash : Crash)
  deriving DecidableEq, Repr

/-- The work of a command: what it has printed and logged, the files it leaves, and its end. -/
structure Work where
  stdout : String
  log : List Log.Entry
  files : FileTree
  ending : Ending

/-- A command that has printed nothing. -/
def Work.silent (files : FileTree) (ending : Ending) : Work :=
  ⟨"", [], files, ending⟩

/-- The text of an error, or words in its place where it is not fixed. -/
def textOr (words : String) (message? : Option String) : String :=
  message?.getD words

/-! ## Listings -/

/-- The lines that can be rendered, up to the first that cannot. -/
def linesUpTo : List (Except Fault String) → String × Option Fault
  | [] => ("", none)
  | .error f :: _ => ("", some f)
  | .ok line :: rest =>
      let (text, f) := linesUpTo rest
      (line ++ "\n" ++ text, f)

/-- A procedure with its listing. -/
def showProcedure (table : Option DeclTable) (p : Procedure) : String × Option Fault :=
  let (text, f) := linesUpTo (Listing.lines table p.code)
  let head := p.name ++ "/" ++ Text.decimal p.arity.toNat ++ "\n" ++ text
  match f with
  | none => (head ++ "\n", none)
  | some f => (head, some f)

/-- Procedures with their listings, up to the first that cannot be shown. -/
def showProcedures (table : Option DeclTable) : List (Option Procedure) → String × Option Fault
  | [] => ("", none)
  | none :: _ => ("", some .missingValue)
  | some p :: ps =>
      match showProcedure table p with
      | (text, some f) => (text, some f)
      | (text, none) =>
          let (more, f) := showProcedures table ps
          (text ++ more, f)

/-- The ending of a command that shows procedures. -/
def endingOf : Option Fault → Ending
  | none => .done
  | some f => .crashed (.fault f)

/-! ## Showing saved procedures -/

/-- The table that saved procedures were compiled into: the configured declarations, then the
    procedures in order.  There is none if they do not fit. -/
def rebuildTable (m : Manifest) (ps : List (Option Procedure)) : Except Fault (Option DeclTable) :=
  match m.table with
  | .error _ => .ok none
  | .ok t =>
      match ps.mapM id with
      | none => .error .missingValue
      | some ps =>
          match t.reserve (ps.map fun p => (p.name, p.arity)) with
          | .error _ => .ok none
          | .ok t => .ok (t.install ps).toOption

/-- Shows the procedures saved in a file. -/
def disassemble (m : Manifest) (t : FileTree) (path : String) : Work :=
  match t.read path with
  | .error f => .silent t (.failed f.message)
  | .ok bs =>
      match Procedure.decodeList bs with
      | .error e => .silent t (.failed (path ++ ": " ++ textOr "undecodable procedures" (Procedure.fileMessage? e)))
      | .ok saved =>
          let ps := saved.getD []
          match rebuildTable m ps with
          | .error f => .silent t (.crashed (.fault f))
          | .ok table =>
              let (text, f) := showProcedures table ps
              ⟨text, [], t, endingOf f⟩

/-! ## Compiling batches -/

/-- What a configuration sets up before work starts. -/
structure Setup where
  table : DeclTable
  settings : Build.Settings
  store : Store

/-- The table and the settings of a configuration; the error is a text. -/
def configure (m : Manifest) (verbosity : Int) : Except String (DeclTable × Build.Settings) := do
  return (← m.table.mapError (·.message), ← (m.settings verbosity).mapError (·.message))

/-- Sets up the work of a configuration; the error is a text.  Files may be made on the way. -/
def setUp (m : Manifest) (verbosity : Int) (t : FileTree) : FileTree × Except String Setup :=
  match configure m verbosity with
  | .error e => (t, .error e)
  | .ok (table, settings) =>
      match Store.openIn t m.cachePath with
      | (t, .error e) => (t, .error (textOr "the cache is not a database" e.message?))
      | (t, .ok store) => (t, .ok ⟨table, settings, store⟩)

/-- The text of a file that holds no batch. -/
def batchError (path : String) (e : Batch.FileError) : String :=
  textOr (path ++ ": undecodable batch") e.message?

/-- What batches leave behind: the store if there is one, the procedures so far, and the work. -/
structure Progress where
  store : Option Store
  procedures : List Procedure
  work : Work

/-- Puts what was printed and logged earlier before the rest. -/
def Progress.after (stdout : String) (log : List Log.Entry) (ps : List Procedure) (r : Progress) :
    Progress :=
  { r with procedures := ps ++ r.procedures
           work := { r.work with stdout := stdout ++ r.work.stdout, log := log ++ r.work.log } }

/-- The ending of a batch that was not compiled. -/
def buildEnding (path : String) (e : Build.Failure) : Ending :=
  match e with
  | .crash (.text m) => .crashed (.text m)
  | .crash (.fault f) => .crashed (.fault f)
  | e => .failed (path ++ ": " ++ textOr "undecodable procedure" e.message?)

/-- Compiles the batches of files in order, each against the table left by the one before, with or
    without a store. -/
def compileFiles (s : Build.Settings) (t : FileTree) (store : Option Store) (table : DeclTable) :
    List String → Progress
  | [] => ⟨store, [], .silent t .done⟩
  | path :: paths =>
      match Batch.readFile t path with
      | .error e => ⟨store, [], .silent t (.failed (batchError path e))⟩
      | .ok batch =>
          let r := Build.run s none store table batch
          match r.outcome with
          | .error e => ⟨r.store, [], ⟨"", r.entries, t, buildEnding path e⟩⟩
          | .ok o =>
              match showProcedures (some o.table) (o.procedures.map some) with
              | (text, some f) => ⟨r.store, [], ⟨text, r.entries, t, .crashed (.fault f)⟩⟩
              | (text, none) =>
                  (compileFiles s t r.store o.table paths).after text r.entries o.procedures

/-- Writes compiled procedures to a file.  A list without any is written as an absent one. -/
def saveProcedures (t : FileTree) (path : String) (ps : List Procedure) : FileTree × Ending :=
  match Procedure.encodeList? (if ps.isEmpty then none else some (ps.map some)) with
  | none => (t, .crashed (.text Term.absentPart))
  | some bs =>
      match t.write path bs with
      | .ok t => (t, .done)
      | .error f => (t, .failed f.message)

/-- Compiles the batches of files, shows their procedures, and saves them if a file is given. -/
def compile (m : Manifest) (o : Options) (t : FileTree) (paths : List String) : Work :=
  match setUp m o.verbosity t with
  | (t, .error e) => .silent t (.failed e)
  | (t, .ok setup) =>
      let r := compileFiles setup.settings t (some setup.store) setup.table paths
      let t := (r.store.getD setup.store).save t
      let (t, ending) := match r.work.ending with
        | .done => if o.output = "" then (t, Ending.done) else saveProcedures t o.output r.procedures
        | ending => (t, ending)
      { r.work with files := t, ending := ending }

/-! ## The service -/

/-- Whether a number is a port. -/
def isPort (n : Int) : Bool :=
  0 ≤ n && n < UInt16.size

/-- Starts the service.  This program has no network of its own, so the start always fails. -/
def serve (m : Manifest) (o : Options) (t : FileTree) : Work :=
  match setUp m o.verbosity t with
  | (t, .error e) => .silent t (.failed e)
  | (t, .ok _) =>
      .silent t <| .failed <|
        if isPort m.port then "listen tcp :" ++ Text.decimal m.port ++ ": no network"
        else "listen tcp: address " ++ Text.decimal m.port ++ ": invalid port"

/-- Sends batches to a service.  This program has no network of its own, so the first batch that can
    be read is not sent. -/
def send (t : FileTree) : List String → Work
  | [] => .silent t .done
  | path :: _ =>
      match Batch.readFile t path with
      | .error e => .silent t (.failed (batchError path e))
      | .ok _ => .silent t (.failed (path ++ ": unavailable: no network"))

/-! ## Command lines -/

/-- A run that prints only to standard error. -/
def complain (t : FileTree) (exit : UInt8) (stderr : String) : Outcome :=
  ⟨exit, "", stderr, [], t⟩

/-- The outcome of a command; a failure is printed after a label. -/
def Work.outcome (label : String) (w : Work) : Outcome :=
  let (exit, stderr) : UInt8 × String := match w.ending with
    | .done => (0, "")
    | .failed m => (1, label ++ ": " ++ m ++ "\n")
    | .crashed c => (2, "panic: " ++ textOr "missing value" c.message? ++ "\n")
  ⟨exit, w.stdout, stderr, w.log, w.files⟩

/-- The configuration with the given options in place of its own values. -/
def override (o : Options) (m : Manifest) : Manifest :=
  { m with
    jobs := o.jobs.getD m.jobs
    trace := (o.trace.map Text.commaList).getD m.trace
    verify := o.verify.getD m.verify
    cache := o.cache.getD m.cache
    port := o.port.getD m.port }

/-- The configuration of the working directory, or the standard one; the error is a complaint. -/
def configuration (env : Manifest.Environment) (t : FileTree) : Except String Manifest :=
  match Manifest.find env t "." with
  | .error e => .error ("Error loading manifest: " ++ textOr "not a configuration" e.message? ++ "\n")
  | .ok (some m) => .ok m
  | .ok none =>
      (Manifest.default.override env).mapError
        fun e => "Error: " ++ textOr "not a configuration" e.message? ++ "\n"

/-- Compiles or sends files. -/
def process (m : Manifest) (o : Options) (t : FileTree) (paths : List String) : Outcome :=
  (if o.remote = "" then compile m o t paths else send t paths).outcome "Error"

/-- Runs the command that the arguments after the options ask for. -/
def dispatch (m : Manifest) (o : Options) (t : FileTree) : List String → Outcome
  | ["dis", path] => (disassemble m t path).outcome "Error"
  | "dis" :: _ => complain t 1 "Usage: vmgen dis procs.cbor\n"
  | "serve" :: _ => (serve m o t).outcome "Server error"
  | [] =>
      match m.batchFiles? t with
      | none => complain t 1 ("Error: " ++ Glob.badPattern ++ "\n")
      | some [] => complain t 1 usage
      | some paths => process m o t paths
  | paths => process m o t paths

/-- Runs a command line. -/
def run (env : Manifest.Environment) (t : FileTree) (arguments : List String) : Outcome :=
  match parse arguments with
  | .help => complain t 0 usage
  | .misuse e => complain t 2 (e.message ++ "\n" ++ usage)
  | .options o rest =>
      match configuration env t with
      | .error e => complain t 1 e
      | .ok m => dispatch (override o m) o t rest

end TermVM.CommandLine
