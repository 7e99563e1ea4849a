/-
  TermVM.Manifest.Project

  What a `vmgen` configuration stands for: the starting table, the registry of
  case analyzers, the tracer, the compilation settings, and the files of the
  project.
-/
import TermVM.Build
import TermVM.Glob
import TermVM.Manifest.Basic

namespace TermVM.Manifest

/-! ## Inputs of a compilation -/

/-- Why a configured table cannot be made. -/
inductive TableError where
  | unknownKind (name kind : String)
  | refused (refusal : DeclTable.Refusal)
  deriving DecidableEq, Repr

/-- The text of an error. -/
def TableError.message : TableError → String
  | unknownKind name kind => "builtin " ++ name ++ ": " ++ DeclKind.unknownSpelling kind
  | refused refusal => refusal.message

/-- Declares one configured declaration. -/
def declare (t : DeclTable) (b : Builtin) : Except TableError DeclTable :=
  match DeclKind.ofSpelling? b.kind with
  | none => .error (.unknownKind b.name b.kind)
  | some kind => (t.declare b.name b.arity kind).mapError .refused

/-- The table of the configured declarations, in order. -/
def table (m : Manifest) : Except TableError DeclTable :=
  m.builtins.foldlM declare .empty

/-- The frozen registry of the configured case analyzers. -/
def analyzers (m : Manifest) : Except Analyzers.Refusal Analyzers :=
  Analyzers.ofList m.cases

/-- A tracer with the configured classes on, or none if there are no classes; the error is a class
    that is not known. -/
def tracer (m : Manifest) : Except String (Option Tracer) :=
  if m.trace.isEmpty then .ok none
  else (Tracer.standardWith m.trace).map some

/-- Why compilation cannot be set up. -/
inductive SettingsError where
  | analyzers (refusal : Analyzers.Refusal)
  | traceClass (name : String)
  deriving DecidableEq, Repr

/-- The text of an error. -/
def SettingsError.message : SettingsError → String
  | analyzers refusal => refusal.message
  | traceClass name => Tracer.unknownClass name

/-- The compilation settings. -/
def settings (m : Manifest) (verbosity : Int) : Except SettingsError Build.Settings := do
  let analyzers ← m.analyzers.mapError .analyzers
  let tracer ← m.tracer.mapError .traceClass
  return { analyzers := some analyzers, optimizer := none, tracer := tracer, jobs := m.jobs,
           verify := m.verify, verbosity := verbosity }

/-! ## Files -/

/-- The directories that hold batches, seen from the configuration's own. -/
def sourcePaths (m : Manifest) : List String :=
  m.dirs.map (Path.below m.dir)

/-- Where compiled procedures are kept; empty for memory. -/
def cachePath (m : Manifest) : String :=
  if m.cache = "" then "" else Path.below m.dir m.cache

/-- The batches of a project, sorted; none if a directory is a pattern that cannot be read. -/
def batchFiles? (m : Manifest) (t : FileTree) : Option (List String) := do
  let found ← m.sourcePaths.mapM fun dir => Glob.expand? t (Path.join dir "*.cbor")
  return Glob.sorted found.flatten

/-- Why a configuration file cannot be used. -/
inductive LoadError where
  | unreadable (path : String) (failure : FileTree.Failure)
  | rejected (path : String) (error : Error)
  deriving DecidableEq, Repr

/-- The text of an error, where it is fixed. -/
def LoadError.message? : LoadError → Option String
  | unreadable path failure => some ("cannot read " ++ path ++ ": " ++ failure.message)
  | rejected path error => error.message?.map fun m => path ++ ": " ++ m

/-- The configuration in a directory. -/
def load (env : Environment) (t : FileTree) (dir : String) : Except LoadError Manifest := do
  let path := Path.join dir fileName
  let bs ← (t.read path).mapError (.unreadable path)
  let m ← (parse env bs).mapError (.rejected path)
  return { m with dir := Path.absolute (Path.render true t.cwd) dir }

/-- The configuration in the nearest of some directories that has one. -/
def loadNearest (env : Environment) (t : FileTree) : List String → Except LoadError (Option Manifest)
  | [] => .ok none
  | dir :: dirs =>
      if (t.stat? (Path.join dir fileName)).isSome then (load env t dir).map some
      else loadNearest env t dirs

/-- The parts of a path and of all that it is in, each with its last part first. -/
def upward : List String → List (List String)
  | [] => [[]]
  | part :: parts => (part :: parts) :: upward parts

/-- A directory and all those it is in, itself first. -/
def ancestors (dir : String) : List String :=
  (upward (Path.cleanParts dir).reverse).map fun parts => Path.render true parts.reverse

/-- The configuration of a directory, or of the nearest one it is in that has one. -/
def find (env : Environment) (t : FileTree) (start : String) : Except LoadError (Option Manifest) :=
  loadNearest env t (ancestors (Path.absolute (Path.render true t.cwd) start))

end TermVM.Manifest
