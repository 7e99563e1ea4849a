/-
  TermVM.Manifest.Basic

  `vmgen.toml`, the configuration of a project (`Manifest`): where its batches
  are, how they are compiled, and which declarations and case analyzers the
  runtime brings along.

  A configuration text is decoded, checked against the schema, completed with
  defaults, and then overridden by variables of the environment.
-/
import TermVM.Analyzers
import TermVM.Path
import TermVM.Text.Quoted
import TermVM.Toml.Document
import TermVM.Trace

namespace TermVM

/-- A declaration that the runtime implements, as configured. -/
structure Builtin where
  name : String
  arity : UInt32
  kind : String
  deriving DecidableEq, Repr, Inhabited

/-- A project configuration. -/
structure Manifest where
  /-- The project's name. -/
  name : String
  /-- Directories that hold batches. -/
  dirs : List String
  /-- Bodies compiled at once; zero leaves it to the machine. -/
  jobs : Int
  /-- Trace classes to switch on. -/
  trace : List String
  verify : Bool
  /-- Where compiled procedures are kept; empty for memory. -/
  cache : String
  /-- The port of the compile service. -/
  port : Int
  builtins : List Builtin
  cases : List Analyzer
  /-- The directory that relative paths are seen from. -/
  dir : String
  deriving DecidableEq, Repr

namespace Manifest

/-- The name of a configuration file. -/
def fileName : String := "vmgen.toml"

/-- A configuration in which nothing is set. -/
def unset : Manifest where
  name := ""
  dirs := []
  jobs := 0
  trace := []
  verify := false
  cache := ""
  port := 0
  builtins := []
  cases := []
  dir := ""

/-! ## Decoding -/

/-- A character of a key, without regard to case.  The long s and the Kelvin sign are forms of the
    letters s and k. -/
def foldChar (c : Char) : Char :=
  if c = '\u017f' then 's' else if c = '\u212a' then 'k' else c.toLower

/-- A key, without regard to case. -/
def foldKey (key : String) : String :=
  String.ofList (key.toList.map foldChar)

/-- Takes the entries of a table into a record; keys that the record does not know are passed over. -/
def takeEntries {α : Type} (assign : String → Toml.Value → α → Option α) (a : α)
    (es : Toml.Entries) : Option α :=
  es.foldlM (fun a (key, v) => assign (foldKey key) v a) a

/-- Takes a value that has to be a table into a record. -/
def takeTable {α : Type} (assign : String → Toml.Value → α → Option α) (v : Toml.Value) (a : α) :
    Option α := do
  takeEntries assign a (← v.table?)

/-- A 32-bit number. -/
def word? (v : Toml.Value) : Option UInt32 := do
  let n ← v.integer?
  if 0 ≤ n ∧ n < UInt32.size then some (UInt32.ofNat n.toNat) else none

/-- A list of texts. -/
def texts? (v : Toml.Value) : Option (List String) := do
  (← v.array?).mapM (·.text?)

/-- A configured declaration of the runtime. -/
def builtin? (v : Toml.Value) : Option Builtin :=
  takeTable (fun key v b => match key with
    | "name" => do return { b with name := ← v.text? }
    | "arity" => do return { b with arity := ← word? v }
    | "kind" => do return { b with kind := ← v.text? }
    | _ => some b) v ⟨"", 0, ""⟩

/-- A configured case analyzer. -/
def analyzer? (v : Toml.Value) : Option Analyzer :=
  takeTable (fun key v a => match key with
    | "name" => do return { a with name := ← v.text? }
    | "index" => do return { a with index := ← word? v }
    | "alternatives" => do return { a with alternatives := ← word? v }
    | _ => some a) v ⟨"", 0, 0⟩

/-- Takes one section into a configuration. -/
def assignSection (key : String) (v : Toml.Value) (m : Manifest) : Option Manifest :=
  match key with
  | "project" => takeTable (fun key v m => match key with
      | "name" => do return { m with name := ← v.text? }
      | _ => some m) v m
  | "source" => takeTable (fun key v m => match key with
      | "dirs" => do return { m with dirs := ← texts? v }
      | _ => some m) v m
  | "compiler" => takeTable (fun key v m => match key with
      | "jobs" => do return { m with jobs := ← v.integer? }
      | "trace" => do return { m with trace := ← texts? v }
      | "verify" => do return { m with verify := ← v.boolean? }
      | _ => some m) v m
  | "cache" => takeTable (fun key v m => match key with
      | "path" => do return { m with cache := ← v.text? }
      | _ => some m) v m
  | "server" => takeTable (fun key v m => match key with
      | "port" => do return { m with port := ← v.integer? }
      | _ => some m) v m
  | "builtin" => do return { m with builtins := ← (← v.array?).mapM builtin? }
  | "cases" => do return { m with cases := ← (← v.array?).mapM analyzer? }
  | _ => some m

/-- The configuration that a text spells out. -/
def decode? (bs : Bytes) : Option Manifest := do
  takeEntries assignSection unset (← Toml.decode? bs)

/-! ## The schema -/

/-- What the schema asks of a declaration of the runtime. -/
def ValidBuiltin (b : Builtin) : Prop :=
  b.name ≠ "" ∧ (b.kind = "builtin" ∨ b.kind = "native")

/-- What the schema asks of a case analyzer. -/
def ValidAnalyzer (a : Analyzer) : Prop :=
  a.name ≠ "" ∧ a.name ≠ Term.natCasesOn ∧ a.alternatives ≠ 0

/-- What the schema asks of a configuration. -/
structure Valid (m : Manifest) : Prop where
  dirs : ∀ d ∈ m.dirs, d ≠ ""
  jobs : 0 ≤ m.jobs
  trace : ∀ c ∈ m.trace, c = Tracer.codeGen ∨ c = Tracer.optimizeBytecode
  port : 0 ≤ m.port ∧ m.port ≤ 65535
  builtins : ∀ b ∈ m.builtins, ValidBuiltin b
  cases : ∀ a ∈ m.cases, ValidAnalyzer a

instance (b : Builtin) : Decidable (ValidBuiltin b) :=
  inferInstanceAs (Decidable (_ ∧ _))

instance (a : Analyzer) : Decidable (ValidAnalyzer a) :=
  inferInstanceAs (Decidable (_ ∧ _))

instance (m : Manifest) : Decidable m.Valid :=
  decidable_of_iff
    ((∀ d ∈ m.dirs, d ≠ "") ∧ 0 ≤ m.jobs
      ∧ (∀ c ∈ m.trace, c = Tracer.codeGen ∨ c = Tracer.optimizeBytecode)
      ∧ (0 ≤ m.port ∧ m.port ≤ 65535)
      ∧ (∀ b ∈ m.builtins, ValidBuiltin b) ∧ (∀ a ∈ m.cases, ValidAnalyzer a))
    ⟨fun ⟨a, b, c, d, e, f⟩ => ⟨a, b, c, d, e, f⟩, fun ⟨a, b, c, d, e, f⟩ => ⟨a, b, c, d, e, f⟩⟩

/-! ## Defaults and overrides -/

/-- The port when none is configured. -/
def defaultPort : Int := 8970

/-- Fills in what is not set. -/
def withDefaults (m : Manifest) : Manifest :=
  { m with
    dirs := if m.dirs.isEmpty then ["build"] else m.dirs
    port := if m.port = 0 then defaultPort else m.port }

/-- The configuration of a project without a configuration file. -/
def default : Manifest := unset.withDefaults

/-- Variables of the environment. -/
abbrev Environment := List (String × String)

/-- The value of a variable; an empty one counts as not set. -/
def Environment.get? (env : Environment) (name : String) : Option String :=
  ((env.find? fun e => e.1 == name).map (·.2)).filter (· != "")

/-- Why a configuration cannot be used. -/
inductive Error where
  /-- The text does not spell out a configuration. -/
  | parse
  /-- The configuration is not what the schema asks for. -/
  | schema
  /-- The variable for the number of jobs holds something else. -/
  | jobs (value : String)
  deriving DecidableEq, Repr

/-- The text of an error, where it is fixed. -/
def Error.message? : Error → Option String
  | parse => none
  | schema => none
  | jobs value => some ("VMGEN_JOBS: want a non-negative integer, got " ++ Text.quoted value)

/-- A number of jobs. -/
def jobsOf? (s : String) : Option Int :=
  (Text.readWord? s).filter (0 ≤ ·)

/-- Overrides a configuration by the variables that are set.  A port that is no number is passed
    over. -/
def override (env : Environment) (m : Manifest) : Except Error Manifest := do
  let jobs ← match env.get? "VMGEN_JOBS" with
    | none => pure m.jobs
    | some s =>
        match jobsOf? s with
        | some n => pure n
        | none => throw (.jobs s)
  return { m with
    jobs := jobs
    cache := (env.get? "VMGEN_CACHE").getD m.cache
    trace := ((env.get? "VMGEN_TRACE").map Text.commaList).getD m.trace
    port := ((env.get? "VMGEN_PORT").bind Text.readWord?).getD m.port }

/-- The configuration of a text. -/
def parse (env : Environment) (bs : Bytes) : Except Error Manifest :=
  match decode? bs with
  | none => .error .parse
  | some m => if m.Valid then m.withDefaults.override env else .error .schema

end Manifest

end TermVM
