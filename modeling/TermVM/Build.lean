/-
  TermVM.Build

  `vmgen`'s compilation driver (`Driver`), batch by batch.  A batch first
  reserves a slot for every declaration, so that its bodies can call each other;
  then every body is compiled against the reserved table; then all procedures
  are installed at once.  A batch that fails installs nothing.

  A body may come from a store: its key covers the term and all that its code
  depends on.
-/
import TermVM.Codegen
import TermVM.Fingerprint
import TermVM.Store
import TermVM.Trace
import TermVM.Verify

namespace TermVM.Build

/-- Settings of a compilation. -/
structure Settings where
  analyzers : Option Analyzers
  /-- Applied to generated code before it is verified and installed. -/
  optimizer : Option (DeclTable → Code → Code)
  tracer : Option Tracer
  /-- The number of bodies that may be compiled at once; no result depends on it. -/
  jobs : Int
  verify : Bool
  /-- The verbosity of the log. -/
  verbosity : Int

/-- The settings of a plain compilation. -/
def Settings.plain : Settings where
  analyzers := none
  optimizer := none
  tracer := none
  jobs := 0
  verify := false
  verbosity := 0

/-- Why a batch was not compiled. -/
inductive Failure where
  /-- A declaration that was not turned into a batch. -/
  | unprepared (decl reason : String)
  | duplicate (name : String)
  | refused (refusal : DeclTable.Refusal)
  | interrupted (why : Interrupt)
  | unknownConstant (name : String)
  | unsupportedExtension (tag : String)
  | store (decl : String) (failure : Store.Failure)
  | arity (decl : String) (reserved compiled : UInt32)
  | unverified (finding : Verify.Finding)
  | crash (crash : Crash)
  deriving DecidableEq, Repr

/-- The text of a failure, where it is fixed. -/
def Failure.message? : Failure → Option String
  | unprepared decl reason => some ("preprocess " ++ decl ++ ": " ++ reason)
  | duplicate name => some ("declaration appears twice in batch: " ++ name)
  | refused refusal => some refusal.message
  | interrupted why => some why.message
  | unknownConstant name => some (Codegen.unknownConstantText name)
  | unsupportedExtension tag => some (Codegen.unsupportedExtensionText tag)
  | store decl failure => failure.message?.map fun m => decl ++ ": cache: " ++ m
  | arity decl reserved compiled =>
      some ("compiled arity differs from reservation: " ++ decl ++ " reserved with "
        ++ Text.decimal reserved.toNat ++ ", compiled with " ++ Text.decimal compiled.toNat)
  | unverified finding => some finding.message
  | crash c => c.message?

/-- A failure of code generation in a declaration. -/
def Failure.ofCodegen (decl : String) : Codegen.Failure → Failure
  | .unknownConstant name => .unknownConstant name
  | .unsupportedExtension tag => .unsupportedExtension tag
  | .invariant violation => .crash (.invariant decl violation.message)
  | .misuse misuse => .crash misuse.toCrash
  | .missingSubject => .crash (.fault .missingElement)

/-- A failure of the store in a declaration. -/
def Failure.ofStore (decl : String) : Store.Failure → Failure
  | .absentPart => .crash (.text Term.absentPart)
  | failure => .store decl failure

/-- A failure of verification. -/
def Failure.ofVerify : Verify.Failure → Failure
  | .rejected finding => .unverified finding
  | .fault fault => .crash (.fault fault)
  | .unfinished => .crash (.text "verification did not finish")

/-! ## Bodies -/

/-- A compiled body: its code as generated or as found in the store, and as it is installed. -/
structure Body where
  generated : Procedure
  final : Procedure
  hit : Bool
  deriving DecidableEq, Repr

/-- The key of a body. -/
def bodyKey (s : Settings) (table : DeclTable) (d : Declaration) : Except Failure String :=
  match Fingerprint.key? d.value table s.analyzers with
  | some key => .ok key
  | none => .error (.crash (.text Fingerprint.absentPart))

/-- The stored code of a body, under the declaration's name. -/
def fetch (store : Store) (key : String) (d : Declaration) : Except Failure (Option Procedure) :=
  match store.get? none key with
  | .ok p => .ok (p.map fun p => { p with name := d.name })
  | .error e => .error (.ofStore d.name e)

/-- The generated code of a body. -/
def generate (s : Settings) (table : DeclTable) (d : Declaration) : Except Failure Procedure :=
  (Codegen.compileProcedure ⟨table, s.analyzers⟩ d.name d.value).mapError (.ofCodegen d.name)

/-- Stores the generated code of a body. -/
def keep (store : Store) (key : String) (d : Declaration) (p : Procedure) :
    Except Failure Store :=
  (store.put none key p).mapError (.ofStore d.name)

/-- The code of a body, whether it was found in the store, and the store after. -/
def bodyCode (s : Settings) (store : Option Store) (table : DeclTable) (d : Declaration) :
    Option Store × Except Failure (Procedure × Bool) :=
  match store with
  | none => (none, (generate s table d).map fun p => (p, false))
  | some st =>
      match bodyKey s table d with
      | .error e => (some st, .error e)
      | .ok key =>
          match fetch st key d with
          | .error e => (some st, .error e)
          | .ok (some p) => (some st, .ok (p, true))
          | .ok none =>
              match generate s table d with
              | .error e => (some st, .error e)
              | .ok p =>
                  match keep st key d p with
                  | .error e => (some st, .error e)
                  | .ok st' => (some st', .ok (p, false))

/-- Checks the arity of a body's code, optimises and verifies it. -/
def finish (s : Settings) (table : DeclTable) (d : Declaration) (arity : UInt32)
    (p : Procedure) (hit : Bool) : Except Failure Body :=
  if p.arity ≠ arity then .error (.arity d.name arity p.arity)
  else
    let final := match s.optimizer with
      | some f => { p with code := f table p.code }
      | none => p
    if s.verify then
      match Verify.analyze table final with
      | .ok _ => .ok ⟨p, final, hit⟩
      | .error e => .error (.ofVerify e)
    else .ok ⟨p, final, hit⟩

/-- Compiles one body. -/
def compileBody (s : Settings) (store : Option Store) (table : DeclTable) (d : Declaration)
    (arity : UInt32) : Option Store × Except Failure Body :=
  let (store, got) := bodyCode s store table d
  (store, got.bind fun (p, hit) => finish s table d arity p hit)

/-- Compiles bodies in order, up to the first one that fails. -/
def compileBodies (s : Settings) (interrupt : Option Interrupt) (table : DeclTable) :
    Option Store → List (Declaration × UInt32) → Option Store × Except Failure (List Body)
  | store, [] => (store, .ok [])
  | store, (d, arity) :: rest =>
      match interrupt with
      | some why => (store, .error (.interrupted why))
      | none =>
          match compileBody s store table d arity with
          | (store, .error e) => (store, .error e)
          | (store, .ok b) =>
              let (store, bs) := compileBodies s none table store rest
              (store, bs.map (b :: ·))

/-! ## Batches -/

/-- The first name that stands twice in a list. -/
def firstRepeat? : (seen : List String) → List String → Option String
  | _, [] => none
  | seen, n :: ns => if n ∈ seen then some n else firstRepeat? (n :: seen) ns

/-- What a batch reserves: every name with the number of leading lambdas of its term. -/
def reservations (batch : List Declaration) : List (String × UInt32) :=
  batch.map fun d => (d.name, UInt32.ofNat d.value.arity)

/-- The reserved table of a batch. -/
def reserve (table : DeclTable) (batch : List Declaration) : Except Failure DeclTable :=
  match firstRepeat? [] (batch.map (·.name)) with
  | some name => .error (.duplicate name)
  | none => (table.reserve (reservations batch)).mapError .refused

/-- The entries that tracing the bodies leaves, up to the first that cannot be listed. -/
def trace (s : Settings) (table : DeclTable) : List Body → List Log.Entry × Except Failure Unit
  | [] => ([], .ok ())
  | b :: bs =>
      match s.tracer with
      | none => ([], .ok ())
      | some t =>
          match t.procedure s.verbosity Tracer.codeGen table b.generated with
          | .error f => ([], .error (.crash (.fault f)))
          | .ok before =>
              match t.procedure s.verbosity Tracer.optimizeBytecode table b.final with
              | .error f => (before, .error (.crash (.fault f)))
              | .ok after =>
                  let (entries, r) := trace s table bs
                  (before ++ after ++ entries, r)

/-- A compiled batch: the table with everything installed, the procedures in batch order, and the
    number of bodies taken from the store. -/
structure Outcome where
  table : DeclTable
  procedures : List Procedure
  hits : Nat
  deriving DecidableEq, Repr

/-- The end of a compilation: its outcome, the store and the log it leaves. -/
structure Result where
  store : Option Store
  entries : List Log.Entry
  outcome : Except Failure Outcome

/-- Installs compiled bodies into the reserved table. -/
def install (table : DeclTable) (bodies : List Body) : Except Failure Outcome :=
  let procedures := bodies.map (·.final)
  match table.install procedures with
  | .ok t => .ok ⟨t, procedures, (bodies.filter (·.hit)).length⟩
  | .error e => .error (.refused e)

/-- Compiles a batch against a table. -/
def run (s : Settings) (interrupt : Option Interrupt) (store : Option Store) (table : DeclTable)
    (batch : List Declaration) : Result :=
  match reserve table batch with
  | .error e => ⟨store, [], .error e⟩
  | .ok reserved =>
      match compileBodies s interrupt reserved store
          (batch.map fun d => (d, UInt32.ofNat d.value.arity)) with
      | (store, .error e) => ⟨store, [], .error e⟩
      | (store, .ok bodies) =>
          match trace s reserved bodies with
          | (entries, .error e) => ⟨store, entries, .error e⟩
          | (entries, .ok ()) => ⟨store, entries, install reserved bodies⟩

/-- Turns a declaration into the batch that is compiled for it; the error is a text. -/
abbrev Preparation := DeclTable → Declaration → Except String (List Declaration)

/-- Compiles the batch that a declaration is turned into. -/
def runDeclaration (s : Settings) (interrupt : Option Interrupt) (store : Option Store)
    (table : DeclTable) (prepare : Preparation) (d : Declaration) : Result :=
  match prepare table d with
  | .error reason => ⟨store, [], .error (.unprepared d.name reason)⟩
  | .ok batch => run s interrupt store table batch

end TermVM.Build
