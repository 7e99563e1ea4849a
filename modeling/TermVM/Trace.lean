/-
  TermVM.Trace

  Tracing of `vmgen`'s compilation (`Tracer`).  A tracer knows a set of classes,
  each switched on or off; a procedure traced under a class that is on leaves
  its listing in the log.
-/
import TermVM.Listing
import TermVM.Log

namespace TermVM

/-- A class of traces and whether it is switched on. -/
structure TraceClass where
  name : String
  enabled : Bool
  deriving DecidableEq, Repr

/-- The registered classes, sorted by name. -/
structure Tracer where
  classes : List TraceClass
  deriving DecidableEq, Repr

namespace Tracer

/-- Each procedure as generated. -/
def codeGen : String := "compiler.code_gen"

/-- Each procedure as it is installed. -/
def optimizeBytecode : String := "compiler.optimize_bytecode"

/-- The complaint about a class that is not registered. -/
def unknownClass (name : String) : String :=
  "unknown trace class " ++ Text.quoted name

/-- The class of a name. -/
def class? (t : Tracer) (name : String) : Option TraceClass :=
  t.classes.find? fun c => c.name == name

/-- Inserts a class before the first one with a larger name. -/
def insertSorted (c : TraceClass) : List TraceClass → List TraceClass
  | [] => [c]
  | x :: xs => if c.name < x.name then c :: x :: xs else x :: insertSorted c xs

/-- Registers a class, switched off.  A registered class stays as it is. -/
def register (t : Tracer) (name : String) : Tracer :=
  match t.class? name with
  | some _ => t
  | none => ⟨insertSorted ⟨name, false⟩ t.classes⟩

/-- The compiler's own classes, all switched off. -/
def standard : Tracer :=
  (Tracer.mk []).register codeGen |>.register optimizeBytecode

/-- Switches one class on. -/
def switchOn (t : Tracer) (name : String) : Tracer :=
  ⟨t.classes.map fun c => if c.name = name then { c with enabled := true } else c⟩

/-- Switches classes on in order, up to the first one that is not registered, which is returned. -/
def enable (t : Tracer) : List String → Tracer × Option String
  | [] => (t, none)
  | name :: names =>
      match t.class? name with
      | none => (t, some name)
      | some _ => (t.switchOn name).enable names

/-- A tracer with the given classes switched on, or the first one that is not known. -/
def standardWith (names : List String) : Except String Tracer :=
  match standard.enable names with
  | (t, none) => .ok t
  | (_, some name) => .error name

/-- Whether a class is switched on. -/
def isEnabled (t : Tracer) (name : String) : Bool :=
  ((t.class? name).map (·.enabled)).getD false

/-- Whether a procedure traced under a class reaches the log. -/
def isShown (t : Tracer) (verbosity : Int) (name : String) : Bool :=
  t.isEnabled name && Log.Level.debug.shownAt verbosity

/-- The traced text of a procedure: its name and arity, and its listing below. -/
def text (table : DeclTable) (p : Procedure) : Except Fault String := do
  let lines ← (Listing.lines (some table) p.code).mapM id
  return " " ++ p.name ++ " " ++ Text.decimal p.arity.toNat ++ String.join (lines.map ("\n" ++ ·))

/-- The entries that a procedure traced under a class leaves. -/
def procedure (t : Tracer) (verbosity : Int) (name : String) (table : DeclTable) (p : Procedure) :
    Except Fault (List Log.Entry) :=
  if t.isShown verbosity name then do
    let message ← text table p
    return [⟨.debug, "vmgen." ++ name, message, []⟩]
  else return []

end Tracer

end TermVM
