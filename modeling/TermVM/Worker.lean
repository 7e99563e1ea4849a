/-
  TermVM.Worker

  `vmgen`'s table worker (`EnvWorker`): one table with many callers.  All
  updates go through a single worker, which runs them one at a time and
  publishes each new table as a whole.  An update that fails leaves the
  published table as it was.
-/
import TermVM.DeclTable
import TermVM.Store

namespace TermVM

/-- The worker's published table, and whether it still takes updates. -/
structure Worker where
  table : DeclTable
  stopped : Bool
  deriving DecidableEq, Repr

namespace Worker

/-- Why an update was not run. -/
inductive Refusal where
  | interrupted (why : Interrupt)
  | stopped
  deriving DecidableEq, Repr

/-- The text of a refusal. -/
def Refusal.message : Refusal → String
  | interrupted why => why.message
  | stopped => "server: table worker stopped"

/-- Why an update gave no value. -/
inductive Failure (ε : Type) where
  | refused (refusal : Refusal)
  | failed (error : ε)
  deriving DecidableEq, Repr

/-- What an update computes from the published table: the next table, if there is one, and a value. -/
abbrev Update (ε α : Type) := DeclTable → Except ε (Option DeclTable × α)

/-- A worker that starts with a table. -/
def start (table : DeclTable) : Worker := ⟨table, false⟩

/-- Stops a worker; its table stays published. -/
def stop (w : Worker) : Worker := { w with stopped := true }

/-- Whether an update is run at all.  A caller that has given up is told so first. -/
def accept (w : Worker) (interrupt : Option Interrupt) : Except Refusal Unit :=
  match interrupt with
  | some why => .error (.interrupted why)
  | none => if w.stopped then .error .stopped else .ok ()

/-- Publishes what an update has computed. -/
def publish {ε α : Type} (w : Worker) : Except ε (Option DeclTable × α) → Worker × Except ε α
  | .error e => (w, .error e)
  | .ok (none, a) => (w, .ok a)
  | .ok (some t, a) => ({ w with table := t }, .ok a)

/-- Runs an update. -/
def update {ε α : Type} (w : Worker) (interrupt : Option Interrupt) (f : Update ε α) :
    Worker × Except (Failure ε) α :=
  match w.accept interrupt with
  | .error r => (w, .error (.refused r))
  | .ok () =>
      let (w, r) := w.publish (f w.table)
      (w, r.mapError .failed)

end Worker

end TermVM
