/-
  TermVM.Proofs.Worker.System

  Many callers and one worker, step by step.

  A call first asks whether the worker takes it, then waits for room in a queue
  of bounded length, and then for its answer, which the worker leaves in a place
  of the call's own.  The worker takes updates from the front of the queue, runs
  them against the published table and publishes what they give.  A call may be
  interrupted and the worker stopped at any moment; a call that waits may then
  go away, but an update that is in the queue stays there.

  What happens is kept in a history, and so can be looked back on.
-/
import Mathlib.Logic.Relation
import TermVM.Buffer
import TermVM.Worker

namespace TermVM.Worker

/-! ## Attempts -/

/-- How an update came out when it was run. -/
inductive Attempt (ε α : Type) where
  | gave (next : Option DeclTable) (value : α)
  /-- The update failed; a table that comes with the error does not count. -/
  | failed (next : Option DeclTable) (error : ε)
  | panicked (crash : Crash)

namespace Attempt

variable {ε α : Type} (recover : Crash → ε)

/-- What is published of an attempt.  A crash is recovered from and becomes an error. -/
def result : Attempt ε α → Except ε (Option DeclTable × α)
  | gave next value => .ok (next, value)
  | failed _ error => .error error
  | panicked crash => .error (recover crash)

/-- Whether an attempt gave a value. -/
def succeeded : Attempt ε α → Bool
  | gave .. => true
  | _ => false

/-- The table after an attempt that started from `table`. -/
def next (table : DeclTable) : Attempt ε α → DeclTable
  | gave next _ => next.getD table
  | _ => table

/-- The value or the error that the caller is told. -/
def answer : Attempt ε α → Except ε α
  | gave _ value => .ok value
  | failed _ error => .error error
  | panicked crash => .error (recover crash)

/-- The attempt of an update that returns. -/
def ofResult : Except ε (Option DeclTable × α) → Attempt ε α
  | .ok (next, value) => gave next value
  | .error error => failed none error

theorem result_ofResult (r : Except ε (Option DeclTable × α)) : (ofResult r).result recover = r := by
  rcases r with e | ⟨next, value⟩ <;> rfl

theorem publish_result (w : Worker) (x : Attempt ε α) :
    w.publish (x.result recover) = ({ w with table := x.next w.table }, x.answer recover) := by
  rcases x with ⟨_ | next, value⟩ | ⟨next, error⟩ | crash <;> rfl

theorem next_of_not_succeeded {x : Attempt ε α} (h : x.succeeded = false) (table : DeclTable) :
    x.next table = table := by
  cases x with
  | gave next value => cases h
  | _ => rfl

theorem eq_gave_of_answer {x : Attempt ε α} {v : α} (h : x.answer recover = .ok v) :
    ∃ next, x = gave next v := by
  cases x with
  | gave next value =>
    cases h
    exact ⟨next, rfl⟩
  | _ => cases h

end Attempt

/-- What an update may do when it is run against a table. -/
abbrev Task (ε α : Type) := DeclTable → Attempt ε α → Prop

/-- The table after a sequence of attempts: each one that succeeded may replace it. -/
def tableAfter {ε α : Type} (table : DeclTable) (xs : List (Attempt ε α)) : DeclTable :=
  (xs.filter (·.succeeded)).foldl (fun t x => x.next t) table

theorem tableAfter_concat {ε α : Type} (table : DeclTable) (xs : List (Attempt ε α))
    (x : Attempt ε α) : tableAfter table (xs ++ [x]) = x.next (tableAfter table xs) := by
  rw [tableAfter, List.filter_append, List.foldl_append]
  cases hx : x.succeeded with
  | true => rw [List.filter_cons_of_pos hx]; rfl
  | false =>
    rw [List.filter_cons_of_neg (by simp [hx]), Attempt.next_of_not_succeeded hx]
    rfl

/-! ## The system -/

/-- How far a call has come. -/
inductive Stage where
  | arrived
  /-- Waiting for room in the queue. -/
  | offering
  /-- Waiting for the answer. -/
  | waiting
  | returned
  deriving DecidableEq, Repr

/-- Whether a call may still put its update into the queue. -/
def Stage.canSubmit : Stage → Bool
  | arrived | offering => true
  | waiting | returned => false

/-- A call: its update, whether it has been interrupted, how far it has come, and the place where
    the worker leaves the answer. -/
structure Call (ε α : Type) where
  task : Task ε α
  interrupt : Option Interrupt
  stage : Stage
  done : Option (Except ε α)

/-- What the worker is doing; calls are known by their numbers. -/
inductive Loop (ε α : Type) where
  | idle
  /-- Running an update against the table that was published when it was taken. -/
  | running (id : Nat) (seen : DeclTable)
  /-- About to leave an answer. -/
  | delivering (id : Nat) (answer : Except ε α)
  | exited

/-- The updates that have been taken from the queue and not run yet. -/
def Loop.taken {ε α : Type} : Loop ε α → List Nat
  | running id _ => [id]
  | _ => []

/-- What happens in the system. -/
inductive Event (ε α : Type) where
  | submitted (id : Nat)
  /-- An update was run, and what it gave was published. -/
  | executed (id : Nat) (attempt : Attempt ε α)
  | returned (id : Nat) (answer : Except (Failure ε) α)
  | snapshot (table : DeclTable)

/-- The worker with everything around it. -/
structure System (ε α : Type) where
  worker : Worker
  calls : List (Call ε α)
  queue : List Nat
  loop : Loop ε α
  history : List (Event ε α)

/-- The number of updates that the queue has room for. -/
def capacity : Nat := 64

namespace System

variable {ε α : Type}

/-- A system to which nothing has happened. -/
def start (table : DeclTable) : System ε α :=
  ⟨Worker.start table, [], [], .idle, []⟩

/-- The updates of all calls. -/
def tasks (s : System ε α) : List (Task ε α) :=
  s.calls.map (·.task)

/-- Changes a call. -/
def setCall (s : System ε α) (id : Nat) (c : Call ε α) : System ε α :=
  { s with calls := s.calls.set id c }

/-- Adds an event to the history. -/
def record (s : System ε α) (e : Event ε α) : System ε α :=
  { s with history := s.history ++ [e] }

/-- Ends a call. -/
def endCall (s : System ε α) (id : Nat) (c : Call ε α) (answer : Except (Failure ε) α) :
    System ε α :=
  (s.setCall id { c with stage := .returned }).record (.returned id answer)

end System

/-- One step of a caller, of the worker, or of somebody who stops the worker or looks at the
    table. -/
inductive Step {ε α : Type} (recover : Crash → ε) : System ε α → System ε α → Prop
  | call {s} (task : Task ε α) :
      Step recover s { s with calls := s.calls ++ [⟨task, none, .arrived, none⟩] }
  | interrupt {s c} (id : Nat) (why : Interrupt) (hc : s.calls[id]? = some c)
      (hnone : c.interrupt = none) :
      Step recover s (s.setCall id { c with interrupt := some why })
  -- The call is checked once as it enters; an interrupt or a stop a moment later finds it waiting.
  | enter {s c} (id : Nat) (hc : s.calls[id]? = some c) (hstage : c.stage = .arrived)
      (haccept : s.worker.accept c.interrupt = .ok ()) :
      Step recover s (s.setCall id { c with stage := .offering })
  | turnAway {s c r} (id : Nat) (hc : s.calls[id]? = some c) (hstage : c.stage = .arrived)
      (haccept : s.worker.accept c.interrupt = .error r) :
      Step recover s (s.endCall id c (.error (.refused r)))
  | submit {s c} (id : Nat) (hc : s.calls[id]? = some c) (hstage : c.stage = .offering)
      (hroom : s.queue.length < capacity) :
      Step recover s { s with
        calls := s.calls.set id { c with stage := .waiting }
        queue := s.queue ++ [id]
        history := s.history ++ [.submitted id] }
  -- An update that was submitted stays submitted when its caller goes away.
  | giveUp {s c why} (id : Nat) (hc : s.calls[id]? = some c)
      (hstage : c.stage = .offering ∨ c.stage = .waiting) (hwhy : c.interrupt = some why) :
      Step recover s (s.endCall id c (.error (.refused (.interrupted why))))
  | leave {s c} (id : Nat) (hc : s.calls[id]? = some c)
      (hstage : c.stage = .offering ∨ c.stage = .waiting) (hstopped : s.worker.stopped = true) :
      Step recover s (s.endCall id c (.error (.refused .stopped)))
  | collect {s c r} (id : Nat) (hc : s.calls[id]? = some c) (hstage : c.stage = .waiting)
      (hdone : c.done = some r) :
      Step recover s (s.endCall id c (r.mapError .failed))
  -- The worker looks at the table when it takes an update and replaces it when the update ends.
  | take {s id rest} (hloop : s.loop = .idle) (hqueue : s.queue = id :: rest) :
      Step recover s { s with loop := .running id s.worker.table, queue := rest }
  | finish {s id seen c x} (hloop : s.loop = .running id seen) (hc : s.calls[id]? = some c)
      (hx : c.task seen x) :
      Step recover s { s with
        worker := (s.worker.publish (x.result recover)).1
        loop := .delivering id (s.worker.publish (x.result recover)).2
        history := s.history ++ [.executed id x] }
  -- There is room for one answer, and so the worker does not wait for the caller.
  | deliver {s id c r} (hloop : s.loop = .delivering id r) (hc : s.calls[id]? = some c)
      (hempty : c.done = none) :
      Step recover s { s with calls := s.calls.set id { c with done := some r }, loop := .idle }
  | exit {s} (hloop : s.loop = .idle) (hstopped : s.worker.stopped = true) :
      Step recover s { s with loop := .exited }
  | stop {s} : Step recover s { s with worker := s.worker.stop }
  | snapshot {s} : Step recover s (s.record (.snapshot s.worker.table))

/-- Any number of steps. -/
abbrev Run {ε α : Type} (recover : Crash → ε) : System ε α → System ε α → Prop :=
  Relation.ReflTransGen (Step recover)

/-- The states that a system with a given table can get into. -/
def Reachable {ε α : Type} (recover : Crash → ε) (table : DeclTable) (s : System ε α) : Prop :=
  Run recover (.start table) s

/-! ## Calls one at a time -/

section

variable {ε α : Type} (recover : Crash → ε) {s : System ε α}

/-- What an update that returns does when it is run. -/
def Update.task (f : Update ε α) : Task ε α :=
  fun table x => x = .ofResult (f table)

theorem getElem?_set_call {calls : List (Call ε α)} {id : Nat} {c : Call ε α}
    (hc : calls[id]? = some c) (c' : Call ε α) : (calls.set id c')[id]? = some c' :=
  List.getElem?_set_self (List.getElem?_eq_some_iff.mp hc).1

/-- A call arrives, and may have been interrupted before it does anything. -/
theorem run_arrive (s : System ε α) (task : Task ε α) (interrupt : Option Interrupt) :
    ∃ s', Run recover s s' ∧ s'.calls[s.calls.length]? = some ⟨task, interrupt, .arrived, none⟩ ∧
      s'.worker = s.worker ∧ s'.loop = s.loop ∧ s'.queue = s.queue := by
  have hcall : Run recover s { s with calls := s.calls ++ [⟨task, none, .arrived, none⟩] } :=
    .single (.call task)
  have hnew : (s.calls ++ [(⟨task, none, .arrived, none⟩ : Call ε α)])[s.calls.length]?
      = some ⟨task, none, .arrived, none⟩ :=
    List.getElem?_concat_length
  cases interrupt with
  | none => exact ⟨_, hcall, hnew, rfl, rfl, rfl⟩
  | some why =>
    exact ⟨_, hcall.tail (.interrupt _ why hnew rfl), getElem?_set_call hnew _, rfl, rfl, rfl⟩

/-- A call that meets no other is an update of the worker on its own. -/
theorem run_of_update (hloop : s.loop = .idle) (hqueue : s.queue = [])
    (interrupt : Option Interrupt) (f : Update ε α) :
    ∃ s', Run recover s s' ∧ s'.worker = (s.worker.update interrupt f).1 ∧
      s'.loop = .idle ∧ s'.queue = [] ∧
      s'.history.getLast? = some (.returned s.calls.length (s.worker.update interrupt f).2) := by
  obtain ⟨s₁, harrive, hc₁, hworker₁, hloop₁, hqueue₁⟩ := run_arrive recover s f.task interrupt
  rw [update, ← hworker₁]
  rw [hloop] at hloop₁
  rw [hqueue] at hqueue₁
  cases haccept : s₁.worker.accept interrupt with
  | error r =>
    refine ⟨_, harrive.tail (.turnAway _ hc₁ rfl haccept), rfl, hloop₁, hqueue₁, ?_⟩
    exact List.getLast?_concat
  | ok _ =>
    -- The call enters, submits its update, has it run and collects the answer.
    have hc₂ := getElem?_set_call hc₁ ⟨f.task, interrupt, .offering, none⟩
    have hc₃ := getElem?_set_call hc₂ ⟨f.task, interrupt, .waiting, none⟩
    have hroom : s₁.queue.length < capacity := by rw [hqueue₁]; decide
    have hfront : s₁.queue ++ [s.calls.length] = [s.calls.length] := by rw [hqueue₁]; rfl
    have hrun := (((harrive.tail (.enter _ hc₁ rfl haccept)).tail (.submit _ hc₂ rfl hroom)).tail
      (.take hloop₁ hfront)).tail (.finish rfl hc₃ rfl)
    have hc₄ := getElem?_set_call hc₃
      ⟨f.task, interrupt, .waiting, some (s₁.worker.publish (f s₁.worker.table)).2⟩
    rw [Attempt.result_ofResult] at hrun
    refine ⟨_, (hrun.tail (.deliver rfl hc₃ rfl)).tail (.collect _ hc₄ rfl rfl), rfl, rfl, rfl, ?_⟩
    exact List.getLast?_concat

end

end TermVM.Worker
