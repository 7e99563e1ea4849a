/-
  TermVM.Proofs.Service.Concurrency

  The compile service with many clients.

  Compiling a batch is an update of the worker, and what a client is told is
  made from the answer to the update.  So the service does what its worker does:
  whatever clients there are, and whenever they go away or the service is
  stopped, the published table is what the batches that were compiled make of it
  one after another.
-/
import TermVM.Proofs.Result
import TermVM.Proofs.Worker.Linearization
import TermVM.Service.Basic

namespace TermVM.Service

open Worker Result

/-- What compiling a batch does to the table. -/
def update (v : Service) (batch : List Declaration) : Update Build.Failure Build.Outcome :=
  fun table =>
    (Build.run v.settings none v.store table batch).outcome.map fun o => (some o.table, o)

/-- What a client is told. -/
def told : Except (Worker.Failure Build.Failure) Build.Outcome → Except Failure Compiled
  | .ok o => .ok ⟨o.procedures, o.hits, o.table.size⟩
  | .error e => .error (.error (.ofUpdate e))

theorem compile_eq_update (v : Service) (interrupt : Option Interrupt) {batch : List Declaration}
    (hbatch : batch ≠ []) :
    (v.compile interrupt batch).service.worker = (v.worker.update interrupt (v.update batch)).1 ∧
    (v.compile interrupt batch).answer = told (v.worker.update interrupt (v.update batch)).2 := by
  rw [compile, if_neg (by simpa using hbatch), Worker.update]
  cases v.worker.accept interrupt with
  | error r => exact ⟨rfl, rfl⟩
  | ok _ =>
    rw [update]
    cases hrun : (Build.run v.settings none v.store v.worker.table batch).outcome <;>
      simp only [hrun] <;> exact ⟨rfl, rfl⟩

/-- However many clients compile batches at once, the service gives the account of one batch after
    another; and a client that has the service to itself is answered as `compile` says. -/
theorem compile_linearizable {init : DeclTable} {s : System Build.Failure Build.Outcome}
    (h : Reachable .crash init s) :
    Linearized .crash init s ∧
    (s.loop = .idle → s.queue = [] → ∀ (v : Service) (interrupt : Option Interrupt)
      (batch : List Declaration), v.worker = s.worker → batch ≠ [] →
      ∃ s' answer, Run .crash s s' ∧ s'.worker = (v.compile interrupt batch).service.worker ∧
        s'.history.getLast? = some (.returned s.calls.length answer) ∧
        (v.compile interrupt batch).answer = told answer) := by
  refine ⟨linearized_of_reachable h, fun hloop hqueue v interrupt batch hworker hbatch => ?_⟩
  obtain ⟨hafter, hanswer⟩ := v.compile_eq_update interrupt hbatch
  obtain ⟨s', hrun, hworker', -, -, hlast⟩ :=
    run_of_update .crash hloop hqueue interrupt (v.update batch)
  rw [← hworker] at hworker' hlast
  exact ⟨s', _, hrun, hworker'.trans hafter.symm, hlast, hanswer⟩

/-! ## An example -/

/-- The table with one number, and the outcome of its batch. -/
def oneNumber : Build.Outcome :=
  ⟨⟨[⟨⟨"b", 0, .compiled, 0⟩, some ⟨"b", 0, [.literal 2, .ret]⟩⟩]⟩,
    [⟨"b", 0, [.literal 2, .ret]⟩], 0⟩

/-- The table with a second name for the number, and the outcome of its batch. -/
def twoNames : Build.Outcome :=
  ⟨⟨oneNumber.table.rows ++
      [⟨⟨"a", 0, .compiled, 1⟩, some ⟨"a", 0, [.invoke .invokeGlobal 0, .ret]⟩⟩]⟩,
    [⟨"a", 0, [.invoke .invokeGlobal 0, .ret]⟩], 0⟩

/-- A service with an empty table. -/
def fresh : Service :=
  ⟨.start .empty, .plain, none, 0⟩

theorem update_oneNumber : fresh.update [⟨"b", .nat 2⟩] .empty
    = .ok (some oneNumber.table, oneNumber) := by
  have hrun : (Build.run fresh.settings none fresh.store .empty [⟨"b", .nat 2⟩]).outcome.toOption
      = some oneNumber := by decide +kernel
  rw [update, eq_ok_of_toOption hrun]
  rfl

theorem update_twoNames : fresh.update [⟨"a", .global "b"⟩] oneNumber.table
    = .ok (some twoNames.table, twoNames) := by
  have hrun : (Build.run fresh.settings none fresh.store oneNumber.table
      [⟨"a", .global "b"⟩]).outcome.toOption = some twoNames := by decide +kernel
  rw [update, eq_ok_of_toOption hrun]
  rfl

/-- The first client's batch uses a name that only the second client's batch declares, and the third
    client's update crashes.  The second client is first in the queue and goes away while its batch
    is compiled; the service is stopped while the crash is recovered from. -/
theorem threeClients_linearized : ∃ s : System Build.Failure Build.Outcome,
    Reachable .crash .empty s ∧ Linearized .crash .empty s ∧
    s.history = [.submitted 1, .submitted 0, .submitted 2,
      .returned 1 (.error (.refused (.interrupted .cancelled))),
      .executed 1 (.gave (some oneNumber.table) oneNumber), .snapshot oneNumber.table,
      .executed 0 (.gave (some twoNames.table) twoNames), .returned 0 (.ok twoNames),
      .executed 2 (.panicked (.text "broken")), .returned 2 (.error (.refused .stopped)),
      .snapshot twoNames.table] ∧
    s.worker.table = twoNames.table := by
  have hfirst : (fresh.update [⟨"a", .global "b"⟩]).task oneNumber.table
      (.gave (some twoNames.table) twoNames) := by
    rw [Update.task, update_twoNames]
    rfl
  have hsecond : (fresh.update [⟨"b", .nat 2⟩]).task .empty
      (.gave (some oneNumber.table) oneNumber) := by
    rw [Update.task, update_oneNumber]
    rfl
  have h : Reachable .crash .empty (.start .empty : System Build.Failure Build.Outcome) := .refl
  have h := h.tail (.call (fresh.update [⟨"a", .global "b"⟩]).task)
  have h := h.tail (.call (fresh.update [⟨"b", .nat 2⟩]).task)
  have h := h.tail (.call fun _ x => x = .panicked (.text "broken"))
  have h := (h.tail (.enter 1 rfl rfl rfl)).tail (.submit 1 rfl rfl (by decide))
  have h := (h.tail (.enter 0 rfl rfl rfl)).tail (.submit 0 rfl rfl (by decide))
  have h := (h.tail (.enter 2 rfl rfl rfl)).tail (.submit 2 rfl rfl (by decide))
  -- The second client's batch is compiled, although the client has gone.
  have h := h.tail (.take rfl rfl)
  have h := (h.tail (.interrupt 1 .cancelled rfl rfl)).tail (.giveUp 1 rfl (.inr rfl) rfl)
  have h := ((h.tail (.finish rfl rfl hsecond)).tail .snapshot).tail (.deliver rfl rfl rfl)
  have h := ((h.tail (.take rfl rfl)).tail (.finish rfl rfl hfirst)).tail (.deliver rfl rfl rfl)
  have h := h.tail (.collect 0 rfl rfl rfl)
  have h := ((h.tail (.take rfl rfl)).tail (.finish rfl rfl rfl)).tail .stop
  have h := ((h.tail (.leave 2 rfl (.inr rfl) rfl)).tail (.deliver rfl rfl rfl)).tail (.exit rfl rfl)
  have h := h.tail .snapshot
  exact ⟨_, h, (compile_linearizable h).1, rfl, rfl⟩

end TermVM.Service
