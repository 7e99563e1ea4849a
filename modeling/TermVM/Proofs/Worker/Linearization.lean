/-
  TermVM.Proofs.Worker.Linearization

  The worker's updates one after another.

  The executions in the history of a system are a sequential account of it: each
  update that was submitted is run at most once and in the order of submission,
  against the table that the ones before it left, and that table is what anybody
  sees who looks at it in between.  An answer is the answer of the caller's own
  update, and it is told only after the update has been run.

  `Consistent` relates the history to what is on its way: the queue, the update
  that is being run and the answers that have not been collected.
-/
import TermVM.Proofs.Worker.System

namespace TermVM.Worker

variable {ε α : Type} {recover : Crash → ε} {init : DeclTable}

/-! ## Histories -/

/-- The update that an event submits. -/
def Event.submission? : Event ε α → Option Nat
  | submitted id => some id
  | _ => none

/-- The update that an event runs, and how it came out. -/
def Event.execution? : Event ε α → Option (Nat × Attempt ε α)
  | executed id x => some (id, x)
  | _ => none

/-- The updates that were submitted, in order. -/
def submissions (history : List (Event ε α)) : List Nat :=
  history.filterMap Event.submission?

/-- The updates that were run, in order. -/
def executions (history : List (Event ε α)) : List (Nat × Attempt ε α) :=
  history.filterMap Event.execution?

/-- The table that the updates in a history leave. -/
def tableOf (init : DeclTable) (history : List (Event ε α)) : DeclTable :=
  tableAfter init ((executions history).map (·.2))

section

variable (history : List (Event ε α)) (id : Nat) (x : Attempt ε α)

theorem submissions_concat (e : Event ε α) :
    submissions (history ++ [e]) = submissions history ++ e.submission?.toList := by
  cases e <;> simp [submissions, Event.submission?]

theorem executions_concat (e : Event ε α) :
    executions (history ++ [e]) = executions history ++ e.execution?.toList := by
  cases e <;> simp [executions, Event.execution?]

theorem tableOf_executed :
    tableOf init (history ++ [.executed id x]) = x.next (tableOf init history) := by
  rw [tableOf, executions_concat, List.map_append]
  exact tableAfter_concat init _ x

end

theorem mem_executions_concat {history : List (Event ε α)} {p : Nat × Attempt ε α}
    (h : p ∈ executions history) (e : Event ε α) : p ∈ executions (history ++ [e]) := by
  rw [executions_concat]
  exact List.mem_append_left _ h

/-- An event is as it should be after what happened before it. -/
def Justified (recover : Crash → ε) (init : DeclTable) (tasks : List (Task ε α))
    (before : List (Event ε α)) : Event ε α → Prop
  | .submitted id => id ∉ submissions before
  | .executed id x => ∃ task, tasks[id]? = some task ∧ task (tableOf init before) x
  | .returned id answer => ∀ r : Except ε α, answer = r.mapError .failed →
      ∃ x, (id, x) ∈ executions before ∧ x.answer recover = r
  | .snapshot table => table = tableOf init before

/-- Every event of a history is justified. -/
def Sound (recover : Crash → ε) (init : DeclTable) (tasks : List (Task ε α))
    (history : List (Event ε α)) : Prop :=
  ∀ before e after, history = before ++ e :: after → Justified recover init tasks before e

theorem Justified.mono {tasks tasks' : List (Task ε α)} {before : List (Event ε α)} {e : Event ε α}
    (h : Justified recover init tasks before e) (htasks : tasks <+: tasks') :
    Justified recover init tasks' before e := by
  cases e with
  | executed id x =>
    obtain ⟨task, htask, hx⟩ := h
    obtain ⟨more, rfl⟩ := htasks
    exact ⟨task, List.getElem?_append_left (List.getElem?_eq_some_iff.mp htask).1 ▸ htask, hx⟩
  | _ => exact h

theorem Sound.concat {tasks : List (Task ε α)} {history : List (Event ε α)} {e : Event ε α}
    (h : Sound recover init tasks history) (he : Justified recover init tasks history e) :
    Sound recover init tasks (history ++ [e]) := by
  intro before e' after heq
  -- The event is the new one if nothing comes after it.
  rcases List.eq_nil_or_concat after with rfl | ⟨after, last, rfl⟩
  · obtain ⟨rfl, hlast⟩ := List.append_inj' heq rfl
    cases hlast
    exact he
  · rw [List.concat_eq_append, ← List.cons_append, ← List.append_assoc] at heq
    exact h before e' after (List.append_inj' heq rfl).1

/-! ## Consistency -/

/-- The history of a system agrees with its state. -/
structure Consistent (recover : Crash → ε) (init : DeclTable) (s : System ε α) : Prop where
  sound : Sound recover init s.tasks s.history
  table : s.worker.table = tableOf init s.history
  /-- What was submitted has been run, is being run or is in the queue. -/
  order : submissions s.history
    = (executions s.history).map (·.1) ++ (s.loop.taken ++ s.queue)
  distinct : (submissions s.history).Nodup
  /-- A call that has submitted its update cannot do so again. -/
  past : ∀ id ∈ submissions s.history, ∃ c, s.calls[id]? = some c ∧ c.stage.canSubmit = false
  /-- Nobody but the worker replaces the table. -/
  seen : ∀ id table, s.loop = .running id table → table = s.worker.table
  answering : ∀ id r, s.loop = .delivering id r →
    ∃ x, (id, x) ∈ executions s.history ∧ x.answer recover = r
  answered : ∀ id c r, s.calls[id]? = some c → c.done = some r →
    ∃ x, (id, x) ∈ executions s.history ∧ x.answer recover = r

namespace Consistent

variable {s : System ε α} {id : Nat} {c : Call ε α}

theorem start : Consistent recover init (.start init : System ε α) where
  sound _ _ _ h := by simp [System.start] at h
  table := rfl
  order := rfl
  distinct := List.nodup_nil
  past _ h := absurd h List.not_mem_nil
  seen _ _ h := by cases h
  answering _ _ h := by cases h
  answered _ _ _ h := by cases h

/-- A call goes on, without another update, without going back to where it could submit its update,
    and with no answer but one that an execution gave. -/
theorem setCall (h : Consistent recover init s) (hc : s.calls[id]? = some c) {c' : Call ε α}
    (htask : c'.task = c.task)
    (hstage : c.stage.canSubmit = false → c'.stage.canSubmit = false)
    (hdone : ∀ r, c'.done = some r → c.done = some r ∨
      ∃ x, (id, x) ∈ executions s.history ∧ x.answer recover = r) :
    Consistent recover init (s.setCall id c') := by
  have hlt : id < s.calls.length := (List.getElem?_eq_some_iff.mp hc).1
  have hget (id' : Nat) :
      (s.setCall id c').calls[id']? = if id = id' then some c' else s.calls[id']? := by
    rw [System.setCall, List.getElem?_set, if_pos hlt]
  have htasks : (s.setCall id c').tasks = s.tasks := by
    refine List.ext_getElem? fun id' => ?_
    rw [System.tasks, System.tasks, List.getElem?_map, List.getElem?_map, hget]
    by_cases hid : id = id'
    · subst hid
      rw [if_pos rfl, hc, Option.map_some, Option.map_some, htask]
    · rw [if_neg hid]
  refine { h with sound := ?_, past := fun id' hid' => ?_, answered := fun id' c'' r hc'' hr => ?_ }
  · rw [htasks]
    exact h.sound
  · obtain ⟨c₀, hc₀, hpast⟩ := h.past id' hid'
    rw [hget]
    by_cases hid : id = id'
    · subst hid
      obtain rfl : c = c₀ := Option.some.inj (hc.symm.trans hc₀)
      exact ⟨c', if_pos rfl, hstage hpast⟩
    · exact ⟨c₀, (if_neg hid).trans hc₀, hpast⟩
  · rw [hget] at hc''
    by_cases hid : id = id'
    · subst hid
      rw [if_pos rfl] at hc''
      cases hc''
      rcases hdone r hr with hr | hexecuted
      · exact h.answered id c r hc hr
      · exact hexecuted
    · rw [if_neg hid] at hc''
      exact h.answered id' c'' r hc'' hr

/-- An event that neither submits nor runs an update. -/
theorem record (h : Consistent recover init s) {e : Event ε α} (hsubmission : e.submission? = none)
    (hexecution : e.execution? = none) (he : Justified recover init s.tasks s.history e) :
    Consistent recover init (s.record e) := by
  have hsubmissions : submissions (s.record e).history = submissions s.history := by
    rw [System.record, submissions_concat, hsubmission, Option.toList_none, List.append_nil]
  have hexecutions : executions (s.record e).history = executions s.history := by
    rw [System.record, executions_concat, hexecution, Option.toList_none, List.append_nil]
  constructor
  · exact h.sound.concat he
  · rw [tableOf, hexecutions]
    exact h.table
  · rw [hsubmissions, hexecutions]
    exact h.order
  · rw [hsubmissions]
    exact h.distinct
  · rw [hsubmissions]
    exact h.past
  · exact h.seen
  · rw [hexecutions]
    exact h.answering
  · rw [hexecutions]
    exact h.answered

/-- A call ends. -/
theorem endCall (h : Consistent recover init s) (hc : s.calls[id]? = some c)
    {answer : Except (Failure ε) α}
    (hanswer : ∀ r : Except ε α, answer = r.mapError .failed →
      ∃ x, (id, x) ∈ executions s.history ∧ x.answer recover = r) :
    Consistent recover init (s.endCall id c answer) := by
  have hcall : Consistent recover init (s.setCall id { c with stage := .returned }) :=
    h.setCall hc rfl (fun _ => rfl) fun _ hr => .inl hr
  exact hcall.record rfl rfl hanswer

theorem endCall_refused (h : Consistent recover init s) (hc : s.calls[id]? = some c) (r : Refusal) :
    Consistent recover init (s.endCall id c (.error (.refused r))) := by
  refine h.endCall hc fun r' hr' => ?_
  cases r' <;> cases hr'

theorem call (h : Consistent recover init s) (task : Task ε α) :
    Consistent recover init
      { s with calls := s.calls ++ [⟨task, none, .arrived, none⟩] } := by
  refine { h with sound := ?_, past := fun id' hid' => ?_, answered := fun id' c r hc hr => ?_ }
  · refine fun before e after heq => (h.sound before e after heq).mono ?_
    exact (List.prefix_append s.calls _).map Call.task
  · obtain ⟨c, hc, hpast⟩ := h.past id' hid'
    exact ⟨c, List.getElem?_append_left (List.getElem?_eq_some_iff.mp hc).1 ▸ hc, hpast⟩
  · rcases Nat.lt_or_ge id' s.calls.length with hlt | hge
    · rw [List.getElem?_append_left hlt] at hc
      exact h.answered id' c r hc hr
    · -- The new call has no answer yet.
      rw [List.getElem?_append_right hge] at hc
      obtain rfl := List.mem_singleton.mp (List.mem_of_getElem? hc)
      cases hr

theorem submit (h : Consistent recover init s) (hc : s.calls[id]? = some c)
    (hstage : c.stage = .offering) :
    Consistent recover init { s with
      calls := s.calls.set id { c with stage := .waiting }
      queue := s.queue ++ [id]
      history := s.history ++ [.submitted id] } := by
  have hcall : Consistent recover init (s.setCall id { c with stage := .waiting }) :=
    h.setCall hc rfl (fun _ => rfl) fun _ hr => .inl hr
  have hwaiting : (s.calls.set id { c with stage := .waiting })[id]?
      = some { c with stage := .waiting } :=
    getElem?_set_call hc _
  -- The call could still submit its update, so it has not done so.
  have hnew : id ∉ submissions s.history := by
    intro hmem
    obtain ⟨c₀, hc₀, hpast⟩ := h.past id hmem
    obtain rfl : c = c₀ := Option.some.inj (hc.symm.trans hc₀)
    rw [hstage] at hpast
    cases hpast
  have hsubmissions : submissions (s.history ++ [.submitted id]) = submissions s.history ++ [id] :=
    submissions_concat _ _
  have hexecutions : executions (s.history ++ [.submitted id]) = executions s.history :=
    (executions_concat _ _).trans (List.append_nil _)
  constructor
  case sound => exact hcall.sound.concat hnew
  case table =>
    rw [tableOf, hexecutions]
    exact h.table
  case order =>
    rw [hsubmissions, hexecutions, h.order, List.append_assoc, List.append_assoc]
  case distinct =>
    rw [hsubmissions]
    exact List.nodup_append.mpr ⟨h.distinct, List.pairwise_singleton _ id, fun a ha b hb hab =>
      hnew (List.mem_singleton.mp hb ▸ hab ▸ ha)⟩
  case past =>
    intro id' hid'
    rw [hsubmissions, List.mem_append, List.mem_singleton] at hid'
    rcases hid' with hold | rfl
    · exact hcall.past id' hold
    · exact ⟨_, hwaiting, rfl⟩
  case seen => exact h.seen
  case answering =>
    rw [hexecutions]
    exact h.answering
  case answered =>
    rw [hexecutions]
    exact hcall.answered

theorem take (h : Consistent recover init s) {rest : List Nat} (hloop : s.loop = .idle)
    (hqueue : s.queue = id :: rest) :
    Consistent recover init { s with loop := .running id s.worker.table, queue := rest } := by
  refine { h with order := ?_, seen := ?_, answering := nofun }
  · -- The update moves from the queue to what was taken.
    rw [h.order, hloop, hqueue]
    rfl
  · intro id' table hrunning
    cases hrunning
    rfl

theorem finish (h : Consistent recover init s) {seen : DeclTable} {x : Attempt ε α}
    (hloop : s.loop = .running id seen) (hc : s.calls[id]? = some c) (hx : c.task seen x) :
    Consistent recover init { s with
      worker := (s.worker.publish (x.result recover)).1
      loop := .delivering id (s.worker.publish (x.result recover)).2
      history := s.history ++ [.executed id x] } := by
  have hsubmissions : submissions (s.history ++ [.executed id x]) = submissions s.history :=
    (submissions_concat _ _).trans (List.append_nil _)
  have hexecutions : executions (s.history ++ [.executed id x]) = executions s.history ++ [(id, x)] :=
    executions_concat _ _
  have htask : s.tasks[id]? = some c.task := by
    rw [System.tasks, List.getElem?_map, hc, Option.map_some]
  -- The table that the worker looked at is still the one that is published.
  rw [h.seen id seen hloop, h.table] at hx
  rw [Attempt.publish_result]
  constructor
  case sound => exact h.sound.concat ⟨c.task, htask, hx⟩
  case table => rw [tableOf_executed, h.table]
  case order =>
    -- The update moves from what was taken to what was run.
    rw [hsubmissions, hexecutions, h.order, hloop, List.map_append, List.append_assoc]
    rfl
  case distinct =>
    rw [hsubmissions]
    exact h.distinct
  case past =>
    rw [hsubmissions]
    exact h.past
  case seen => nofun
  case answering =>
    intro id' r hdelivering
    cases hdelivering
    exact ⟨x, hexecutions ▸ List.mem_append_right _ (List.mem_singleton.mpr rfl), rfl⟩
  case answered =>
    intro id' c' r hc' hr
    obtain ⟨y, hy, hanswer⟩ := h.answered id' c' r hc' hr
    exact ⟨y, mem_executions_concat hy _, hanswer⟩

/-- The worker rests when it has nothing in hand. -/
theorem rest (h : Consistent recover init s) (htaken : s.loop.taken = []) {loop : Loop ε α}
    (hrest : loop = .idle ∨ loop = .exited) : Consistent recover init { s with loop := loop } := by
  rcases hrest with rfl | rfl
  · refine { h with order := ?_, seen := nofun, answering := nofun }
    rw [h.order, htaken]
    rfl
  · refine { h with order := ?_, seen := nofun, answering := nofun }
    rw [h.order, htaken]
    rfl

theorem deliver (h : Consistent recover init s) {r : Except ε α}
    (hloop : s.loop = .delivering id r) (hc : s.calls[id]? = some c) :
    Consistent recover init
      { s with calls := s.calls.set id { c with done := some r }, loop := .idle } := by
  have hcall : Consistent recover init (s.setCall id { c with done := some r }) := by
    refine h.setCall hc rfl (fun hpast => hpast) fun r' hr' => ?_
    cases hr'
    exact .inr (h.answering id r hloop)
  exact hcall.rest (by rw [System.setCall, hloop]; rfl) (.inl rfl)

theorem collect (h : Consistent recover init s) {r : Except ε α} (hc : s.calls[id]? = some c)
    (hdone : c.done = some r) : Consistent recover init (s.endCall id c (r.mapError .failed)) := by
  refine h.endCall hc fun r' hr' => ?_
  obtain rfl : r = r' := by
    cases r <;> cases r' <;> cases hr' <;> rfl
  exact h.answered id c r hc hdone

/-- Every step keeps the history in agreement with the state. -/
theorem step (h : Consistent recover init s) {s' : System ε α} (hstep : Step recover s s') :
    Consistent recover init s' := by
  cases hstep with
  | call task => exact h.call task
  | interrupt id why hc hnone => exact h.setCall hc rfl (fun hpast => hpast) fun _ hr => .inl hr
  | enter id hc hstage haccept =>
    refine h.setCall hc rfl (fun hpast => ?_) fun _ hr => .inl hr
    rw [hstage] at hpast
    cases hpast
  | turnAway id hc hstage haccept => exact h.endCall_refused hc _
  | submit id hc hstage hroom => exact h.submit hc hstage
  | giveUp id hc hstage hwhy => exact h.endCall_refused hc _
  | leave id hc hstage hstopped => exact h.endCall_refused hc _
  | collect id hc hstage hdone => exact h.collect hc hdone
  | take hloop hqueue => exact h.take hloop hqueue
  | finish hloop hc hx => exact h.finish hloop hc hx
  | deliver hloop hc hempty => exact h.deliver hloop hc
  | exit hloop hstopped => exact h.rest (by rw [hloop]; rfl) (.inr rfl)
  | stop => exact { h with }
  | snapshot => exact h.record rfl rfl h.table

/-- The history of a system always agrees with its state. -/
theorem of_reachable (h : Reachable recover init s) : Consistent recover init s := by
  induction h with
  | refl => exact start
  | tail _ hstep ih => exact ih.step hstep

end Consistent

/-! ## Looking back -/

theorem Step.history_eq {s s' : System ε α} (h : Step recover s s') :
    s'.history = s.history ∨ ∃ e, s'.history = s.history ++ [e] := by
  cases h with
  | call | interrupt | enter | take | deliver | exit | stop => exact .inl rfl
  | _ => exact .inr ⟨_, rfl⟩

/-- A system has been through every part of its history. -/
theorem exists_moment {s : System ε α} (h : Reachable recover init s) {before : List (Event ε α)}
    (hbefore : before <+: s.history) :
    ∃ s₀, Reachable recover init s₀ ∧ Run recover s₀ s ∧ s₀.history = before := by
  induction h with
  | refl => exact ⟨.start init, .refl, .refl, (List.prefix_nil.mp hbefore).symm⟩
  | @tail s s' hrun hstep ih =>
    -- Either the step is the last one that matters, or the moment is before it.
    have hwhole : before = s'.history ∨ before <+: s.history := by
      rcases hstep.history_eq with heq | ⟨e, heq⟩
      · exact .inr (heq ▸ hbefore)
      · exact (List.prefix_concat_iff.mp (heq ▸ hbefore)).imp (fun h => h.trans heq.symm) id
    rcases hwhole with rfl | hbefore
    · exact ⟨s', hrun.tail hstep, .refl, rfl⟩
    · obtain ⟨s₀, hreach, hrest, hhistory⟩ := ih hbefore
      exact ⟨s₀, hreach, hrest.tail hstep, hhistory⟩

theorem append_of_mem_executions {history : List (Event ε α)} {id : Nat} {x : Attempt ε α}
    (h : (id, x) ∈ executions history) :
    ∃ earlier later, history = earlier ++ .executed id x :: later := by
  obtain ⟨e, he, hexecuted⟩ := List.mem_filterMap.mp h
  cases e with
  | executed id' x' =>
    cases hexecuted
    exact List.append_of_mem he
  | _ => cases hexecuted

/-- What has happened in a system could have happened one update at a time. -/
structure Linearized (recover : Crash → ε) (init : DeclTable) (s : System ε α) : Prop where
  /-- No update is run twice. -/
  once : ((executions s.history).map (·.1)).Nodup
  /-- What has been run are the first updates that were submitted, in the same order. -/
  order : (executions s.history).map (·.1) <+: submissions s.history
  /-- The published table is what the successful updates make of the first one. -/
  published : s.worker.table = tableOf init s.history
  /-- Each update was run against the table that the ones before it left. -/
  executed : ∀ before id x after, s.history = before ++ .executed id x :: after →
    ∃ task, s.tasks[id]? = some task ∧ task (tableOf init before) x
  /-- Who looks at the table sees what the updates so far have left. -/
  snapshots : ∀ before table after, s.history = before ++ .snapshot table :: after →
    table = tableOf init before
  /-- A value that was returned is the one that the caller's own update gave, and there was a moment
      before, right after the update was run, at which the table that it gave was published. -/
  returned : ∀ before id v after, s.history = before ++ .returned id (.ok v) :: after →
    ∃ earlier next later s₀, before = earlier ++ .executed id (.gave next v) :: later ∧
      Reachable recover init s₀ ∧ Run recover s₀ s ∧
      s₀.history = earlier ++ [.executed id (.gave next v)] ∧
      s₀.worker.table = next.getD (tableOf init earlier)

theorem linearized_of_reachable {s : System ε α} (h : Reachable recover init s) :
    Linearized recover init s := by
  have hconsistent := Consistent.of_reachable h
  have horder : (executions s.history).map (·.1) <+: submissions s.history := by
    rw [hconsistent.order]
    exact List.prefix_append _ _
  constructor
  case once => exact hconsistent.distinct.sublist horder.sublist
  case order => exact horder
  case published => exact hconsistent.table
  case executed => exact fun before id x after heq => hconsistent.sound before _ after heq
  case snapshots => exact fun before table after heq => hconsistent.sound before _ after heq
  case returned =>
    intro before id v after heq
    obtain ⟨x, hx, hanswer⟩ := hconsistent.sound before _ after heq (.ok v) rfl
    obtain ⟨next, rfl⟩ := Attempt.eq_gave_of_answer recover hanswer
    obtain ⟨earlier, later, rfl⟩ := append_of_mem_executions hx
    have hbefore : earlier ++ [.executed id (.gave next v)] <+: s.history := by
      rw [heq]
      exact ⟨later ++ .returned id (.ok v) :: after, by simp⟩
    obtain ⟨s₀, hreach, hrest, hhistory⟩ := exists_moment h hbefore
    refine ⟨earlier, next, later, s₀, rfl, hreach, hrest, hhistory, ?_⟩
    rw [(Consistent.of_reachable hreach).table, hhistory, tableOf_executed]
    rfl

end TermVM.Worker
