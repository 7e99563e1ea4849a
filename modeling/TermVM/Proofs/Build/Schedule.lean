/-
  TermVM.Proofs.Build.Schedule

  Batches whose bodies are compiled at the same time.

  The bodies of a batch share a store.  Compiling one takes several turns: its
  key is looked up; if nothing is found there its code is generated, and then
  stored; at last it is checked.  Turns of different bodies interleave in any
  order, and once a body has failed the others need not begin.

  `Step` is one turn of one body, `Executes` the compilation of a batch and
  `Session` that of batches one after another.  `run` takes the bodies in
  order, which is one of the schedules: `session_inOrder`.
-/
import Mathlib.Logic.Relation
import TermVM.Proofs.Build.Basic

open TermVM.Result Relation

namespace TermVM.Build

/-- A declaration with the arity that is reserved for it. -/
abbrev Task := Declaration × UInt32

/-- How far the compilation of a body has come. -/
inductive Stage where
  | waiting
  /-- Nothing was found under its key. -/
  | missed (key : String)
  /-- Its code was generated and is not stored yet. -/
  | generated (key : String) (p : Procedure)
  /-- Its code was found or has been stored. -/
  | ready (p : Procedure) (hit : Bool)
  | ended (result : Except Failure Body)
  /-- It did not begin, because another body had failed. -/
  | skipped

/-- Whether the compilation of a body has begun. -/
def Stage.begun : Stage → Bool
  | waiting | skipped => false
  | _ => true

/-- Whether nothing is left to do for a body. -/
def Stage.settled : Stage → Bool
  | ended _ | skipped => true
  | _ => false

/-- One turn of a body: what it does to the store and how far it comes. -/
inductive Turn (s : Settings) (table : DeclTable) (task : Task) (store : Store) :
    Stage → Store → Stage → Prop where
  | unkeyed {e : Failure} (h : bodyKey s table task.1 = .error e) :
      Turn s table task store .waiting store (.ended (.error e))
  | unread {key : String} {e : Failure} (hkey : bodyKey s table task.1 = .ok key)
      (h : fetch store key task.1 = .error e) :
      Turn s table task store .waiting store (.ended (.error e))
  | hit {key : String} {p : Procedure} (hkey : bodyKey s table task.1 = .ok key)
      (h : fetch store key task.1 = .ok (some p)) :
      Turn s table task store .waiting store (.ready p true)
  | miss {key : String} (hkey : bodyKey s table task.1 = .ok key)
      (h : fetch store key task.1 = .ok none) :
      Turn s table task store .waiting store (.missed key)
  | ungenerated {key : String} {e : Failure}
      (h : generate s table task.1 = .error e) :
      Turn s table task store (.missed key) store (.ended (.error e))
  | generated {key : String} {p : Procedure}
      (h : generate s table task.1 = .ok p) :
      Turn s table task store (.missed key) store (.generated key p)
  | unkept {key : String} {p : Procedure} {e : Failure}
      (h : keep store key task.1 p = .error e) :
      Turn s table task store (.generated key p) store (.ended (.error e))
  | kept {store' : Store} {key : String} {p : Procedure}
      (h : keep store key task.1 p = .ok store') :
      Turn s table task store (.generated key p) store' (.ready p false)
  | finished {p : Procedure} {hit : Bool} :
      Turn s table task store (.ready p hit) store
        (.ended (finish s table task.1 task.2 p hit))

/-- The store and the bodies of a batch in the middle of its compilation. -/
structure Situation where
  store : Store
  bodies : List (Task × Stage)

/-- One step of a batch: some body takes its turn, or does not begin because another has failed. -/
inductive Step (s : Settings) (table : DeclTable) : Situation → Situation → Prop where
  | turn {before after : List (Task × Stage)} {task : Task} {stage stage' : Stage}
      {store store' : Store} (h : Turn s table task store stage store' stage') :
      Step s table ⟨store, before ++ (task, stage) :: after⟩
        ⟨store', before ++ (task, stage') :: after⟩
  | skip {before after : List (Task × Stage)} {task other : Task} {store : Store} {e : Failure}
      (h : (other, .ended (.error e)) ∈ before ++ after) :
      Step s table ⟨store, before ++ (task, .waiting) :: after⟩
        ⟨store, before ++ (task, .skipped) :: after⟩

/-- The bytes that were hashed for the keys of bodies. -/
def Situation.hashed (s : Settings) (table : DeclTable) (x : Situation) : List Bytes :=
  x.bodies.filterMap fun b =>
    if b.2.begun then Fingerprint.keyBytes? b.1.1.value table s.analyzers else none

/-- All bodies of some tasks at the same stage. -/
def allAt (stage : Stage) (ts : List Task) : List (Task × Stage) :=
  ts.map fun task => (task, stage)

/-- A batch is compiled against a table and a store: the bytes it hashes, the store it leaves and
    how it ends.  A batch whose bodies do not all succeed ends with the failure of one of them, and
    leaves in the store what the others have put there. -/
inductive Executes (s : Settings) (store : Store) (table : DeclTable) (batch : List Declaration) :
    List Bytes → Store → Except Failure Outcome → Prop where
  | unreserved {e : Failure} (hreserve : reserve table batch = .error e) :
      Executes s store table batch [] store (.error e)
  | failed {reserved : DeclTable} {final : Situation} {task : Task} {e : Failure}
      (hreserve : reserve table batch = .ok reserved)
      (hsteps : ReflTransGen (Step s reserved) ⟨store, allAt .waiting (tasks batch)⟩ final)
      (hsettled : ∀ b ∈ final.bodies, b.2.settled = true)
      (hfailed : (task, .ended (.error e)) ∈ final.bodies) :
      Executes s store table batch (final.hashed s reserved) final.store (.error e)
  | finished {reserved : DeclTable} {final : Situation} {bodies : List Body}
      (hreserve : reserve table batch = .ok reserved)
      (hsteps : ReflTransGen (Step s reserved) ⟨store, allAt .waiting (tasks batch)⟩ final)
      (hbodies : final.bodies.map (·.2) = bodies.map fun b => .ended (.ok b)) :
      Executes s store table batch (final.hashed s reserved) final.store
        (conclude s reserved bodies)

/-- The table that the next batch is compiled against: a failed batch leaves it as it was. -/
def tableAfter (table : DeclTable) : Except Failure Outcome → DeclTable
  | .ok o => o.table
  | .error _ => table

/-- Batches are compiled one after another: all the bytes they hash, and how each of them ends. -/
inductive Session (s : Settings) :
    Store → DeclTable → List (List Declaration) → List Bytes →
      List (Except Failure Outcome) → Prop where
  | nil (store : Store) (table : DeclTable) : Session s store table [] [] []
  | cons {store store' : Store} {table : DeclTable} {batch : List Declaration}
      {batches : List (List Declaration)} {hashed hashed' : List Bytes}
      {outcome : Except Failure Outcome} {outcomes : List (Except Failure Outcome)}
      (hbatch : Executes s store table batch hashed store' outcome)
      (hrest : Session s store' (tableAfter table outcome) batches hashed' outcomes) :
      Session s store table (batch :: batches) (hashed ++ hashed') (outcome :: outcomes)

/-! ## What a step keeps -/

section

variable {s : Settings} {table : DeclTable} {x y : Situation}

/-- Bodies are never added, dropped or reordered. -/
theorem Step.tasks_eq (h : Step s table x y) : y.bodies.map (·.1) = x.bodies.map (·.1) := by
  cases h with
  | turn h => simp
  | skip h => simp

theorem tasks_of_steps (h : ReflTransGen (Step s table) x y) :
    y.bodies.map (·.1) = x.bodies.map (·.1) := by
  induction h with
  | refl => rfl
  | tail _ hstep ih => exact hstep.tasks_eq.trans ih

theorem map_fst_allAt (stage : Stage) (ts : List Task) : (allAt stage ts).map (·.1) = ts := by
  simp [allAt, Function.comp_def]

/-- A turn starts from a body that has begun, or begins it. -/
theorem Turn.begun {task : Task} {store store' : Store} {stage stage' : Stage}
    (h : Turn s table task store stage store' stage') : stage'.begun = true := by
  cases h <;> rfl

/-- What has been hashed stays hashed. -/
theorem Step.hashed_subset (h : Step s table x y) : x.hashed s table ⊆ y.hashed s table := by
  intro bytes hbytes
  cases h with
  | @turn before after task stage stage' store store' h =>
    simp only [Situation.hashed, List.filterMap_append, List.mem_append] at hbytes ⊢
    refine hbytes.imp_right fun hbytes => ?_
    rw [List.mem_filterMap] at hbytes ⊢
    obtain ⟨b, hb, hkey⟩ := hbytes
    rcases List.mem_cons.mp hb with rfl | hb
    · refine ⟨(task, stage'), List.mem_cons_self, ?_⟩
      rw [if_pos h.begun]
      split at hkey
      · exact hkey
      · cases hkey
    · exact ⟨b, List.mem_cons_of_mem _ hb, hkey⟩
  | skip h => simpa [Situation.hashed, Stage.begun] using hbytes

/-- The bytes of bodies that have begun are among the hashed ones. -/
theorem mem_hashed {b : Task × Stage} {bytes : Bytes} (hb : b ∈ x.bodies)
    (hbegun : b.2.begun = true)
    (hkey : Fingerprint.keyBytes? b.1.1.value table s.analyzers = some bytes) :
    bytes ∈ x.hashed s table := by
  refine List.mem_filterMap.mpr ⟨b, hb, ?_⟩
  rw [if_pos hbegun, hkey]

end

/-! ## Bodies in order -/

section

variable {s : Settings} {table : DeclTable}

/-- Compiling a body at one go is a sequence of its turns. -/
theorem steps_of_compileBody (store : Store) (d : Declaration) (arity : UInt32)
    (before after : List (Task × Stage)) :
    ∃ store', (compileBody s (some store) table d arity).1 = some store' ∧
      ReflTransGen (Step s table) ⟨store, before ++ ((d, arity), .waiting) :: after⟩
        ⟨store', before ++
          ((d, arity), .ended (compileBody s (some store) table d arity).2) :: after⟩ := by
  unfold compileBody bodyCode
  cases hkey : bodyKey s table d with
  | error e => exact ⟨store, rfl, .single (.turn (.unkeyed hkey))⟩
  | ok key =>
    dsimp only
    cases hfetch : fetch store key d with
    | error e => exact ⟨store, rfl, .single (.turn (.unread hkey hfetch))⟩
    | ok found =>
      cases found with
      | some p =>
        exact ⟨store, rfl, .head (.turn (.hit hkey hfetch)) (.single (.turn .finished))⟩
      | none =>
        have hmiss : Step s table ⟨store, before ++ ((d, arity), .waiting) :: after⟩
            ⟨store, before ++ ((d, arity), .missed key) :: after⟩ := .turn (.miss hkey hfetch)
        dsimp only
        cases hgenerate : generate s table d with
        | error e => exact ⟨store, rfl, .head hmiss (.single (.turn (.ungenerated hgenerate)))⟩
        | ok p =>
          have hgenerated : Step s table ⟨store, before ++ ((d, arity), .missed key) :: after⟩
              ⟨store, before ++ ((d, arity), .generated key p) :: after⟩ :=
            .turn (.generated hgenerate)
          dsimp only
          cases hkeep : keep store key d p with
          | error e =>
            exact ⟨store, rfl, .head hmiss (.head hgenerated (.single (.turn (.unkept hkeep))))⟩
          | ok store' =>
            exact ⟨store', rfl, .head hmiss (.head hgenerated
              (.head (.turn (.kept hkeep)) (.single (.turn .finished))))⟩

/-- Behind a failed body no other begins. -/
theorem steps_skip {store : Store} {before : List (Task × Stage)} {task : Task} {e : Failure}
    (h : (task, .ended (.error e)) ∈ before) (ts : List Task) :
    ReflTransGen (Step s table) ⟨store, before ++ allAt .waiting ts⟩
      ⟨store, before ++ allAt .skipped ts⟩ := by
  induction ts generalizing before with
  | nil => exact .refl
  | cons t ts ih =>
    have hrest := @ih (before ++ [(t, .skipped)]) (List.mem_append_left _ h)
    rw [List.append_assoc, List.append_assoc] at hrest
    exact .head (.skip (List.mem_append_left _ h)) hrest

/-- Compiling bodies in order, up to the first that fails, is one of their schedules. -/
theorem steps_of_compileBodies (store : Store) (ts : List Task) (before : List (Task × Stage)) :
    ∃ store' settled, (compileBodies s none table (some store) ts).1 = some store' ∧
      ReflTransGen (Step s table) ⟨store, before ++ allAt .waiting ts⟩
        ⟨store', before ++ settled⟩ ∧
      (∀ b ∈ settled, b.2.settled = true) ∧
      match (compileBodies s none table (some store) ts).2 with
      | .ok bodies => settled.map (·.2) = bodies.map fun b => .ended (.ok b)
      | .error e => ∃ task, (task, .ended (.error e)) ∈ settled := by
  induction ts generalizing store before with
  | nil => exact ⟨store, [], rfl, .refl, by simp, rfl⟩
  | cons task ts ih =>
    obtain ⟨d, arity⟩ := task
    obtain ⟨store', hstore, hbody⟩ :=
      @steps_of_compileBody s table store d arity before (allAt .waiting ts)
    rw [compileBodies]
    generalize compileBody s (some store) table d arity = compiled at hstore hbody
    obtain ⟨_, result⟩ := compiled
    obtain rfl : _ = some store' := hstore
    cases result with
    | error e =>
      -- the first failure ends the loop: all bodies behind it are skipped
      have hskip := @steps_skip s table store' (before ++ [((d, arity), .ended (.error e))])
        (d, arity) e (List.mem_append_right _ List.mem_cons_self) ts
      rw [List.append_assoc, List.append_assoc] at hskip
      refine ⟨store', ((d, arity), .ended (.error e)) :: allAt .skipped ts, rfl,
        hbody.trans hskip, ?_, ⟨(d, arity), List.mem_cons_self⟩⟩
      exact List.forall_mem_cons.mpr ⟨rfl, List.forall_mem_map.mpr fun _ _ => rfl⟩
    | ok b =>
      obtain ⟨store'', settled, hstore', hrest, hsettled, hresult⟩ :=
        ih store' (before ++ [((d, arity), .ended (.ok b))])
      rw [List.append_assoc, List.append_assoc] at hrest
      refine ⟨store'', ((d, arity), .ended (.ok b)) :: settled, hstore', hbody.trans hrest,
        List.forall_mem_cons.mpr ⟨rfl, hsettled⟩, ?_⟩
      dsimp only
      generalize (compileBodies s none table (some store') ts).2 = rest at hresult
      cases rest with
      | error e =>
        obtain ⟨task, htask⟩ := hresult
        exact ⟨task, List.mem_cons_of_mem _ htask⟩
      | ok bodies => exact congrArg (Stage.ended (.ok b) :: ·) hresult

end

/-! ## Batches in order -/

/-- Batches compiled by `run`, one after another, with or without a store: how each of them ends. -/
def inOrder (s : Settings) : Option Store → DeclTable → List (List Declaration) →
    List (Except Failure Outcome)
  | _, _, [] => []
  | store, table, batch :: batches =>
      let r := run s none store table batch
      r.outcome :: inOrder s r.store (tableAfter table r.outcome) batches

/-- The bytes of the keys that the bodies of a batch can have. -/
def keysOf (s : Settings) (table : DeclTable) (batch : List Declaration) : List Bytes :=
  match reserve table batch with
  | .ok reserved => batch.filterMap fun d => Fingerprint.keyBytes? d.value reserved s.analyzers
  | .error _ => []

/-- The bytes of the keys of batches that are compiled in order. -/
def keysInOrder (s : Settings) : Option Store → DeclTable → List (List Declaration) → List Bytes
  | _, _, [] => []
  | store, table, batch :: batches =>
      let r := run s none store table batch
      keysOf s table batch ++ keysInOrder s r.store (tableAfter table r.outcome) batches

section

variable {s : Settings} {table : DeclTable} {batch : List Declaration}

theorem Situation.hashed_subset {x : Situation} {reserved : DeclTable}
    (hreserve : reserve table batch = .ok reserved) (htasks : x.bodies.map (·.1) = tasks batch) :
    x.hashed s reserved ⊆ keysOf s table batch := by
  intro bytes hbytes
  obtain ⟨b, hb, hkey⟩ := List.mem_filterMap.mp hbytes
  have hb : b.1 ∈ tasks batch := htasks ▸ List.mem_map_of_mem hb
  obtain ⟨d, hd, htask⟩ := List.mem_map.mp hb
  rw [keysOf, hreserve]
  refine List.mem_filterMap.mpr ⟨d, hd, ?_⟩
  split at hkey
  · rwa [← htask] at hkey
  · cases hkey

/-- A batch hashes nothing but the bytes of its keys. -/
theorem Executes.hashed_subset {store store' : Store} {hashed : List Bytes}
    {outcome : Except Failure Outcome} (h : Executes s store table batch hashed store' outcome) :
    hashed ⊆ keysOf s table batch := by
  cases h with
  | unreserved hreserve => exact List.nil_subset _
  | failed hreserve hsteps _ _ =>
    exact Situation.hashed_subset hreserve ((tasks_of_steps hsteps).trans (map_fst_allAt ..))
  | finished hreserve hsteps _ =>
    exact Situation.hashed_subset hreserve ((tasks_of_steps hsteps).trans (map_fst_allAt ..))

/-- A batch compiled by `run` with a store follows one of the schedules. -/
theorem executes_run (s : Settings) (store : Store) (table : DeclTable)
    (batch : List Declaration) :
    ∃ hashed store', (run s none (some store) table batch).store = some store' ∧
      Executes s store table batch hashed store' (run s none (some store) table batch).outcome := by
  rw [store_run, outcome_run]
  cases hreserve : reserve table batch with
  | error e => exact ⟨[], store, rfl, .unreserved hreserve⟩
  | ok reserved =>
    obtain ⟨store', settled, hstore, hsteps, hsettled, hresult⟩ :=
      @steps_of_compileBodies s reserved store (tasks batch) []
    refine ⟨Situation.hashed s reserved ⟨store', settled⟩, store', hstore, ?_⟩
    rw [ok_bind]
    generalize (compileBodies s none reserved (some store) (tasks batch)).2 = result at hresult
    cases result with
    | error e =>
      obtain ⟨task, htask⟩ := hresult
      exact .failed hreserve hsteps hsettled htask
    | ok bodies => exact .finished hreserve hsteps hresult

/-- Batches compiled by `run` with a store make up one of the sessions. -/
theorem session_inOrder (s : Settings) (store : Store) (table : DeclTable)
    (batches : List (List Declaration)) :
    ∃ hashed, Session s store table batches hashed (inOrder s (some store) table batches) ∧
      hashed ⊆ keysInOrder s (some store) table batches := by
  induction batches generalizing store table with
  | nil => exact ⟨[], .nil store table, List.nil_subset _⟩
  | cons batch batches ih =>
    obtain ⟨hashed, store', hstore, hbatch⟩ := executes_run s store table batch
    obtain ⟨hashed', hrest, hsubset⟩ :=
      ih store' (tableAfter table (run s none (some store) table batch).outcome)
    refine ⟨hashed ++ hashed', ?_, ?_⟩
    · rw [inOrder, hstore]
      exact .cons hbatch hrest
    · rw [keysInOrder, hstore]
      refine List.append_subset.mpr ⟨?_, ?_⟩
      · exact List.Subset.trans hbatch.hashed_subset (List.subset_append_left ..)
      · exact List.Subset.trans hsubset (List.subset_append_right ..)

end

end TermVM.Build
