/-
  TermVM.Proofs.Build.Basic

  What it takes for a batch to compile.

  Without a store a body is compiled by itself (`bodyAlone`), so a batch
  compiles when its names are distinct and can be reserved, every body compiles
  against the reserved table, the traces can be written and the code can be
  installed: `run_eq_ok_iff`.  Later proofs look at these parts and not at the
  loop over the bodies.
-/
import Mathlib.Data.List.Forall2
import TermVM.Build
import TermVM.Proofs.DeclTable.Stability

open TermVM.Result

namespace TermVM.Build

variable {s : Settings} {table : DeclTable} {d : Declaration} {arity : UInt32} {b : Body}

/-! ## Bodies -/

theorem generate_eq_ok {p : Procedure} :
    generate s table d = .ok p ↔
      Codegen.compileProcedure ⟨table, s.analyzers⟩ d.name d.value = .ok p :=
  mapError_eq_ok

/-- A procedure as it is installed. -/
def Settings.optimized (s : Settings) (table : DeclTable) (p : Procedure) : Procedure :=
  match s.optimizer with
  | some f => { p with code := f table p.code }
  | none => p

theorem Settings.optimized_of_none (h : s.optimizer = none) (p : Procedure) :
    s.optimized table p = p := by
  rw [optimized, h]

/-- Verification of a procedure, if it is asked for. -/
def Settings.check (s : Settings) (table : DeclTable) (p : Procedure) : Except Failure Unit :=
  if s.verify then
    match Verify.analyze table p with
    | .ok _ => .ok ()
    | .error e => .error (.ofVerify e)
  else .ok ()

theorem Settings.check_eq_ok {p : Procedure} :
    s.check table p = .ok () ↔ (s.verify = true → ∃ a, Verify.analyze table p = .ok a) := by
  unfold check
  cases s.verify with
  | false => simp
  | true => cases Verify.analyze table p <;> simp

theorem finish_eq (p : Procedure) (hit : Bool) :
    finish s table d arity p hit =
      if p.arity ≠ arity then .error (.arity d.name arity p.arity)
      else (s.check table (s.optimized table p)).map fun _ => ⟨p, s.optimized table p, hit⟩ := by
  unfold finish Settings.check Settings.optimized
  split
  · rfl
  · cases s.verify with
    | false => rfl
    | true =>
      cases s.optimizer with
      | none =>
        dsimp only
        cases Verify.analyze table p <;> rfl
      | some f =>
        dsimp only
        cases Verify.analyze table { p with code := f table p.code } <;> rfl

/-- A body is finished when its code has the reserved arity and, if asked for, passes
    verification. -/
theorem finish_eq_ok {p : Procedure} {hit : Bool} :
    finish s table d arity p hit = .ok b ↔
      p.arity = arity ∧
        (s.verify = true → ∃ a, Verify.analyze table (s.optimized table p) = .ok a) ∧
        ⟨p, s.optimized table p, hit⟩ = b := by
  rw [finish_eq, ← Settings.check_eq_ok]
  by_cases harity : p.arity = arity
  · rw [if_neg (not_not_intro harity)]
    cases s.check table (s.optimized table p) <;> simp [Except.map, harity]
  · simp [harity]

/-- What a body compiles to when there is no store. -/
def bodyAlone (s : Settings) (table : DeclTable) (d : Declaration) (arity : UInt32) :
    Except Failure Body := do
  finish s table d arity (← generate s table d) false

theorem compileBody_none (s : Settings) (table : DeclTable) (d : Declaration) (arity : UInt32) :
    compileBody s none table d arity = (none, bodyAlone s table d arity) := by
  unfold compileBody bodyCode bodyAlone
  cases generate s table d <;> rfl

theorem bodyAlone_eq_ok :
    bodyAlone s table d arity = .ok b ↔
      ∃ p, generate s table d = .ok p ∧ finish s table d arity p false = .ok b :=
  bind_eq_ok

/-- Without a store the bodies of a list are compiled each by itself. -/
theorem compileBodies_eq_ok {interrupt : Option Interrupt} {tasks : List (Declaration × UInt32)}
    {bs : List Body} :
    (compileBodies s interrupt table none tasks).2 = .ok bs ↔
      (interrupt = none ∨ tasks = []) ∧
        List.Forall₂ (fun task b => bodyAlone s table task.1 task.2 = .ok b) tasks bs := by
  induction tasks generalizing interrupt bs with
  | nil => cases bs <;> simp [compileBodies]
  | cons task tasks ih =>
    obtain ⟨d, arity⟩ := task
    cases interrupt with
    | some why => simp [compileBodies]
    | none =>
      rw [compileBodies, compileBody_none]
      cases hfirst : bodyAlone s table d arity with
      | error e => cases bs <;> simp [hfirst]
      | ok b =>
        show (compileBodies s none table none tasks).2.map (b :: ·) = .ok bs ↔ _
        cases hrest : (compileBodies s none table none tasks).2 with
        | error e =>
          -- no list of bodies is what the rest compiles to
          have hnone : ∀ rest, ¬List.Forall₂ (fun task b => bodyAlone s table task.1 task.2 = .ok b)
              tasks rest := by
            intro rest hrest'
            rw [ih.mpr ⟨.inl rfl, hrest'⟩] at hrest
            cases hrest
          cases bs <;> simp [Except.map, hnone]
        | ok rest =>
          have hrest' := (ih.mp hrest).2
          cases bs with
          | nil => simp [Except.map]
          | cons b' bs =>
            have hiff := @ih none bs
            simp only [hrest, true_or, true_and, Except.ok.injEq] at hiff
            simp [Except.map, hfirst, ← hiff]

/-- Without a store, none is left. -/
theorem compileBodies_none {interrupt : Option Interrupt} {tasks : List (Declaration × UInt32)} :
    (compileBodies s interrupt table none tasks).1 = none := by
  induction tasks generalizing interrupt with
  | nil => rfl
  | cons task tasks ih =>
    obtain ⟨d, arity⟩ := task
    cases interrupt with
    | some why => rfl
    | none =>
      rw [compileBodies, compileBody_none]
      cases bodyAlone s table d arity with
      | error e => rfl
      | ok b => exact ih

/-! ## Batches -/

/-- What a batch asks for: every declaration with the arity that is reserved for it. -/
def tasks (batch : List Declaration) : List (Declaration × UInt32) :=
  batch.map fun d => (d, UInt32.ofNat d.value.arity)

theorem reserve_eq_ok {batch : List Declaration} {reserved : DeclTable} :
    reserve table batch = .ok reserved ↔
      firstRepeat? [] (batch.map (·.name)) = none ∧
        table.reserve (reservations batch) = .ok reserved := by
  unfold reserve
  cases firstRepeat? [] (batch.map (·.name)) with
  | some name => simp
  | none => simp

/-- A list without a first repetition repeats nothing. -/
theorem nodup_of_firstRepeat? {seen ns : List String} (h : firstRepeat? seen ns = none) :
    ns.Nodup ∧ ∀ n ∈ ns, n ∉ seen := by
  induction ns generalizing seen with
  | nil => simp
  | cons n ns ih =>
    unfold firstRepeat? at h
    split at h
    · cases h
    · next hnew =>
      obtain ⟨hnodup, hfresh⟩ := ih h
      refine ⟨List.nodup_cons.mpr ⟨fun hn => hfresh n hn List.mem_cons_self, hnodup⟩, ?_⟩
      intro m hm
      rcases List.mem_cons.mp hm with rfl | hm
      · exact hnew
      · exact fun hseen => hfresh m hm (List.mem_cons_of_mem n hseen)

/-- The end of a batch whose bodies have been compiled. -/
def conclude (s : Settings) (reserved : DeclTable) (bodies : List Body) : Except Failure Outcome :=
  match (trace s reserved bodies).2 with
  | .error e => .error e
  | .ok () => install reserved bodies

theorem conclude_eq_ok {reserved : DeclTable} {bodies : List Body} {o : Outcome} :
    conclude s reserved bodies = .ok o ↔
      (trace s reserved bodies).2 = .ok () ∧ install reserved bodies = .ok o := by
  unfold conclude
  cases (trace s reserved bodies).2 <;> simp

theorem install_eq_ok {reserved : DeclTable} {bodies : List Body} {o : Outcome} :
    install reserved bodies = .ok o ↔
      reserved.install (bodies.map (·.final)) = .ok o.table ∧
        o.procedures = bodies.map (·.final) ∧ o.hits = (bodies.filter (·.hit)).length := by
  obtain ⟨table, procedures, hits⟩ := o
  unfold install
  cases hinstall : reserved.install (bodies.map (·.final)) with
  | error e => simp [hinstall]
  | ok t => simp [hinstall, eq_comm]

/-- A batch ends with its bodies, whatever store they went through. -/
theorem outcome_run {interrupt : Option Interrupt} {store : Option Store}
    {batch : List Declaration} :
    (run s interrupt store table batch).outcome = (do
      let reserved ← reserve table batch
      let bodies ← (compileBodies s interrupt reserved store (tasks batch)).2
      conclude s reserved bodies) := by
  unfold run tasks
  cases reserve table batch with
  | error e => rfl
  | ok reserved =>
    rw [ok_bind]
    dsimp only
    generalize compileBodies s interrupt reserved store
      (batch.map fun d => (d, UInt32.ofNat d.value.arity)) = compiled
    obtain ⟨store', result⟩ := compiled
    cases result with
    | error e => rfl
    | ok bodies =>
      rw [ok_bind, conclude]
      dsimp only
      obtain ⟨entries, traced⟩ := trace s reserved bodies
      cases traced <;> rfl

/-- What a batch does to the table, whatever store its bodies go through: slots are reserved, then
    the procedures it gives are installed. -/
theorem tables_of_run {interrupt : Option Interrupt} {store : Option Store}
    {batch : List Declaration} {o : Outcome}
    (h : (run s interrupt store table batch).outcome = .ok o) :
    ∃ reserved, reserve table batch = .ok reserved ∧ reserved.install o.procedures = .ok o.table := by
  rw [outcome_run] at h
  obtain ⟨reserved, hreserve, h⟩ := bind_eq_ok.mp h
  obtain ⟨bodies, -, hconclude⟩ := bind_eq_ok.mp h
  obtain ⟨hinstall, hprocedures, -⟩ := install_eq_ok.mp (conclude_eq_ok.mp hconclude).2
  exact ⟨reserved, hreserve, hprocedures ▸ hinstall⟩

/-- The store that a batch leaves. -/
theorem store_run {interrupt : Option Interrupt} {store : Option Store}
    {batch : List Declaration} :
    (run s interrupt store table batch).store =
      match reserve table batch with
      | .error _ => store
      | .ok reserved => (compileBodies s interrupt reserved store (tasks batch)).1 := by
  unfold run tasks
  cases reserve table batch with
  | error e => rfl
  | ok reserved =>
    dsimp only
    generalize compileBodies s interrupt reserved store
      (batch.map fun d => (d, UInt32.ofNat d.value.arity)) = compiled
    obtain ⟨store', result⟩ := compiled
    cases result with
    | error e => rfl
    | ok bodies =>
      dsimp only
      obtain ⟨entries, traced⟩ := trace s reserved bodies
      cases traced <;> rfl

/-- A batch compiles without a store when it can be reserved, its bodies compile each by itself,
    and they can be traced and installed. -/
theorem run_eq_ok_iff {interrupt : Option Interrupt} {batch : List Declaration} {o : Outcome} :
    (run s interrupt none table batch).outcome = .ok o ↔
      ∃ reserved, reserve table batch = .ok reserved ∧ ∃ bodies,
        ((interrupt = none ∨ tasks batch = []) ∧
          List.Forall₂ (fun task b => bodyAlone s reserved task.1 task.2 = .ok b)
            (tasks batch) bodies) ∧
        conclude s reserved bodies = .ok o := by
  rw [outcome_run]
  simp only [bind_eq_ok, compileBodies_eq_ok]

end TermVM.Build
