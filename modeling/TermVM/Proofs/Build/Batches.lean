/-
  TermVM.Proofs.Build.Batches

  What a batch does, whatever store its bodies go through.

  A body takes its code from the store or has it generated; either way the code
  has the declaration's name and the reserved arity.  So the procedures that a
  batch gives are just those that its slots were reserved for, and the table it
  leaves comes of reserving and installing them: `exists_reserve_install`.
-/
import TermVM.Proofs.Build.Basic
import TermVM.Proofs.DeclTable.Contents
import TermVM.Proofs.Outline.Emission

open TermVM.Result

namespace TermVM.Build

open DeclTable

variable {s : Settings} {interrupt : Option Interrupt} {store store' : Option Store}
  {table : DeclTable}

/-! ## Bodies -/

section

variable {d : Declaration} {arity : UInt32} {b : Body} {p : Procedure} {hit : Bool}

theorem compileBody_eq_ok :
    compileBody s store table d arity = (store', .ok b) ↔
      ∃ p hit, bodyCode s store table d = (store', .ok (p, hit)) ∧
        finish s table d arity p hit = .ok b := by
  unfold compileBody
  generalize bodyCode s store table d = compiled
  obtain ⟨store₁, got⟩ := compiled
  cases got with
  | error e => simp [Except.bind]
  | ok code =>
    obtain ⟨p, hit⟩ := code
    simp [Except.bind, and_assoc]

/-- Code comes from the store under the key of the body, or is generated and stored under it. -/
theorem bodyCode_some_eq_ok {st : Store}
    (h : bodyCode s (some st) table d = (store', .ok (p, hit))) :
    ∃ key, (fetch st key d = .ok (some p) ∧ store' = some st) ∨
      (generate s table d = .ok p ∧ ∃ st', keep st key d p = .ok st' ∧ store' = some st') := by
  unfold bodyCode at h
  cases hkey : bodyKey s table d with
  | error e => simp [hkey] at h
  | ok key =>
    refine ⟨key, ?_⟩
    rw [hkey] at h
    dsimp only at h
    cases hfetch : fetch st key d with
    | error e => simp [hfetch] at h
    | ok found =>
      rw [hfetch] at h
      cases found with
      | some q =>
        simp only [Prod.mk.injEq, Except.ok.injEq] at h
        obtain ⟨rfl, rfl, -⟩ := h
        exact .inl ⟨rfl, rfl⟩
      | none =>
        dsimp only at h
        cases hgenerate : generate s table d with
        | error e => simp [hgenerate] at h
        | ok q =>
          rw [hgenerate] at h
          dsimp only at h
          cases hkeep : keep st key d q with
          | error e => simp [hkeep] at h
          | ok st' =>
            rw [hkeep] at h
            simp only [Prod.mk.injEq, Except.ok.injEq] at h
            obtain ⟨rfl, rfl, -⟩ := h
            exact .inr ⟨rfl, st', hkeep, rfl⟩

theorem bodyCode_none_eq_ok (h : bodyCode s none table d = (store', .ok (p, hit))) :
    generate s table d = .ok p ∧ store' = none := by
  obtain ⟨hstore, hcode⟩ := Prod.mk.inj h
  obtain ⟨q, hq, hp⟩ := map_eq_ok.mp hcode
  obtain ⟨rfl, -⟩ := Prod.mk.inj hp
  exact ⟨hq, hstore.symm⟩

theorem fetch_eq_some {st : Store} {key : String} (h : fetch st key d = .ok (some p)) :
    ∃ q, st.get? none key = .ok (some q) ∧ p = { q with name := d.name } := by
  unfold fetch at h
  split at h
  · next found hfound =>
    obtain ⟨q, rfl, hq⟩ := Option.map_eq_some_iff.mp (Except.ok.inj h)
    exact ⟨q, hfound, hq.symm⟩
  · cases h

/-- Wherever it comes from, code is named after the declaration. -/
theorem name_of_bodyCode (h : bodyCode s store table d = (store', .ok (p, hit))) :
    p.name = d.name := by
  have hgenerated : generate s table d = .ok p → p.name = d.name := fun hp =>
    (Codegen.header_of_compileProcedure (generate_eq_ok.mp hp)).1
  cases store with
  | none => exact hgenerated (bodyCode_none_eq_ok h).1
  | some st =>
    obtain ⟨key, ⟨hfetch, -⟩ | ⟨hp, -⟩⟩ := bodyCode_some_eq_ok h
    · obtain ⟨q, -, rfl⟩ := fetch_eq_some hfetch
      rfl
    · exact hgenerated hp

/-- Optimizing touches neither the name nor the arity. -/
theorem header_optimized (p : Procedure) : header (s.optimized table p) = header p := by
  unfold Settings.optimized
  cases s.optimizer <;> rfl

end

/-- What every body keeps of the store and brings about by itself, bodies in order do. -/
theorem forall₂_of_compileBodies {P : Option Store → Prop} {R : Declaration × UInt32 → Body → Prop}
    {ts : List (Declaration × UInt32)} {bodies : List Body}
    (hstep : ∀ task ∈ ts, ∀ store store' b, P store →
      compileBody s store table task.1 task.2 = (store', .ok b) → P store' ∧ R task b)
    (hstore : P store) (h : (compileBodies s interrupt table store ts).2 = .ok bodies) :
    P (compileBodies s interrupt table store ts).1 ∧ List.Forall₂ R ts bodies := by
  induction ts generalizing interrupt store bodies with
  | nil =>
    cases h
    exact ⟨hstore, .nil⟩
  | cons task ts ih =>
    obtain ⟨d, arity⟩ := task
    rw [List.forall_mem_cons] at hstep
    cases interrupt with
    | some why => cases h
    | none =>
      rw [compileBodies] at h ⊢
      cases hbody : compileBody s store table d arity with
      | mk store₁ result =>
        rw [hbody] at h
        cases result with
        | error e => cases h
        | ok b =>
          obtain ⟨rest, hrest, rfl⟩ := map_eq_ok.mp h
          obtain ⟨hstore₁, hb⟩ := hstep.1 store store₁ b hstore hbody
          obtain ⟨hstore', hrest⟩ := ih hstep.2 hstore₁ hrest
          exact ⟨hstore', .cons hb hrest⟩

/-! ## Batches -/

variable {batch : List Declaration} {o : Outcome}

/-- What every body of a batch keeps of the store and brings about by itself, the batch does.  The
    bodies are compiled against the reserved table. -/
theorem forall₂_of_run {P : Option Store → Prop} {R : DeclTable → Declaration → Procedure → Prop}
    (hstep : ∀ reserved, table.reserve (reservations batch) = .ok reserved → ∀ d ∈ batch,
      ∀ store store' b, P store →
        compileBody s store reserved d (UInt32.ofNat d.value.arity) = (store', .ok b) →
        P store' ∧ R reserved d b.final)
    (hstore : P store) (h : (run s interrupt store table batch).outcome = .ok o) :
    P (run s interrupt store table batch).store ∧
      ∃ reserved, table.reserve (reservations batch) = .ok reserved ∧
        reserved.install o.procedures = .ok o.table ∧
        List.Forall₂ (R reserved) batch o.procedures := by
  rw [outcome_run] at h
  obtain ⟨reserved, hreserve, h⟩ := bind_eq_ok.mp h
  obtain ⟨bodies, hbodies, hconclude⟩ := bind_eq_ok.mp h
  have hslots := (reserve_eq_ok.mp hreserve).2
  obtain ⟨hinstall, hprocedures, -⟩ := install_eq_ok.mp (conclude_eq_ok.mp hconclude).2
  have hall := @forall₂_of_compileBodies s interrupt store reserved P
    (fun task b => R reserved task.1 b.final) (tasks batch) bodies ?_ hstore hbodies
  · rw [store_run, hreserve]
    refine ⟨hall.1, reserved, hslots, hprocedures ▸ hinstall, ?_⟩
    rw [hprocedures, List.forall₂_map_right_iff]
    exact List.forall₂_map_left_iff.mp hall.2
  · intro task htask store store' b hP hb
    obtain ⟨d, hd, rfl⟩ := List.mem_map.mp htask
    exact hstep reserved hslots d hd store store' b hP hb

/-- Slots are reserved for just the procedures that a batch gives. -/
theorem headers_of_run (h : (run s interrupt store table batch).outcome = .ok o) :
    o.procedures.map header = reservations batch := by
  have hall := @forall₂_of_run s interrupt store table batch o (fun _ => True)
    (fun _ d p => header p = (d.name, UInt32.ofNat d.value.arity)) ?_ trivial h
  · obtain ⟨-, reserved, -, -, hheaders⟩ := hall
    have heq : List.Forall₂ Eq (o.procedures.map header) (reservations batch) := by
      rw [reservations, List.forall₂_map_left_iff, List.forall₂_map_right_iff]
      exact hheaders.flip
    rwa [List.forall₂_eq_eq_eq] at heq
  · intro reserved _ d _ store store' b _ hb
    refine ⟨trivial, ?_⟩
    obtain ⟨p, hit, hcode, hfinish⟩ := compileBody_eq_ok.mp hb
    obtain ⟨harity, -, rfl⟩ := finish_eq_ok.mp hfinish
    rw [header_optimized, header, name_of_bodyCode hcode, harity]

/-- The table that a batch leaves: slots are reserved for its procedures, which are installed. -/
theorem exists_reserve_install (h : (run s interrupt store table batch).outcome = .ok o) :
    ∃ reserved, table.reserve (o.procedures.map header) = .ok reserved ∧
      reserved.install o.procedures = .ok o.table := by
  obtain ⟨reserved, hreserve, hinstall⟩ := tables_of_run h
  rw [headers_of_run h]
  exact ⟨reserved, (reserve_eq_ok.mp hreserve).2, hinstall⟩

theorem map_fst_reservations (batch : List Declaration) :
    (reservations batch).map (·.1) = batch.map (·.name) := by
  rw [reservations, List.map_map]
  rfl

/-- The procedures of a batch have distinct names. -/
theorem nodup_names_of_run (h : (run s interrupt store table batch).outcome = .ok o) :
    (o.procedures.map (·.name)).Nodup := by
  rw [← map_fst_header, headers_of_run h, map_fst_reservations]
  obtain ⟨reserved, hreserve, -⟩ := tables_of_run h
  exact (nodup_of_firstRepeat? (reserve_eq_ok.mp hreserve).1).1

/-- The table that a batch leaves has its procedures under their names. -/
theorem procedure?_of_run (h : (run s interrupt store table batch).outcome = .ok o)
    {p : Procedure} (hp : p ∈ o.procedures) : o.table.procedure? p.name = some p := by
  obtain ⟨reserved, -, hinstall⟩ := exists_reserve_install h
  rw [procedure?_install hinstall, latest_of_nodup (nodup_names_of_run h) hp]
  rfl

/-- A name that a batch does not declare keeps its code. -/
theorem procedure?_of_run_of_notMem (h : (run s interrupt store table batch).outcome = .ok o)
    {name : String} (hname : name ∉ batch.map (·.name)) :
    o.table.procedure? name = table.procedure? name := by
  obtain ⟨reserved, hreserve, hinstall⟩ := exists_reserve_install h
  have hnames : o.procedures.map (·.name) = batch.map (·.name) := by
    rw [← map_fst_header, headers_of_run h, map_fst_reservations]
  rw [procedure?_install hinstall, procedure?_reserve hreserve, map_fst_header, hnames,
    if_neg hname, latest_eq_none_iff.mpr (hnames ▸ hname), Option.none_or]

/-- Not more bodies are taken from the store than there are. -/
theorem hits_le_of_run (h : (run s interrupt store table batch).outcome = .ok o) :
    o.hits ≤ o.procedures.length := by
  rw [outcome_run] at h
  obtain ⟨reserved, -, h⟩ := bind_eq_ok.mp h
  obtain ⟨bodies, -, hconclude⟩ := bind_eq_ok.mp h
  obtain ⟨-, hprocedures, hhits⟩ := install_eq_ok.mp (conclude_eq_ok.mp hconclude).2
  rw [hprocedures, hhits, List.length_map]
  exact List.length_filter_le _ _

end TermVM.Build
