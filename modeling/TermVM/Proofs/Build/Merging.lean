/-
  TermVM.Proofs.Build.Merging

  Two batches as one.

  When a batch and the batch behind it are compiled as one, the bodies of the
  first see a table that has grown by the names of the second.  Nothing that
  was compiled depends on a name being absent: code generation, verification
  and listings come to the same against a grown table.  Reserving and
  installing in turn or at once leads to the same table as long as no name
  stands in both batches.
-/
import TermVM.Proofs.Build.Batches
import TermVM.Proofs.Build.Independence
import TermVM.Proofs.Listing

open TermVM.Result

namespace TermVM

/-! ## Growing tables -/

namespace DeclTable

variable {t t' : DeclTable}

theorem Grows.lookup? (h : t.Grows t') {name : String} {d : Decl} (hd : t.lookup? name = some d) :
    t'.lookup? name = some d := by
  rw [lookup?_eq_find?] at hd ⊢
  obtain ⟨more, hmore⟩ := h
  rw [← hmore, List.find?_append, hd, Option.some_or]

theorem Grows.names_prefix (h : t.Grows t') : t.names <+: t'.names :=
  List.IsPrefix.map _ h

theorem grows_of_decls (h : t'.decls = t.decls) : t.Grows t' := by
  simp only [Grows, h, List.prefix_refl]

/-- A table has the records of another at changed indices, by name as well as by index. -/
structure Renumbers (ρ : UInt32 → UInt32) (t t' : DeclTable) : Prop where
  lookup_eq : ∀ name d, t.lookup? name = some d → t'.lookup? name = some (d.reindex ρ)
  moves : t.Moves ρ t'

theorem Grows.renumbers (h : t.Grows t') : t.Renumbers id t' where
  lookup_eq _ _ hd := h.lookup? hd
  moves := h.moves

end DeclTable

namespace Build

open DeclTable

variable {s : Settings} {interrupt : Option Interrupt} {t t' : DeclTable}

/-! ## Bodies -/

/-- A body with the declaration indices in its code changed. -/
def Body.reindex (ρ : UInt32 → UInt32) (b : Body) : Body :=
  { b with
    generated := { b.generated with code := b.generated.code.map (Instr.reindex ρ) }
    final := { b.final with code := b.final.code.map (Instr.reindex ρ) } }

section

variable {d : Declaration} {arity : UInt32} {b : Body}

/-- A body that compiles against a table compiles against one that has the same records at other
    indices, to the same code with these indices in it. -/
theorem bodyAlone_reindex {ρ : UInt32 → UInt32} (h : t.Renumbers ρ t') (hopt : s.optimizer = none)
    (hb : bodyAlone s t d arity = .ok b) : bodyAlone s t' d arity = .ok (b.reindex ρ) := by
  obtain ⟨p, hp, hfinish⟩ := bodyAlone_eq_ok.mp hb
  obtain ⟨harity, hverify, rfl⟩ := finish_eq_ok.mp hfinish
  have hp' : generate s t' d = .ok { p with code := p.code.map (Instr.reindex ρ) } := by
    have hreindexes : Codegen.Globals.Reindexes ρ ⟨t, s.analyzers⟩ ⟨t', s.analyzers⟩ :=
      ⟨rfl, h.lookup_eq⟩
    exact generate_eq_ok.mpr (Codegen.compileProcedure_reindex hreindexes (generate_eq_ok.mp hp))
  rw [Settings.optimized_of_none hopt] at hverify ⊢
  refine bodyAlone_eq_ok.mpr ⟨_, hp', finish_eq_ok.mpr ⟨harity, fun hs => ?_, ?_⟩⟩
  · obtain ⟨a, ha⟩ := hverify hs
    rw [Settings.optimized_of_none hopt]
    exact ⟨a, Verify.analyze_of_moves h.moves ha⟩
  · rw [Settings.optimized_of_none hopt]
    rfl

/-- A body that compiles against a table compiles to the same when the table has grown. -/
theorem bodyAlone_of_grows (h : t.Grows t') (hopt : s.optimizer = none)
    (hb : bodyAlone s t d arity = .ok b) : bodyAlone s t' d arity = .ok b := by
  have hsame := bodyAlone_reindex h.renumbers hopt hb
  simpa [Body.reindex, Instr.reindex_id] using hsame

/-- The code of a body refers to positions of the table it was compiled against. -/
theorem resolves_of_bodyAlone (hwf : t.WellFormed) (hopt : s.optimizer = none)
    (hb : bodyAlone s t d arity = .ok b) :
    t.Resolves b.generated.code ∧ t.Resolves b.final.code := by
  obtain ⟨p, hp, hfinish⟩ := bodyAlone_eq_ok.mp hb
  obtain ⟨-, -, rfl⟩ := finish_eq_ok.mp hfinish
  have hresolves : t.Resolves p.code := resolves_of_compileProcedure hwf (generate_eq_ok.mp hp)
  rw [Settings.optimized_of_none hopt]
  exact ⟨hresolves, hresolves⟩

end

/-! ## Traces -/

/-- Bodies are traced alike when the table has grown. -/
theorem trace_of_prefix {bodies : List Body} (hnames : t.names <+: t'.names)
    (h : ∀ b ∈ bodies, t.Resolves b.generated.code ∧ t.Resolves b.final.code) :
    trace s t' bodies = trace s t bodies := by
  induction bodies with
  | nil => rfl
  | cons b bs ih =>
    rw [List.forall_mem_cons] at h
    unfold trace
    rw [ih h.2]
    cases s.tracer with
    | none => rfl
    | some tracer =>
      dsimp only
      rw [Tracer.procedure_of_prefix tracer h.1.1 hnames,
        Tracer.procedure_of_prefix tracer h.1.2 hnames]

/-- Bodies that can be traced leave their entries before those of the bodies behind them. -/
theorem trace_append {bs cs : List Body} (h : (trace s t bs).2 = .ok ()) :
    trace s t (bs ++ cs) = ((trace s t bs).1 ++ (trace s t cs).1, (trace s t cs).2) := by
  induction bs with
  | nil => rfl
  | cons b bs ih =>
    unfold trace at h
    rw [List.cons_append, trace, trace]
    cases htracer : s.tracer with
    | none =>
      -- nothing is traced at all
      cases cs <;> simp [trace, htracer]
    | some tracer =>
      rw [htracer] at h
      cases hbefore : tracer.procedure s.verbosity Tracer.codeGen t b.generated with
      | error f => simp [hbefore] at h
      | ok before =>
        cases hafter : tracer.procedure s.verbosity Tracer.optimizeBytecode t b.final with
        | error f => simp [hbefore, hafter] at h
        | ok after =>
          simp only [hbefore, hafter] at h
          simp only [hbefore, hafter, ih h, List.append_assoc]

/-! ## Batches -/

theorem reservations_append (A B : List Declaration) :
    reservations (A ++ B) = reservations A ++ reservations B :=
  List.map_append

theorem tasks_append (A B : List Declaration) : tasks (A ++ B) = tasks A ++ tasks B :=
  List.map_append

/-- The bodies of a batch, each compiled by itself against the reserved table, and all traced. -/
structure Prepared (s : Settings) (interrupt : Option Interrupt) (t : DeclTable)
    (batch : List Declaration) (reserved : DeclTable) (bodies : List Body) : Prop where
  reserved_eq : reserve t batch = .ok reserved
  uninterrupted : interrupt = none ∨ tasks batch = []
  bodies_eq : List.Forall₂ (fun task b => bodyAlone s reserved task.1 task.2 = .ok b)
    (tasks batch) bodies
  traced : (trace s reserved bodies).2 = .ok ()

namespace Prepared

variable {batch A B : List Declaration} {reserved reservedA reservedB tableA : DeclTable}
  {bodies bodiesA bodiesB : List Body}

theorem of_run {o : Outcome} (h : (run s interrupt none t batch).outcome = .ok o) :
    ∃ reserved bodies, Prepared s interrupt t batch reserved bodies ∧
      install reserved bodies = .ok o := by
  obtain ⟨reserved, hreserve, bodies, ⟨hinterrupt, hbodies⟩, hconclude⟩ := run_eq_ok_iff.mp h
  obtain ⟨htrace, hinstall⟩ := conclude_eq_ok.mp hconclude
  exact ⟨reserved, bodies, ⟨hreserve, hinterrupt, hbodies, htrace⟩, hinstall⟩

/-- All that is left to do for prepared bodies is to install them. -/
theorem run_eq (h : Prepared s interrupt t batch reserved bodies) :
    run s interrupt none t batch = ⟨none, (trace s reserved bodies).1, install reserved bodies⟩ := by
  have hcompiled : compileBodies s interrupt reserved none (tasks batch) = (none, .ok bodies) :=
    Prod.ext compileBodies_none (compileBodies_eq_ok.mpr ⟨h.uninterrupted, h.bodies_eq⟩)
  have htrace : trace s reserved bodies = ((trace s reserved bodies).1, .ok ()) :=
    Prod.ext rfl h.traced
  unfold tasks at hcompiled
  unfold run
  rw [h.reserved_eq]
  dsimp only
  rw [hcompiled]
  dsimp only
  rw [htrace]

theorem slots_eq (h : Prepared s interrupt t batch reserved bodies) :
    t.reserve (reservations batch) = .ok reserved :=
  (reserve_eq_ok.mp h.reserved_eq).2

theorem resolves (h : Prepared s interrupt t batch reserved bodies) (hreach : t.Reachable)
    (hopt : s.optimizer = none) :
    ∀ b ∈ bodies, reserved.Resolves b.generated.code ∧ reserved.Resolves b.final.code := by
  intro b hb
  obtain ⟨task, -, hbody⟩ := exists_of_mem_right h.bodies_eq hb
  exact resolves_of_bodyAlone (hreach.reserve h.slots_eq).wellFormed hopt hbody

/-- Reserving the second of two batches makes the reserved table of the first grow to the records
    that the second was compiled against. -/
theorem exists_reserve_append (hA : Prepared s interrupt t A reservedA bodiesA)
    (hB : Prepared s interrupt tableA B reservedB bodiesB) (hreach : t.Reachable)
    (hdecls : tableA.decls = reservedA.decls) (hnames : ((A ++ B).map (·.name)).Nodup)
    (hnew : ∀ d ∈ B, t.lookup? d.name = none) :
    ∃ merged, t.reserve (reservations (A ++ B)) = .ok merged ∧ reservedA.Grows merged ∧
      merged.decls = reservedB.decls := by
  rw [List.map_append, List.nodup_append] at hnames
  obtain ⟨-, hnodupB, hdisjoint⟩ := hnames
  obtain ⟨merged, hmerged, hdecls'⟩ := exists_reserve_of_decls hdecls.symm hB.slots_eq
  have hunknown : ∀ w ∈ reservations B, reservedA.lookup? w.1 = none := by
    intro w hw
    obtain ⟨d, hd, rfl⟩ := List.mem_map.mp hw
    have hother : d.name ∉ (reservations A).map (·.1) := by
      rw [map_fst_reservations]
      exact fun hmem => hdisjoint d.name hmem d.name (List.mem_map_of_mem hd) rfl
    rw [lookup?_reserve hother hA.slots_eq, hnew d hd]
  refine ⟨merged, ?_, ?_, hdecls'⟩
  · rw [reservations_append, reserve_append]
    exact bind_eq_ok.mpr ⟨reservedA, hA.slots_eq, hmerged⟩
  · refine DeclTable.grows_of_reserve (hreach.reserve hA.slots_eq).coherent ?_ ?_ hmerged
    · rw [map_fst_reservations]
      exact hnodupB
    · intro w hw d hd
      rw [hunknown w hw] at hd
      cases hd

/-- Two batches in turn are prepared as one: all bodies compile to the same code and are traced as
    before. -/
theorem append (hA : Prepared s interrupt t A reservedA bodiesA)
    (hB : Prepared s interrupt tableA B reservedB bodiesB) (hreach : t.Reachable)
    (hreachA : tableA.Reachable) (hopt : s.optimizer = none)
    (hdecls : tableA.decls = reservedA.decls) (hnames : ((A ++ B).map (·.name)).Nodup)
    (hnew : ∀ d ∈ B, t.lookup? d.name = none) :
    ∃ merged, Prepared s interrupt t (A ++ B) merged (bodiesA ++ bodiesB) ∧
      (trace s merged (bodiesA ++ bodiesB)).1
        = (trace s reservedA bodiesA).1 ++ (trace s reservedB bodiesB).1 := by
  obtain ⟨merged, hslots, hgrowsA, hdecls'⟩ :=
    exists_reserve_append hA hB hreach hdecls hnames hnew
  -- what the first bodies see has grown, and what the second bodies see has the same records
  have hgrowsB : reservedB.Grows merged := grows_of_decls hdecls'
  have htraceA : trace s merged bodiesA = trace s reservedA bodiesA :=
    trace_of_prefix hgrowsA.names_prefix (hA.resolves hreach hopt)
  have htraceB : trace s merged bodiesB = trace s reservedB bodiesB :=
    trace_of_prefix hgrowsB.names_prefix (hB.resolves hreachA hopt)
  have htrace := @trace_append s merged bodiesA bodiesB (htraceA ▸ hA.traced)
  refine ⟨merged, ⟨?_, ?_, ?_, ?_⟩, by rw [htrace, htraceA, htraceB]⟩
  · exact reserve_eq_ok.mpr ⟨firstRepeat?_eq_none_iff.mpr ⟨hnames, by simp⟩, hslots⟩
  · rw [tasks_append]
    rcases hA.uninterrupted with hnone | hemptyA
    · exact .inl hnone
    · rcases hB.uninterrupted with hnone | hemptyB
      · exact .inl hnone
      · exact .inr (by rw [hemptyA, hemptyB]; rfl)
  · rw [tasks_append]
    refine List.rel_append ?_ ?_
    · exact hA.bodies_eq.imp fun _ _ hb => bodyAlone_of_grows hgrowsA hopt hb
    · exact hB.bodies_eq.imp fun _ _ hb => bodyAlone_of_grows hgrowsB hopt hb
  · rw [htrace, htraceB, hB.traced]

end Prepared

/-- Procedures of distinct names that were reserved and installed in turn can be installed at once,
    and lead to the same table. -/
theorem install_of_gathers {ps : List Procedure} {merged : DeclTable} (h : t.Gathers ps t')
    (hnodup : t'.names.Nodup) (hdistinct : (ps.map (·.name)).Nodup)
    (hreserve : t.reserve (ps.map header) = .ok merged) : merged.install ps = .ok t' := by
  have hfits : ∀ p ∈ ps, merged.Slotted p.name p.arity := fun p hp =>
    slotted_of_reserve (map_fst_header ps ▸ hdistinct) hreserve (header p) (List.mem_map_of_mem hp)
  obtain ⟨u, hu⟩ := exists_install hfits
  rw [hu, h.eq_of_install hnodup hreserve hu]

/-- Two batches may be merged.  Let no name stand twice in them and none of the second in the table.
    If the first compiles against the table, and the second against the table that the first leaves,
    then both together compile against the table as one batch.  It leaves the same table, gives the
    procedures of both, and logs what both did; the first batch may declare names of the table
    again. -/
theorem run_append (hreach : t.Reachable) {A B : List Declaration}
    (hnames : ((A ++ B).map (·.name)).Nodup) (hnew : ∀ d ∈ B, t.lookup? d.name = none)
    (hopt : s.optimizer = none) {oA oB : Outcome}
    (hA : (run s interrupt none t A).outcome = .ok oA)
    (hB : (run s interrupt none oA.table B).outcome = .ok oB) :
    (run s interrupt none t (A ++ B)).outcome
        = .ok ⟨oB.table, oA.procedures ++ oB.procedures, oA.hits + oB.hits⟩ ∧
      (run s interrupt none t (A ++ B)).entries
        = (run s interrupt none t A).entries ++ (run s interrupt none oA.table B).entries := by
  have hreachA := reachable_of_run hreach hA
  have hreachB := reachable_of_run hreachA hB
  -- the table is the one that reserving and installing in turn leads to
  have hgathers : t.Gathers (oA.procedures ++ oB.procedures) oB.table := by
    obtain ⟨u, hu, hu'⟩ := exists_reserve_install hA
    obtain ⟨v, hv, hv'⟩ := exists_reserve_install hB
    exact ((Gathers.refl t).batch hu hu').batch hv hv'
  have hheaders : (oA.procedures ++ oB.procedures).map header = reservations (A ++ B) := by
    rw [List.map_append, headers_of_run hA, headers_of_run hB, reservations_append]
  have hdistinct : ((oA.procedures ++ oB.procedures).map (·.name)).Nodup := by
    rwa [← map_fst_header, hheaders, map_fst_reservations]
  -- the bodies of both are prepared as one batch
  obtain ⟨reservedA, bodiesA, hpreparedA, hinstallA⟩ := Prepared.of_run hA
  obtain ⟨reservedB, bodiesB, hpreparedB, hinstallB⟩ := Prepared.of_run hB
  obtain ⟨htableA, hproceduresA, hhitsA⟩ := install_eq_ok.mp hinstallA
  obtain ⟨-, hproceduresB, hhitsB⟩ := install_eq_ok.mp hinstallB
  obtain ⟨merged, hmerged, hentries⟩ :=
    hpreparedA.append hpreparedB hreach hreachA hopt (decls_install htableA) hnames hnew
  have hfinal : (bodiesA ++ bodiesB).map (·.final) = oA.procedures ++ oB.procedures := by
    rw [List.map_append, hproceduresA, hproceduresB]
  -- and installed at once
  have htable : merged.install (oA.procedures ++ oB.procedures) = .ok oB.table :=
    install_of_gathers hgathers hreachB.coherent.names_nodup hdistinct (hheaders ▸ hmerged.slots_eq)
  rw [hmerged.run_eq, hpreparedA.run_eq, hpreparedB.run_eq]
  refine ⟨install_eq_ok.mpr ⟨hfinal ▸ htable, hfinal.symm, ?_⟩, hentries⟩
  rw [List.filter_append, List.length_append, hhitsA, hhitsB]

/-- A function that calls what was declared again, and one that calls it. -/
def largeMultiples : List Declaration :=
  [⟨"sixteenfold", .lam "n" (.app (.global "double")
     [.app (.global "eightfold") [.var 0], .app (.global "eightfold") [.var 0]])⟩,
   ⟨"thirtytwofold", .lam "n" (.app (.global "sixteenfold") [.app (.global "fourfold") [.nat 8]])⟩]

/-- `double` takes another number of arguments in the first of two batches; the second calls it, and
    what the first declares. -/
theorem run_append_multiples :
    withMultiples.Reachable ∧ ((doubleOfTwo ++ largeMultiples).map (·.name)).Nodup ∧
      (∀ d ∈ largeMultiples, withMultiples.lookup? d.name = none) ∧
      ∃ oA oB, (run watched none none withMultiples doubleOfTwo).outcome = .ok oA ∧
        (run watched none none oA.table largeMultiples).outcome = .ok oB ∧
        (run watched none none withMultiples (doubleOfTwo ++ largeMultiples)).outcome
          = .ok ⟨oB.table, oA.procedures ++ oB.procedures, 0⟩ ∧
        (run watched none none withMultiples (doubleOfTwo ++ largeMultiples)).entries.length = 4 := by
  have hreach := reachable_withMultiples
  have hnames : ((doubleOfTwo ++ largeMultiples).map (·.name)).Nodup := by decide
  have hnew : ∀ d ∈ largeMultiples, withMultiples.lookup? d.name = none := by decide
  have hfirst : (run watched none none withMultiples doubleOfTwo).outcome.toOption.map
      (fun o => (o.table, o.hits)) = some (withDoubleOfTwo, 0) := by decide +kernel
  have hsecond : (run watched none none withDoubleOfTwo largeMultiples).outcome.toOption.map
      (·.hits) = some 0 := by decide +kernel
  have hlengths : (run watched none none withMultiples doubleOfTwo).entries.length = 2 ∧
      (run watched none none withDoubleOfTwo largeMultiples).entries.length = 2 := by decide +kernel
  obtain ⟨oA, hA, hfacts⟩ := Option.map_eq_some_iff.mp hfirst
  obtain ⟨htable, hhitsA⟩ := Prod.mk.inj hfacts
  obtain ⟨oB, hB, hhitsB⟩ := Option.map_eq_some_iff.mp hsecond
  have hA := eq_ok_of_toOption hA
  have hB : (run watched none none oA.table largeMultiples).outcome = .ok oB :=
    htable ▸ eq_ok_of_toOption hB
  obtain ⟨hmerged, hentries⟩ := run_append hreach hnames hnew rfl hA hB
  refine ⟨hreach, hnames, hnew, oA, oB, hA, hB, ?_, ?_⟩
  · rw [hmerged, hhitsA, hhitsB]
  · rw [hentries, List.length_append, htable, hlengths.1, hlengths.2]

end Build

end TermVM
