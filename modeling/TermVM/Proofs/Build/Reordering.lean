/-
  TermVM.Proofs.Build.Reordering

  The order of declarations inside a batch.

  Reserving the same slots in another order leads to a table with the same
  names, each with the same kind and arity; but new names may stand at other
  positions.  `renumber` leads from the index of a name in one table to its
  index in the other, and code generation, verification and tracing follow it.
  So a batch compiles in every order or in none, and its code is the same once
  indices are read as the names they stand for: `run_perm`.
-/
import TermVM.Proofs.Build.Merging

open TermVM.Result

namespace TermVM

/-! ## Code with names -/

/-- An instruction with the name that its index stands for in place of the index. -/
def Instr.spell (t : DeclTable) (i : Instr) : Instr × Option String :=
  if i.refers then ({ i with a := 0 }, (t.at? i.a).map (·.name)) else (i, none)

theorem Instr.spell_eq_of_name {t t' : DeclTable} {i : Instr} {index : UInt32}
    (hrefers : i.refers = true)
    (hname : (t'.at? index).map (·.name) = (t.at? i.a).map (·.name)) :
    ({ i with a := index } : Instr).spell t' = i.spell t := by
  have hrefers' : ({ i with a := index } : Instr).refers = true := hrefers
  rw [spell, spell, if_pos hrefers, if_pos hrefers', hname]

namespace DeclTable

variable {t t' u u' : DeclTable} {code : Code}

/-- Code with the names that its indices stand for in place of the indices. -/
def spell (t : DeclTable) (code : Code) : List (Instr × Option String) :=
  code.map (Instr.spell t)

/-- Code reads the same in every later table. -/
theorem spell_later (hnames : t.names <+: t'.names) (h : t.Resolves code) :
    t'.spell code = t.spell code := by
  refine List.map_congr_left fun i hi => ?_
  cases hrefers : i.refers with
  | true =>
    have hname := map_name_at?_of_prefix hnames (h i hi hrefers)
    exact Instr.spell_eq_of_name hrefers hname
  | false => simp [Instr.spell, hrefers]

/-- Code whose indices follow the records reads the same. -/
theorem spell_reindex {ρ : UInt32 → UInt32} (hmoves : t.Moves ρ t') (h : t.Resolves code) :
    t'.spell (code.map (Instr.reindex ρ)) = t.spell code := by
  rw [spell, List.map_map]
  refine List.map_congr_left fun i hi => ?_
  rw [Function.comp_apply]
  cases hrefers : i.refers with
  | true =>
    obtain ⟨d, hd⟩ := Option.isSome_iff_exists.mp (h i hi hrefers)
    rw [Instr.reindex, if_pos hrefers]
    refine Instr.spell_eq_of_name hrefers ?_
    rw [hmoves i.a d hd, hd]
    rfl
  | false =>
    rw [Instr.reindex_of_not_refers hrefers]
    simp [Instr.spell, hrefers]

/-! ## Slots in another order -/

/-- The kind and the arity of a name. -/
def signature? (t : DeclTable) (name : String) : Option (DeclKind × UInt32) :=
  (t.lookup? name).map fun d => (d.kind, d.arity)

theorem signature?_eq_none_iff {name : String} : t.signature? name = none ↔ name ∉ t.names := by
  rw [signature?, Option.map_eq_none_iff, lookup?_eq_none_iff]

theorem Slotted.signature?_eq {name : String} {arity : UInt32} (h : t.Slotted name arity) :
    t.signature? name = some (.compiled, arity) := by
  obtain ⟨d, hd, hkind, harity⟩ := h
  rw [signature?, hd, Option.map_some, hkind, harity]

section

variable {wanted wanted' : List (String × UInt32)}

theorem exists_reserve_perm (hperm : wanted.Perm wanted') (h : t.reserve wanted = .ok u) :
    ∃ u', t.reserve wanted' = .ok u' := by
  have hfree := exists_reserve_iff.mp ⟨u, h⟩
  exact exists_reserve_iff.mpr fun w hw => hfree w (hperm.mem_iff.mpr hw)

/-- Slots reserved in another order give every name the same kind and arity. -/
theorem signature?_of_reserve_perm (hperm : wanted.Perm wanted')
    (hnodup : (wanted.map (·.1)).Nodup) (h : t.reserve wanted = .ok u)
    (h' : t.reserve wanted' = .ok u') (name : String) : u'.signature? name = u.signature? name := by
  have hnames := hperm.map (·.1)
  by_cases hname : name ∈ wanted.map (·.1)
  · obtain ⟨w, hw, rfl⟩ := List.mem_map.mp hname
    have hslot := slotted_of_reserve hnodup h w hw
    have hslot' := slotted_of_reserve (hnames.nodup hnodup) h' w (hperm.mem_iff.mp hw)
    rw [hslot.signature?_eq, hslot'.signature?_eq]
  · have hname' : name ∉ wanted'.map (·.1) := fun hmem => hname (hnames.mem_iff.mpr hmem)
    rw [signature?, signature?, lookup?_reserve hname h, lookup?_reserve hname' h']

end

theorem size_eq_of_signatures (hsame : ∀ name, u'.signature? name = u.signature? name)
    (hnodup : u.names.Nodup) (hnodup' : u'.names.Nodup) : u'.size = u.size := by
  have hmem : ∀ name, name ∈ u'.names ↔ name ∈ u.names := by
    intro name
    rw [← not_iff_not, ← signature?_eq_none_iff, ← signature?_eq_none_iff, hsame]
  have hperm := (List.perm_ext_iff_of_nodup hnodup' hnodup).mpr hmem
  simpa [names_eq, size] using hperm.length_eq

/-- The index that the name at an index has in another table. -/
def renumber (t t' : DeclTable) (index : UInt32) : UInt32 :=
  (((t.at? index).bind fun d => t'.lookup? d.name).map (·.index)).getD index

section

variable (hsame : ∀ name, u'.signature? name = u.signature? name) (hwf : u.WellFormed)
  (hsize : u.size ≤ 2 ^ 32)

include hsame hwf hsize

/-- A name leads to the same record in both tables, but for its index. -/
theorem lookup?_renumber {name : String} {d : Decl} (hd : u.lookup? name = some d) :
    u'.lookup? name = some (d.reindex (u.renumber u')) := by
  have hsignature : u'.signature? name = some (d.kind, d.arity) := by
    rw [hsame, signature?, hd]
    rfl
  obtain ⟨d', hd', hfields⟩ := Option.map_eq_some_iff.mp hsignature
  obtain ⟨hkind, harity⟩ := Prod.mk.inj hfields
  obtain ⟨-, -, -, hname⟩ := row_of_lookup? hd
  obtain ⟨-, -, -, hname'⟩ := row_of_lookup? hd'
  have hindex : u.renumber u' d.index = d'.index := by
    rw [renumber, hwf.at?_index hsize hd, Option.bind_some, hname, hd']
    rfl
  rw [hd', Decl.reindex, hindex, ← hkind, ← harity, hname, ← hname']

theorem moves_renumber (hcoherent : u.Coherent) (hwf' : u'.WellFormed) (hsize' : u'.size ≤ 2 ^ 32) :
    u.Moves (u.renumber u') u' := by
  intro index d hd
  obtain ⟨r, hr, rfl⟩ := Option.map_eq_some_iff.mp hd
  have hindex : r.decl.index = index := by
    rw [hwf.index_eq index.toNat r hr, UInt32.ofNat_toNat]
  -- the record is the one of its name, and so is the one that it becomes
  have hlookup : u.lookup? r.decl.name = some r.decl := by
    rw [lookup?, row?_of_mem hcoherent.names_nodup (List.mem_of_getElem? hr)]
    rfl
  have hmoved := hwf'.at?_index hsize' (lookup?_renumber hsame hwf hsize hlookup)
  rw [← hmoved, Decl.reindex, hindex]

end

section

variable {wanted wanted' : List (String × UInt32)} (hreach : t.Reachable)
  (hperm : wanted.Perm wanted') (hnodup : (wanted.map (·.1)).Nodup)
  (h : t.reserve wanted = .ok u) (h' : t.reserve wanted' = .ok u')

include hreach hperm hnodup h h'

theorem size_of_reserve_perm : u'.size = u.size :=
  size_eq_of_signatures (signature?_of_reserve_perm hperm hnodup h h')
    (hreach.reserve h).coherent.names_nodup (hreach.reserve h').coherent.names_nodup

/-- A table whose slots were reserved in another order has the same records at other indices. -/
theorem renumbers_of_reserve_perm (hsize : u.size ≤ 2 ^ 32) :
    u.Renumbers (u.renumber u') u' := by
  have hsame := signature?_of_reserve_perm hperm hnodup h h'
  have hsize' : u'.size ≤ 2 ^ 32 := size_of_reserve_perm hreach hperm hnodup h h' ▸ hsize
  have hu := hreach.reserve h
  have hu' := hreach.reserve h'
  refine ⟨fun name d hd => lookup?_renumber hsame hu.wellFormed hsize hd, ?_⟩
  exact moves_renumber hsame hu.wellFormed hsize hu.coherent hu'.wellFormed hsize'

end

end DeclTable

/-! ## Bodies in another order -/

/-- A procedure that can be traced can be traced with other indices and against another table. -/
theorem Tracer.exists_procedure_reindex {tracer : Tracer} {verbosity : Int} {name : String}
    {t t' : DeclTable} {p : Procedure} (ρ : UInt32 → UInt32)
    (h : ∃ entries, tracer.procedure verbosity name t p = .ok entries) :
    ∃ entries, tracer.procedure verbosity name t'
      { p with code := p.code.map (Instr.reindex ρ) } = .ok entries := by
  rw [exists_procedure_iff] at h ⊢
  intro hshown i hi
  obtain ⟨i₀, hi₀, rfl⟩ := List.mem_map.mp hi
  obtain ⟨text, htext⟩ := h hshown i₀ hi₀
  exact Listing.exists_operands_reindex htext ρ

namespace Build

open DeclTable

variable {s : Settings} {interrupt : Option Interrupt} {t : DeclTable}

theorem trace_reindex {ρ : UInt32 → UInt32} {u u' : DeclTable} {bodies bodies' : List Body}
    (h : (trace s u bodies).2 = .ok ()) (hbodies : ∀ b' ∈ bodies', ∃ b ∈ bodies, b' = b.reindex ρ) :
    (trace s u' bodies').2 = .ok () := by
  rw [trace_eq_ok_iff] at h ⊢
  intro tracer htracer b' hb'
  obtain ⟨b, hb, rfl⟩ := hbodies b' hb'
  obtain ⟨hgenerated, hfinal⟩ := h tracer htracer b hb
  exact ⟨Tracer.exists_procedure_reindex ρ hgenerated, Tracer.exists_procedure_reindex ρ hfinal⟩

/-- Code has the name and the arity that its slot was reserved with. -/
theorem header_of_bodyAlone {d : Declaration} {arity : UInt32} {b : Body}
    (hb : bodyAlone s t d arity = .ok b) : header b.final = (d.name, arity) := by
  obtain ⟨p, hp, hfinish⟩ := bodyAlone_eq_ok.mp hb
  obtain ⟨harity, -, rfl⟩ := finish_eq_ok.mp hfinish
  have hname := (Codegen.header_of_compileProcedure (generate_eq_ok.mp hp)).1
  rw [header_optimized, header, hname, harity]

namespace Prepared

variable {batch batch' : List Declaration} {u u' : DeclTable} {bodies bodies' : List Body}

theorem nodup (h : Prepared s interrupt t batch u bodies) :
    ((reservations batch).map (·.1)).Nodup := by
  rw [map_fst_reservations]
  exact (nodup_of_firstRepeat? (reserve_eq_ok.mp h.reserved_eq).1).1

/-- Every declaration of a batch has its body. -/
theorem exists_body (h : Prepared s interrupt t batch u bodies) {task : Declaration × UInt32}
    (htask : task ∈ tasks batch) : ∃ b ∈ bodies, bodyAlone s u task.1 task.2 = .ok b :=
  exists_of_mem_right h.bodies_eq.flip htask

/-- Prepared bodies can be installed. -/
theorem exists_run (h : Prepared s interrupt t batch u bodies) :
    ∃ o, (run s interrupt none t batch).outcome = .ok o := by
  have hslots : ∀ p ∈ bodies.map (·.final), u.Slotted p.name p.arity := by
    intro p hp
    obtain ⟨b, hb, rfl⟩ := List.mem_map.mp hp
    obtain ⟨task, htask, hbody⟩ := exists_of_mem_right h.bodies_eq hb
    obtain ⟨d, hd, rfl⟩ := List.mem_map.mp htask
    obtain ⟨hname, harity⟩ := Prod.mk.inj (header_of_bodyAlone hbody)
    rw [hname, harity]
    exact slotted_of_reserve h.nodup h.slots_eq _ (List.mem_map_of_mem hd)
  obtain ⟨table, htable⟩ := exists_install hslots
  refine ⟨⟨table, bodies.map (·.final), (bodies.filter (·.hit)).length⟩, ?_⟩
  rw [h.run_eq]
  exact install_eq_ok.mpr ⟨htable, rfl, rfl⟩

section

variable (h : Prepared s interrupt t batch u bodies) (hreach : t.Reachable)
  (hopt : s.optimizer = none) (hsize : u.size ≤ 2 ^ 32) (hperm : batch.Perm batch')

include h hreach hsize hperm

theorem renumbers (hu' : t.reserve (reservations batch') = .ok u') :
    u.Renumbers (u.renumber u') u' :=
  renumbers_of_reserve_perm hreach (hperm.map _) h.nodup h.slots_eq hu' hsize

include hopt

/-- Slots reserved in another order give every body the same code with other indices. -/
theorem exists_body_reindex (hu' : t.reserve (reservations batch') = .ok u')
    {task : Declaration × UInt32} (htask : task ∈ tasks batch') :
    ∃ b ∈ bodies, bodyAlone s u task.1 task.2 = .ok b ∧
      bodyAlone s u' task.1 task.2 = .ok (b.reindex (u.renumber u')) := by
  have htasks : (tasks batch).Perm (tasks batch') := hperm.map _
  obtain ⟨b, hb, hcompiled⟩ := h.exists_body (htasks.mem_iff.mpr htask)
  have hrenumbers := h.renumbers hreach hsize hperm hu'
  exact ⟨b, hb, hcompiled, bodyAlone_reindex hrenumbers hopt hcompiled⟩

/-- A batch that is prepared in one order is prepared in every other. -/
theorem perm : ∃ u' bodies', Prepared s interrupt t batch' u' bodies' := by
  have hwanted : (reservations batch).Perm (reservations batch') := hperm.map _
  have htasks : (tasks batch).Perm (tasks batch') := hperm.map _
  obtain ⟨u', hu'⟩ := exists_reserve_perm hwanted h.slots_eq
  have hbody := @exists_body_reindex _ _ _ _ _ _ u' _ h hreach hopt hsize hperm hu'
  have hcompile : ∀ task ∈ tasks batch', ∃ b', bodyAlone s u' task.1 task.2 = .ok b' := by
    intro task htask
    obtain ⟨b, -, -, hb'⟩ := hbody htask
    exact ⟨_, hb'⟩
  obtain ⟨bodies', hbodies'⟩ := exists_forall₂ hcompile
  refine ⟨u', bodies', ?_, ?_, hbodies', @trace_reindex s (u.renumber u') u u' _ _ h.traced ?_⟩
  · have hnames : (batch'.map (·.name)).Nodup := by
      rw [← map_fst_reservations]
      exact (hwanted.map (·.1)).nodup h.nodup
    exact reserve_eq_ok.mpr ⟨firstRepeat?_eq_none_iff.mpr ⟨hnames, by simp⟩, hu'⟩
  · refine h.uninterrupted.imp_right fun hempty => ?_
    rw [hempty] at htasks
    exact htasks.nil_eq.symm
  · -- the bodies are those of the first order, since a body is compiled by itself
    intro b' hb'
    obtain ⟨task, htask, hcompiled⟩ := exists_of_mem_right hbodies' hb'
    obtain ⟨b, hb, -, hreindexed⟩ := hbody htask
    exact ⟨b, hb, Except.ok.inj (hcompiled.symm.trans hreindexed)⟩

end

/-- The table that a batch leaves has the code of its bodies, which reads as it did against the
    reserved table. -/
theorem installed (h : Prepared s interrupt t batch u bodies) (hreach : t.Reachable)
    (hopt : s.optimizer = none) {o : Outcome} (ho : (run s interrupt none t batch).outcome = .ok o)
    {d : Declaration} {arity : UInt32} {b : Body} (hb : b ∈ bodies)
    (hbody : bodyAlone s u d arity = .ok b) :
    o.table.procedure? d.name = some b.final ∧ o.table.Resolves b.final.code ∧
      o.table.spell b.final.code = u.spell b.final.code := by
  have hinstall : install u bodies = .ok o := by
    rw [h.run_eq] at ho
    exact ho
  obtain ⟨htable, hprocedures, -⟩ := install_eq_ok.mp hinstall
  have hmem : b.final ∈ o.procedures := hprocedures ▸ List.mem_map_of_mem hb
  have hname : b.final.name = d.name := congrArg Prod.fst (header_of_bodyAlone hbody)
  have hresolves := (h.resolves hreach hopt b hb).2
  have hnames := names_prefix_of_changes (changes_of_install htable)
  exact ⟨hname ▸ procedure?_of_run ho hmem, hresolves.later hnames, spell_later hnames hresolves⟩

end Prepared

/-! ## Batches in another order -/

section

variable {batch batch' : List Declaration} (hreach : t.Reachable) (hperm : batch.Perm batch')

include hreach hperm

/-- There is room for a batch in one order if there is in another. -/
theorem room_perm (hnodup : (batch.map (·.name)).Nodup)
    (hroom : ∀ u, t.reserve (reservations batch) = .ok u → u.size ≤ 2 ^ 32) {u' : DeclTable}
    (hu' : t.reserve (reservations batch') = .ok u') : u'.size ≤ 2 ^ 32 := by
  have hwanted : (reservations batch).Perm (reservations batch') := hperm.map _
  obtain ⟨u, hu⟩ := exists_reserve_perm hwanted.symm hu'
  rw [← map_fst_reservations] at hnodup
  rw [size_of_reserve_perm hreach hwanted hnodup hu hu']
  exact hroom u hu

theorem exists_run_perm (hopt : s.optimizer = none)
    (hroom : ∀ u, t.reserve (reservations batch) = .ok u → u.size ≤ 2 ^ 32)
    (h : ∃ o, (run s interrupt none t batch).outcome = .ok o) :
    ∃ o', (run s interrupt none t batch').outcome = .ok o' := by
  obtain ⟨o, ho⟩ := h
  obtain ⟨u, bodies, hprepared, -⟩ := Prepared.of_run ho
  have hsize := hroom u hprepared.slots_eq
  obtain ⟨u', bodies', hprepared'⟩ := hprepared.perm hreach hopt hsize hperm
  exact hprepared'.exists_run

variable {o o' : Outcome} (ho : (run s interrupt none t batch).outcome = .ok o)
  (ho' : (run s interrupt none t batch').outcome = .ok o')

include ho ho'

omit hreach in
/-- Every name has the same kind and arity in both tables. -/
theorem signature?_run_perm (name : String) :
    o'.table.signature? name = o.table.signature? name := by
  obtain ⟨u, bodies, hprepared, hinstall⟩ := Prepared.of_run ho
  obtain ⟨u', bodies', hprepared', hinstall'⟩ := Prepared.of_run ho'
  -- what was installed does not show in the records
  have hdecls := decls_install (install_eq_ok.mp hinstall).1
  have hdecls' := decls_install (install_eq_ok.mp hinstall').1
  rw [signature?, signature?, lookup?_congr hdecls, lookup?_congr hdecls']
  exact signature?_of_reserve_perm (hperm.map _) hprepared.nodup hprepared.slots_eq
    hprepared'.slots_eq name

/-- A declared name has code in both tables, which reads the same. -/
theorem exists_spell_run_perm (hopt : s.optimizer = none)
    (hroom : ∀ u, t.reserve (reservations batch) = .ok u → u.size ≤ 2 ^ 32) {d : Declaration}
    (hd : d ∈ batch) :
    ∃ p q, o.table.procedure? d.name = some p ∧ o'.table.procedure? d.name = some q ∧
      o.table.Resolves p.code ∧ o'.table.Resolves q.code ∧
      o'.table.spell q.code = o.table.spell p.code := by
  obtain ⟨u, bodies, hprepared, -⟩ := Prepared.of_run ho
  obtain ⟨u', bodies', hprepared', -⟩ := Prepared.of_run ho'
  have hsize := hroom u hprepared.slots_eq
  have htask : (d, UInt32.ofNat d.value.arity) ∈ tasks batch' :=
    List.mem_map.mpr ⟨d, hperm.mem_iff.mp hd, rfl⟩
  obtain ⟨b, hb, hbody, hreindexed⟩ :=
    hprepared.exists_body_reindex hreach hopt hsize hperm hprepared'.slots_eq htask
  -- the second order gave just the body of the first with its indices changed
  obtain ⟨b', hb', hbody'⟩ := hprepared'.exists_body htask
  obtain rfl := Except.ok.inj (hbody'.symm.trans hreindexed)
  obtain ⟨hp, hresolves, hspell⟩ := hprepared.installed hreach hopt ho hb hbody
  obtain ⟨hq, hresolves', hspell'⟩ := hprepared'.installed hreach hopt ho' hb' hbody'
  refine ⟨_, _, hp, hq, hresolves, hresolves', ?_⟩
  rw [hspell, hspell']
  have hrenumbers := hprepared.renumbers hreach hsize hperm hprepared'.slots_eq
  exact spell_reindex hrenumbers.moves (hprepared.resolves hreach hopt b hb).2

end

/-- The order of declarations inside a batch does not matter, up to the indices of new names.  A
    batch compiles in every order or in none.  In the tables that two orders leave, every name has
    the same kind and arity.  The two procedures of a declared name have the same code once indices
    are read as the names they stand for; every other name keeps its procedure, which reads the same
    in both tables if it refers to names of the old table. -/
theorem run_perm (hreach : t.Reachable) {batch batch' : List Declaration}
    (hperm : batch.Perm batch') (hopt : s.optimizer = none)
    (hroom : ∀ u, t.reserve (reservations batch) = .ok u → u.size ≤ 2 ^ 32) :
    ((∃ o, (run s interrupt none t batch).outcome = .ok o) ↔
        ∃ o', (run s interrupt none t batch').outcome = .ok o') ∧
      ∀ o o', (run s interrupt none t batch).outcome = .ok o →
        (run s interrupt none t batch').outcome = .ok o' →
          (∀ name, o'.table.signature? name = o.table.signature? name) ∧
          (∀ d ∈ batch, ∃ p q, o.table.procedure? d.name = some p ∧
            o'.table.procedure? d.name = some q ∧ o.table.Resolves p.code ∧
            o'.table.Resolves q.code ∧ o'.table.spell q.code = o.table.spell p.code) ∧
          ∀ name, name ∉ batch.map (·.name) →
            o.table.procedure? name = t.procedure? name ∧
            o'.table.procedure? name = t.procedure? name ∧
            ∀ p, t.procedure? name = some p → t.Resolves p.code →
              o'.table.spell p.code = o.table.spell p.code := by
  refine ⟨⟨exists_run_perm hreach hperm hopt hroom, ?_⟩, fun o o' ho ho' => ⟨?_, ?_, ?_⟩⟩
  · rintro ⟨o', ho'⟩
    -- a batch that compiles repeats no name, so the other order takes as much room
    obtain ⟨u', bodies', hprepared', -⟩ := Prepared.of_run ho'
    have hnodup : (batch.map (·.name)).Nodup := by
      refine (hperm.symm.map (·.name)).nodup ?_
      rw [← map_fst_reservations]
      exact hprepared'.nodup
    exact exists_run_perm hreach hperm.symm hopt
      (fun _ hu' => room_perm hreach hperm hnodup hroom hu') ⟨o', ho'⟩
  · exact signature?_run_perm hperm ho ho'
  · exact fun d hd => exists_spell_run_perm hreach hperm ho ho' hopt hroom hd
  · intro name hname
    have hname' : name ∉ batch'.map (·.name) := fun hmem =>
      hname ((hperm.map (·.name)).mem_iff.mpr hmem)
    refine ⟨procedure?_of_run_of_notMem ho hname, procedure?_of_run_of_notMem ho' hname', ?_⟩
    intro p _ hresolves
    have hnames := names_prefix_of_changes (changes_of_run ho)
    have hnames' := names_prefix_of_changes (changes_of_run ho')
    rw [spell_later hnames hresolves, spell_later hnames' hresolves]

/-- `double` is declared again beside three new functions that call it and each other.  In the
    reverse order they stand at other indices. -/
theorem run_perm_multiples :
    withMultiples.Reachable ∧
      (doubleOfTwo ++ largeMultiples).Perm (doubleOfTwo ++ largeMultiples).reverse ∧
      ∃ o o' p q, (run { watched with verify := true } none none withMultiples
          (doubleOfTwo ++ largeMultiples)).outcome = .ok o ∧
        (run { watched with verify := true } none none withMultiples
          (doubleOfTwo ++ largeMultiples).reverse).outcome = .ok o' ∧
        (∀ name, o'.table.signature? name = o.table.signature? name) ∧
        o.table.procedure? "sixteenfold" = some p ∧ o'.table.procedure? "sixteenfold" = some q ∧
        q.code ≠ p.code ∧ o'.table.spell q.code = o.table.spell p.code ∧
        o.table.procedure? "fourfold" = some fourfold ∧
        o'.table.procedure? "fourfold" = some fourfold ∧
        o'.table.spell fourfold.code = o.table.spell fourfold.code := by
  have hperm : (doubleOfTwo ++ largeMultiples).Perm (doubleOfTwo ++ largeMultiples).reverse :=
    (List.reverse_perm _).symm
  have hroom : ∀ u, withMultiples.reserve (reservations (doubleOfTwo ++ largeMultiples)) = .ok u →
      u.size ≤ 2 ^ 32 := fun u hu =>
    Nat.le_trans (size_reserve hu) (by decide)
  obtain ⟨hiff, hsame⟩ := @run_perm { watched with verify := true } none withMultiples
    reachable_withMultiples _ _ hperm rfl hroom
  have hfirst : (run { watched with verify := true } none none withMultiples
      (doubleOfTwo ++ largeMultiples)).outcome.toOption.map
        (fun o => (o.table.procedure? "sixteenfold").map (·.code))
      = some (some [.push 0, .invoke .invokeGlobal 3, .push 0, .invoke .invokeGlobal 3,
          .invoke .invokeGlobal 1, .ret]) := by decide +kernel
  have hsecond : (run { watched with verify := true } none none withMultiples
      (doubleOfTwo ++ largeMultiples).reverse).outcome.toOption.map
        (fun o => (o.table.procedure? "sixteenfold").map (·.code))
      = some (some [.push 0, .invoke .invokeGlobal 5, .push 0, .invoke .invokeGlobal 5,
          .invoke .invokeGlobal 1, .ret]) := by decide +kernel
  obtain ⟨o, ho, hcode⟩ := Option.map_eq_some_iff.mp hfirst
  obtain ⟨o', ho', hcode'⟩ := Option.map_eq_some_iff.mp hsecond
  have ho := eq_ok_of_toOption ho
  have ho' := eq_ok_of_toOption ho'
  obtain ⟨hsignature, hdeclared, hothers⟩ := hsame o o' ho ho'
  obtain ⟨p, q, hp, hq, -, -, hspell⟩ := hdeclared largeMultiples[0] (by decide)
  obtain ⟨hold, hold', hspell'⟩ := hothers "fourfold" (by decide)
  have hfourfold : withMultiples.procedure? "fourfold" = some fourfold := by decide
  have hp : o.table.procedure? "sixteenfold" = some p := hp
  have hq : o'.table.procedure? "sixteenfold" = some q := hq
  rw [hp, Option.map_some] at hcode
  rw [hq, Option.map_some] at hcode'
  refine ⟨reachable_withMultiples, hperm, o, o', p, q, ho, ho', hsignature, hp, hq, ?_, hspell,
    hold.trans hfourfold, hold'.trans hfourfold, hspell' fourfold hfourfold ?_⟩
  · rw [Option.some.inj hcode, Option.some.inj hcode']
    decide
  · intro i hi hrefers
    revert i
    decide

/-- A table with code that was installed for a name and refers to the index after the last. -/
def withForward : DeclTable :=
  ⟨[⟨⟨"old", 0, .compiled, 0⟩, some ⟨"old", 0, [.invoke .invokeGlobal 1, .ret]⟩⟩]⟩

/-- Two constants. -/
def twoConstants : List Declaration :=
  [⟨"a", .nat 1⟩, ⟨"b", .nat 2⟩]

/-- Code that refers beyond the end of its table comes to refer to what a batch declares first, so it
    does not read the same after two orders of the batch. -/
theorem spell_withForward :
    withForward.Reachable ∧ twoConstants.Perm twoConstants.reverse ∧
      ∃ o o' p, (run .plain none none withForward twoConstants).outcome = .ok o ∧
        (run .plain none none withForward twoConstants.reverse).outcome = .ok o' ∧
        o.table.procedure? "old" = some p ∧ o'.table.procedure? "old" = some p ∧
        o'.table.spell p.code ≠ o.table.spell p.code := by
  have hreach : withForward.Reachable := by
    have hreserved : DeclTable.empty.reserve [("old", 0)]
        = .ok ⟨[⟨⟨"old", 0, .compiled, 0⟩, none⟩]⟩ := by decide
    have hinstalled : DeclTable.install ⟨[⟨⟨"old", 0, .compiled, 0⟩, none⟩]⟩
        [⟨"old", 0, [.invoke .invokeGlobal 1, .ret]⟩] = .ok withForward := by decide
    exact .install (.reserve .empty hreserved) hinstalled
  have hfirst : (run .plain none none withForward twoConstants).outcome.toOption.map
      (fun o => (o.table.procedure? "old", (o.table.at? 1).map (·.name)))
      = some (withForward.procedure? "old", some "a") := by decide +kernel
  have hsecond : (run .plain none none withForward twoConstants.reverse).outcome.toOption.map
      (fun o => (o.table.procedure? "old", (o.table.at? 1).map (·.name)))
      = some (withForward.procedure? "old", some "b") := by decide +kernel
  obtain ⟨o, ho, hfacts⟩ := Option.map_eq_some_iff.mp hfirst
  obtain ⟨o', ho', hfacts'⟩ := Option.map_eq_some_iff.mp hsecond
  obtain ⟨hproc, hname⟩ := Prod.mk.inj hfacts
  obtain ⟨hproc', hname'⟩ := Prod.mk.inj hfacts'
  refine ⟨hreach, (List.reverse_perm _).symm, o, o', _, eq_ok_of_toOption ho,
    eq_ok_of_toOption ho', hproc, hproc', fun hsame => ?_⟩
  -- the first instruction reads `b` in one table and `a` in the other
  have hhead : (o'.table.at? 1).map (·.name) = (o.table.at? 1).map (·.name) :=
    congrArg Prod.snd (List.cons.inj hsame).1
  rw [hname, hname'] at hhead
  exact absurd hhead (by decide)

end Build

end TermVM
