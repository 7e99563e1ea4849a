/-
  TermVM.Proofs.Build.Validity

  Installed code stays valid.

  Code holds the positions of what it calls, and is not looked at again after
  it was installed.  Verification asks the table for the records at these
  positions and for nothing else, so code that passes against a table passes
  against every table that has grown from it (`analyze_of_grows`).  A batch
  that gives compiled names the arities they have lets the table grow, and its
  own code passes against the reserved table; hence everything that is
  installed passes against the table it ends up in, however many batches
  followed it: `installed_code_verifies`.
-/
import TermVM.Proofs.Balance.Layout
import TermVM.Proofs.Build.Basic
import TermVM.Proofs.DeclTable.Slots
import TermVM.Proofs.Verify.Renumbering

namespace TermVM

variable {t t' : DeclTable}

/-! ## Growing tables -/

namespace DeclTable

/-- The records of a table are still there, unchanged and at their positions. -/
def Grows (t t' : DeclTable) : Prop :=
  t.decls <+: t'.decls

theorem Grows.refl (t : DeclTable) : t.Grows t :=
  List.prefix_refl _

theorem Grows.trans {t₁ t₂ t₃ : DeclTable} (h : t₁.Grows t₂) (h' : t₂.Grows t₃) : t₁.Grows t₃ :=
  List.IsPrefix.trans h h'

theorem Grows.size_le (h : t.Grows t') : t.size ≤ t'.size := by
  have hlen := List.IsPrefix.length_le h
  simpa [decls, size] using hlen

theorem Grows.at? (h : t.Grows t') {index : UInt32} {d : Decl} (hd : t.at? index = some d) :
    t'.at? index = some d := by
  have hat : ∀ u : DeclTable, u.at? index = u.decls[index.toNat]? := by
    intro u
    simp [DeclTable.at?, decls]
  rw [hat] at hd ⊢
  obtain ⟨more, hmore⟩ := h
  have hlt := (List.getElem?_eq_some_iff.mp hd).1
  rw [← hmore, List.getElem?_append_left hlt, hd]

theorem Grows.moves (h : t.Grows t') : t.Moves id t' :=
  fun _ _ hd => h.at? hd

end DeclTable

/-! ## Verification against a grown table -/

namespace Verify

/-- Code that passes against a table passes, with the same depths, when the table has grown. -/
theorem analyze_of_grows (h : t.Grows t') {p : Procedure} {a : Analysis}
    (ha : analyze t p = .ok a) : analyze t' p = .ok a := by
  simpa [Instr.reindex_id] using analyze_of_moves h.moves ha

end Verify

/-! ## Reservation and installation -/

namespace DeclTable

/-- A name that keeps its arity, or is new, lets the table grow. -/
theorem grows_of_reserveOne (hcoherent : t.Coherent) {name : String} {arity : UInt32}
    (hkeeps : ∀ d, t.lookup? name = some d → d.kind = .compiled → d.arity = arity)
    (h : t.reserveOne name arity = .ok t') : t.Grows t' := by
  obtain ⟨-, rfl⟩ | ⟨d, hd, hkind, rfl⟩ := reserveOne_eq_ok.mp h
  · exact ⟨[⟨name, arity, .compiled, UInt32.ofNat t.size⟩], by simp [decls, append]⟩
  · -- the record of the name is written back as it was
    have hsame : ∀ r ∈ t.rows, r.decl.name = name → { r.decl with arity := arity } = r.decl := by
      intro r hr hname
      have hrow := row?_of_mem hcoherent.names_nodup hr
      have hdecl : r.decl = d := by
        rw [lookup?, ← hname, hrow] at hd
        exact Option.some.inj hd
      rw [← hkeeps d hd hkind, ← hdecl]
    have hdecls : (t.modify name fun r =>
        { decl := { r.decl with arity := arity }, proc := none }).decls = t.decls := by
      simp only [decls, modify, List.map_map]
      refine List.map_congr_left fun r hr => ?_
      simp only [Function.comp_apply]
      split
      · next hname => exact hsame r hr (by simpa using hname)
      · rfl
    simp only [Grows, hdecls, List.prefix_refl]

/-- Distinct names that keep their arities, or are new, let the table grow. -/
theorem grows_of_reserve (hcoherent : t.Coherent) {wanted : List (String × UInt32)}
    (hnodup : (wanted.map (·.1)).Nodup)
    (hkeeps : ∀ w ∈ wanted, ∀ d, t.lookup? w.1 = some d → d.kind = .compiled → d.arity = w.2)
    (h : t.reserve wanted = .ok t') : t.Grows t' := by
  induction wanted generalizing t with
  | nil =>
    cases h
    exact Grows.refl _
  | cons w wanted ih =>
    obtain ⟨t₁, h₁, h⟩ := Result.bind_eq_ok.mp (show (t.reserveOne w.1 w.2 >>= fun t₁ =>
      t₁.reserve wanted) = .ok t' from h)
    rw [List.map_cons, List.nodup_cons] at hnodup
    rw [List.forall_mem_cons] at hkeeps
    have hgrows := grows_of_reserveOne hcoherent hkeeps.1 h₁
    refine hgrows.trans (ih (hcoherent.change (change_of_reserveOne h₁)) hnodup.2 ?_ h)
    -- the names that follow are other names, so their records are still the same
    intro v hv d hd
    have hne : v.1 ≠ w.1 := fun heq => hnodup.1 (heq ▸ List.mem_map_of_mem hv)
    rw [lookup?_reserveOne hne h₁] at hd
    exact hkeeps.2 v hv d hd

/-- A procedure is installed in a table. -/
def Holds (t : DeclTable) (p : Procedure) : Prop :=
  ∃ r ∈ t.rows, r.proc = some p

/-- Reservation installs nothing. -/
theorem holds_of_reserve {wanted : List (String × UInt32)} (h : t.reserve wanted = .ok t')
    {p : Procedure} (hp : t'.Holds p) : t.Holds p := by
  refine Result.foldlM_invariant (P := fun u => u.Holds p → t.Holds p) ?_ id h hp
  intro t₁ w t₂ h₁ hback hp₂
  obtain ⟨r, hr, hproc⟩ := hp₂
  refine hback ?_
  obtain ⟨-, rfl⟩ | ⟨d, -, -, rfl⟩ := reserveOne_eq_ok.mp h₁
  · rcases List.mem_append.mp hr with hr | hr
    · exact ⟨r, hr, hproc⟩
    · rw [List.mem_singleton.mp hr] at hproc
      cases hproc
  · obtain ⟨r₀, hr₀, rfl⟩ := List.mem_map.mp hr
    split at hproc
    · cases hproc
    · exact ⟨r₀, hr₀, hproc⟩

/-- Installation adds the given code and nothing else. -/
theorem holds_of_install {procs : List Procedure} (h : t.install procs = .ok t')
    {p : Procedure} (hp : t'.Holds p) : p ∈ procs ∨ t.Holds p := by
  induction procs generalizing t with
  | nil =>
    cases h
    exact .inr hp
  | cons q procs ih =>
    obtain ⟨t₁, h₁, h⟩ := Result.bind_eq_ok.mp (show (t.installOne q >>= fun t₁ =>
      t₁.install procs) = .ok t' from h)
    rcases ih h with hmem | ⟨r, hr, hproc⟩
    · exact .inl (List.mem_cons_of_mem q hmem)
    · obtain ⟨d, -, -, -, rfl⟩ := installOne_eq_ok.mp h₁
      obtain ⟨r₀, hr₀, rfl⟩ := List.mem_map.mp hr
      split at hproc
      · obtain rfl : q = p := Option.some.inj hproc
        exact .inl List.mem_cons_self
      · exact .inr ⟨r₀, hr₀, hproc⟩

end DeclTable

/-! ## Batches -/

namespace Build

open DeclTable TermVM.Result Verify

/-- Everything that is installed in a table passes verification against it. -/
def Valid (t : DeclTable) : Prop :=
  ∀ p, t.Holds p → ∃ a, analyze t p = .ok a

/-- A batch gives every compiled name that it declares again the number of parameters that the name
    has. -/
def KeepsArities (t : DeclTable) (batch : List Declaration) : Prop :=
  ∀ d ∈ batch, ∀ r, t.lookup? d.name = some r → r.kind = .compiled → d.value.arity = r.arity.toNat

variable {s : Settings} {interrupt : Option Interrupt} {batch : List Declaration} {o : Outcome}

/-- Generated code passes verification against the table it was generated for. -/
theorem analyze_of_generate (hwf : t.WellFormed) (hsize : t.size ≤ 2 ^ 32) {d : Declaration}
    (hd : d.value.nodes < 2 ^ 30) {p : Procedure} (hp : generate s t d = .ok p) :
    ∃ a, analyze t p = .ok a := by
  obtain ⟨marks, hlen, hentry, hfits⟩ :=
    Codegen.exists_marks_procedure hwf hsize hd (generate_eq_ok.mp hp)
  have hdisciplined := disciplined_of_marks hlen hentry hfits
  rw [analyze_eq_analyzeBy]
  exact analyzeBy_complete rearranges_self hfits.furnished hdisciplined

theorem analyze_of_bodyAlone (hwf : t.WellFormed) (hsize : t.size ≤ 2 ^ 32)
    (hopt : s.optimizer = none) {d : Declaration} (hd : d.value.nodes < 2 ^ 30) {arity : UInt32}
    {b : Body} (hb : bodyAlone s t d arity = .ok b) : ∃ a, analyze t b.final = .ok a := by
  obtain ⟨p, hp, hfinish⟩ := bodyAlone_eq_ok.mp hb
  obtain ⟨-, -, rfl⟩ := finish_eq_ok.mp hfinish
  rw [Settings.optimized_of_none hopt]
  exact analyze_of_generate hwf hsize hd hp

/-- What a batch does to the table: it reserves slots, then installs the final code of bodies that
    were compiled against the reserved table. -/
theorem table_of_run (hrun : (run s interrupt none t batch).outcome = .ok o) :
    ∃ reserved bodies, reserve t batch = .ok reserved ∧
      List.Forall₂ (fun task b => bodyAlone s reserved task.1 task.2 = .ok b) (tasks batch) bodies ∧
      reserved.install (bodies.map (·.final)) = .ok o.table := by
  obtain ⟨reserved, hreserve, bodies, ⟨-, hbodies⟩, hconclude⟩ := run_eq_ok_iff.mp hrun
  have hinstall := (conclude_eq_ok.mp hconclude).2
  exact ⟨reserved, bodies, hreserve, hbodies, (install_eq_ok.mp hinstall).1⟩

theorem reachable_of_run {store : Option Store} (hreach : t.Reachable)
    (hrun : (run s interrupt store t batch).outcome = .ok o) : o.table.Reachable := by
  obtain ⟨reserved, hreserve, hinstall⟩ := tables_of_run hrun
  exact (hreach.reserve (reserve_eq_ok.mp hreserve).2).install hinstall

/-- The table grows with the slots of a batch that keeps arities. -/
theorem grows_of_reserve_batch (hreach : t.Reachable) (hkeeps : KeepsArities t batch)
    (h : reserve t batch = .ok t') : t.Grows t' := by
  obtain ⟨hrepeat, hreserve⟩ := reserve_eq_ok.mp h
  refine DeclTable.grows_of_reserve hreach.coherent ?_ ?_ hreserve
  · have hnames : (reservations batch).map (·.1) = batch.map (·.name) := by
      simp [reservations]
    rw [hnames]
    exact (nodup_of_firstRepeat? hrepeat).1
  · intro w hw r hr hkind
    obtain ⟨d, hd, rfl⟩ := List.mem_map.mp hw
    have harity := hkeeps d hd r hr hkind
    rw [harity, UInt32.ofNat_toNat]

/-- Installed code has the records of the reserved table. -/
theorem grows_of_install {procs : List Procedure} (h : t.install procs = .ok t') : t.Grows t' := by
  simp only [Grows, decls_install h, List.prefix_refl]

theorem grows_of_run (hreach : t.Reachable) (hkeeps : KeepsArities t batch)
    (hrun : (run s interrupt none t batch).outcome = .ok o) : t.Grows o.table := by
  obtain ⟨reserved, bodies, hreserve, -, hinstall⟩ := table_of_run hrun
  exact (grows_of_reserve_batch hreach hkeeps hreserve).trans (grows_of_install hinstall)

/-- One batch leaves a valid table valid when compiled names keep their arities. -/
theorem valid_of_run (hreach : t.Reachable) (hvalid : Valid t) (hopt : s.optimizer = none)
    (hsmall : ∀ d ∈ batch, d.value.nodes < 2 ^ 30) (hkeeps : KeepsArities t batch)
    (hrun : (run s interrupt none t batch).outcome = .ok o) (hsize : o.table.size ≤ 2 ^ 32) :
    Valid o.table := by
  obtain ⟨reserved, bodies, hreserve, hbodies, hinstall⟩ := table_of_run hrun
  have hslots := (reserve_eq_ok.mp hreserve).2
  have hreserved : reserved.Reachable := hreach.reserve hslots
  have hgrows := grows_of_install hinstall
  intro p hp
  rcases holds_of_install hinstall hp with hnew | hold
  · -- code of this batch was generated for the reserved table
    obtain ⟨b, hb, rfl⟩ := List.mem_map.mp hnew
    obtain ⟨task, htask, hbody⟩ := exists_of_mem_right hbodies hb
    obtain ⟨d, hd, rfl⟩ := List.mem_map.mp htask
    have hsize' := Nat.le_trans hgrows.size_le hsize
    obtain ⟨a, ha⟩ := analyze_of_bodyAlone hreserved.wellFormed hsize' hopt (hsmall d hd) hbody
    exact ⟨a, analyze_of_grows hgrows ha⟩
  · -- older code was valid before the table grew
    obtain ⟨a, ha⟩ := hvalid p (holds_of_reserve hslots hold)
    exact ⟨a, analyze_of_grows (grows_of_run hreach hkeeps hrun) ha⟩

/-! ## Runs -/

/-- The tables that batches lead to when each is compiled against the table its predecessor left,
    without a store and an optimizer, and gives compiled names the arities they have. -/
inductive ArityKeepingRun (start : DeclTable) : DeclTable → Prop where
  | start : ArityKeepingRun start start
  | batch {t : DeclTable} {s : Settings} {interrupt : Option Interrupt} {batch : List Declaration}
      {o : Outcome} (h : ArityKeepingRun start t) (hopt : s.optimizer = none)
      (hsmall : ∀ d ∈ batch, d.value.nodes < 2 ^ 30) (hkeeps : KeepsArities t batch)
      (hrun : (run s interrupt none t batch).outcome = .ok o) : ArityKeepingRun start o.table

/-- A table without compiled names has no code that could be invalid. -/
theorem valid_of_fixed (hreach : t.Reachable)
    (hfixed : ∀ d ∈ t.decls, d.kind = .builtin ∨ d.kind = .native) : Valid t := by
  rintro p ⟨r, hr, hp⟩
  have hcompiled := (hreach.coherent.proc_fits r hr p hp).1
  rcases hfixed r.decl (List.mem_map_of_mem hr) with hkind | hkind
  · rw [hkind] at hcompiled
    cases hcompiled
  · rw [hkind] at hcompiled
    cases hcompiled

/-- Installed code stays valid.  From a table of builtin and native declarations, through any number
    of batches that give compiled names the arities they have, every procedure in the final table
    passes verification against it, however long ago it was compiled and whether batches were
    verified or not.  The index of a record has 32 bits, so the table may hold as many records as
    that. -/
theorem installed_code_verifies {start final : DeclTable} (hreach : start.Reachable)
    (hfixed : ∀ d ∈ start.decls, d.kind = .builtin ∨ d.kind = .native)
    (hrun : ArityKeepingRun start final) (hsize : final.size ≤ 2 ^ 32) :
    ∀ r ∈ final.rows, ∀ p, r.proc = some p → ∃ a, analyze final p = .ok a := by
  -- reachability needs no bound on the size, validity does
  have hrunReach : ∀ u, ArityKeepingRun start u → u.Reachable := by
    intro u hu
    induction hu with
    | start => exact hreach
    | batch _ _ _ _ hrun ih => exact reachable_of_run ih hrun
  have hvalid : Valid final := by
    induction hrun with
    | start => exact valid_of_fixed hreach hfixed
    | @batch t s interrupt batch o h hopt hsmall hkeeps hrun ih =>
      have ht := hrunReach t h
      have hle := (grows_of_run ht hkeeps hrun).size_le
      exact valid_of_run ht (ih (Nat.le_trans hle hsize)) hopt hsmall hkeeps hrun hsize
  exact fun r hr p hp => hvalid p ⟨r, hr, hp⟩

/-- A table with one native declaration. -/
def onlyAddition : DeclTable :=
  ⟨[⟨⟨"add", 2, .native, 0⟩, none⟩]⟩

/-- A function, and one that calls it twice. -/
def multiples : List Declaration :=
  [⟨"double", .lam "n" (.app (.global "add") [.var 0, .var 0])⟩,
   ⟨"fourfold", .lam "n" (.app (.global "double") [.app (.global "double") [.var 0]])⟩]

/-- The first function again with another body, and one that calls both. -/
def moreMultiples : List Declaration :=
  [⟨"double", .lam "n" (.app (.global "add") [.app (.global "add") [.var 0, .nat 0], .var 0])⟩,
   ⟨"eightfold", .lam "n" (.app (.global "double") [.app (.global "fourfold") [.var 0]])⟩]

/-- The table after the first batch. -/
def withMultiples : DeclTable :=
  ⟨[⟨⟨"add", 2, .native, 0⟩, none⟩,
    ⟨⟨"double", 1, .compiled, 1⟩,
      some ⟨"double", 1, [.push 0, .push 0, .invoke .invokeNative 0, .ret]⟩⟩,
    ⟨⟨"fourfold", 1, .compiled, 2⟩,
      some ⟨"fourfold", 1, [.push 0, .invoke .invokeGlobal 1, .invoke .invokeGlobal 1, .ret]⟩⟩]⟩

theorem keepsArities_moreMultiples : KeepsArities withMultiples moreMultiples := by
  intro d hd r hr _
  simp only [moreMultiples, List.mem_cons, List.not_mem_nil, or_false] at hd
  rcases hd with rfl | rfl
  · have hdouble : withMultiples.lookup? "double" = some ⟨"double", 1, .compiled, 1⟩ := by decide
    obtain rfl := Option.some.inj (hdouble.symm.trans hr)
    rfl
  · have hnew : withMultiples.lookup? "eightfold" = none := by decide
    cases hnew.symm.trans hr

theorem multiples_verify : ∃ final, ArityKeepingRun onlyAddition final ∧ final.size = 4 ∧
    final.procedure? "fourfold" = withMultiples.procedure? "fourfold" ∧
    final.procedure? "double" ≠ withMultiples.procedure? "double" ∧
    ∀ r ∈ final.rows, ∀ p, r.proc = some p → ∃ a, analyze final p = .ok a := by
  have hreach : onlyAddition.Reachable :=
    @Reachable.declare .empty _ "add" 2 .native .empty rfl
  have hfirst : (run .plain none none onlyAddition multiples).outcome.toOption.map (·.table)
      = some withMultiples := by decide +kernel
  obtain ⟨o, ho, htable⟩ := Option.map_eq_some_iff.mp hfirst
  have hrun₁ : ArityKeepingRun onlyAddition withMultiples := by
    rw [← htable]
    refine ArityKeepingRun.start.batch rfl (by decide) ?_ (Result.eq_ok_of_toOption ho)
    -- the first batch declares nothing again
    intro d hd r hr hkind
    obtain ⟨r₀, hr₀, rfl, -⟩ := row_of_lookup? hr
    rw [List.mem_singleton.mp hr₀] at hkind
    cases hkind
  -- the second batch is verified, the first was not
  have hsecond : (run { Settings.plain with verify := true } none none withMultiples
      moreMultiples).outcome.toOption.map (fun o => (o.table.size,
        decide (o.table.procedure? "fourfold" = withMultiples.procedure? "fourfold"),
        decide (o.table.procedure? "double" = withMultiples.procedure? "double")))
      = some (4, true, false) := by decide +kernel
  obtain ⟨o', ho', hfacts⟩ := Option.map_eq_some_iff.mp hsecond
  simp only [Prod.mk.injEq, decide_eq_true_eq, decide_eq_false_iff_not] at hfacts
  obtain ⟨hsize, hfourfold, hdouble⟩ := hfacts
  have hrun₂ : ArityKeepingRun onlyAddition o'.table :=
    hrun₁.batch rfl (by decide) keepsArities_moreMultiples (Result.eq_ok_of_toOption ho')
  exact ⟨o'.table, hrun₂, hsize, hfourfold, hdouble,
    installed_code_verifies hreach (by decide) hrun₂ (by rw [hsize]; decide)⟩

end Build

end TermVM
