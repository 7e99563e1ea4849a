/-
  TermVM.Proofs.Build.Gathering

  Batches in order, and all that they leave.

  Every batch adds its procedures to the table, so the table that the last one
  leaves gathers the procedures of all of them, whatever their bodies found in
  the store.  What a body finds there was in the store at the start, or was
  generated earlier on from a term that was read (`Known`); either way its
  indices were positions of the table then, and names keep their positions.
-/
import TermVM.Proofs.Build.Batches
import TermVM.Proofs.Build.Readback
import TermVM.Proofs.Build.Redeclaration
import TermVM.Proofs.Build.Schedule
import TermVM.Proofs.Listing
import TermVM.Proofs.Store.Agreement

open TermVM.Result

namespace TermVM.Build

open DeclTable

variable {s : Settings} {interrupt : Option Interrupt} {store : Option Store} {initial : Store}
  {table t t' : DeclTable} {batch : List Declaration} {batches : List (List Declaration)}
  {o : Outcome} {os : List Outcome}

/-! ## Tables -/

/-- The table after batches with these outcomes. -/
def finalTable (table : DeclTable) : List Outcome → DeclTable
  | [] => table
  | o :: os => finalTable o.table os

/-- Batches all succeed in order when the first does and the others do against what it leaves. -/
theorem inOrder_cons_eq_ok (h : inOrder s store table (batch :: batches) = os.map .ok) :
    ∃ o os', os = o :: os' ∧ (run s none store table batch).outcome = .ok o ∧
      inOrder s (run s none store table batch).store o.table batches = os'.map .ok := by
  rw [inOrder] at h
  cases os with
  | nil => cases h
  | cons o os =>
    obtain ⟨hfirst, hrest⟩ := List.cons.inj h
    rw [hfirst] at hrest
    exact ⟨o, os, rfl, hfirst, hrest⟩

theorem inOrder_nil_eq_ok (h : inOrder s store table [] = os.map .ok) : os = [] :=
  List.map_eq_nil_iff.mp h.symm

theorem reachable_finalTable (hreach : table.Reachable)
    (h : inOrder s store table batches = os.map .ok) : (finalTable table os).Reachable := by
  induction batches generalizing store table os with
  | nil =>
    cases inOrder_nil_eq_ok h
    exact hreach
  | cons batch batches ih =>
    obtain ⟨o, os, rfl, hfirst, hrest⟩ := inOrder_cons_eq_ok h
    rw [finalTable]
    exact ih (reachable_of_run hreach hfirst) hrest

/-- Names are added at the end, batch after batch. -/
theorem names_prefix_finalTable (h : inOrder s store table batches = os.map .ok) :
    table.names <+: (finalTable table os).names ∧
      ∀ o ∈ os, o.table.names <+: (finalTable table os).names := by
  induction batches generalizing store table os with
  | nil =>
    cases inOrder_nil_eq_ok h
    exact ⟨List.prefix_refl _, by simp⟩
  | cons batch batches ih =>
    obtain ⟨o, os, rfl, hfirst, hrest⟩ := inOrder_cons_eq_ok h
    obtain ⟨hnext, hothers⟩ := ih hrest
    refine ⟨?_, List.forall_mem_cons.mpr ⟨hnext, hothers⟩⟩
    exact (names_prefix_of_changes (changes_of_run hfirst)).trans hnext

/-- The last table gathers the procedures of all batches. -/
theorem gathers_finalTable {start : DeclTable} {ps : List Procedure}
    (hgathers : start.Gathers ps table) (h : inOrder s store table batches = os.map .ok) :
    start.Gathers (ps ++ os.flatMap (·.procedures)) (finalTable table os) := by
  induction batches generalizing store table os ps with
  | nil =>
    cases inOrder_nil_eq_ok h
    rwa [List.flatMap_nil, List.append_nil]
  | cons batch batches ih =>
    obtain ⟨o, os, rfl, hfirst, hrest⟩ := inOrder_cons_eq_ok h
    obtain ⟨reserved, hreserve, hinstall⟩ := exists_reserve_install hfirst
    rw [List.flatMap_cons, ← List.append_assoc]
    exact ih (hgathers.batch hreserve hinstall) hrest

/-- Procedures are named after declarations. -/
theorem name_of_inOrder (h : inOrder s store table batches = os.map .ok) :
    ∀ o ∈ os, ∀ p ∈ o.procedures, ∃ batch ∈ batches, ∃ d ∈ batch, p.name = d.name := by
  induction batches generalizing store table os with
  | nil =>
    cases inOrder_nil_eq_ok h
    simp
  | cons batch batches ih =>
    obtain ⟨o, os, rfl, hfirst, hrest⟩ := inOrder_cons_eq_ok h
    refine List.forall_mem_cons.mpr ⟨fun p hp => ?_, fun o' ho' p hp => ?_⟩
    · have hmem : header p ∈ reservations batch := headers_of_run hfirst ▸ List.mem_map_of_mem hp
      obtain ⟨d, hd, hheader⟩ := List.mem_map.mp hmem
      exact ⟨batch, List.mem_cons_self, d, hd, (Prod.mk.inj hheader).1.symm⟩
    · obtain ⟨batch', hbatch', hname⟩ := ih hrest o' ho' p hp
      exact ⟨batch', List.mem_cons_of_mem batch hbatch', hname⟩

/-! ## Code -/

/-- Code that was generated from a term that was read, against a table whose names still stand where
    they stood. -/
structure Sourced (t : DeclTable) (code : Code) : Prop where
  resolves : t.Resolves code
  generated : ∃ value : Term, value.Writable .standard 29 ∧ ∀ i ∈ code, i.Generated value

/-- Code that was in a store at the start, or was generated from a term that was read. -/
def Known (initial : Store) (t : DeclTable) (code : Code) : Prop :=
  (∃ key q, initial.get? none key = .ok (some q) ∧ q.code = code) ∨ Sourced t code

/-- All code in a store is known. -/
def Accounted (initial : Store) (t : DeclTable) (store : Option Store) : Prop :=
  ∃ st, store = some st ∧ ∀ key q, st.get? none key = .ok (some q) → Known initial t q.code

theorem Known.later {code : Code} (h : Known initial t code) (hnames : t.names <+: t'.names) :
    Known initial t' code :=
  h.imp_right fun hsourced => ⟨hsourced.resolves.later hnames, hsourced.generated⟩

theorem Accounted.later (h : Accounted initial t store) (hnames : t.names <+: t'.names) :
    Accounted initial t' store := by
  obtain ⟨st, hst, hknown⟩ := h
  exact ⟨st, hst, fun key q hq => (hknown key q hq).later hnames⟩

theorem accounted_initial (initial : Store) (t : DeclTable) :
    Accounted initial t (some initial) :=
  ⟨initial, rfl, fun key q hq => .inl ⟨key, q, hq, rfl⟩⟩

theorem sourced_of_generate (hwf : t.WellFormed) {d : Declaration} (hd : d.Writable .standard 29)
    {p : Procedure} (h : generate s t d = .ok p) : Sourced t p.code where
  resolves := resolves_of_compileProcedure hwf (generate_eq_ok.mp h)
  generated := ⟨d.value, hd.value, fun _ hi =>
    Codegen.generated_of_compileProcedure (generate_eq_ok.mp h) hi⟩

/-- A body that was read gives known code and stores nothing else. -/
theorem known_of_compileBody (hplain : s.optimizer = none) (hwf : t.WellFormed) {d : Declaration}
    (hd : d.Writable .standard 29) {arity : UInt32} {store' : Option Store} {b : Body}
    (hstore : Accounted initial t store) (h : compileBody s store t d arity = (store', .ok b)) :
    Accounted initial t store' ∧ Known initial t b.final.code := by
  obtain ⟨st, rfl, hknown⟩ := hstore
  obtain ⟨p, hit, hcode, hfinish⟩ := compileBody_eq_ok.mp h
  obtain ⟨-, -, rfl⟩ := finish_eq_ok.mp hfinish
  show Accounted initial t store' ∧ Known initial t (s.optimized t p).code
  rw [Settings.optimized_of_none hplain]
  obtain ⟨key, ⟨hfetch, rfl⟩ | ⟨hgenerate, st', hkeep, rfl⟩⟩ := bodyCode_some_eq_ok hcode
  · obtain ⟨q, hq, rfl⟩ := fetch_eq_some hfetch
    exact ⟨⟨st, rfl, hknown⟩, hknown key q hq⟩
  · have hsourced := sourced_of_generate hwf hd hgenerate
    obtain ⟨value, -, hgenerated⟩ := hsourced.generated
    refine ⟨⟨st', rfl, fun k q hq => ?_⟩, .inr hsourced⟩
    -- what is found now was stored just now, or was there before
    rcases Store.code_of_get?_put (fun i hi => (hgenerated i hi).tidy.1)
      (mapError_eq_ok.mp hkeep) hq with hsame | hold
    · rw [hsame]
      exact .inr hsourced
    · exact hknown k q hold

/-- A batch that was read gives known code and stores nothing else. -/
theorem known_of_run (hplain : s.optimizer = none) (hreach : table.Reachable)
    (hbatch : ∀ d ∈ batch, d.Writable .standard 29) (hstore : Accounted initial table store)
    (h : (run s interrupt store table batch).outcome = .ok o) :
    Accounted initial o.table (run s interrupt store table batch).store ∧
      ∀ p ∈ o.procedures, Known initial o.table p.code := by
  obtain ⟨reserved, hreserve, hinstall⟩ := exists_reserve_install h
  have hwf : reserved.WellFormed := (hreach.reserve hreserve).wellFormed
  have hnames : reserved.names = o.table.names := by
    rw [names, names, decls_install hinstall]
  -- bodies are compiled against the reserved slots, whose names the batch leaves as they are
  have hbefore := hstore.later (names_prefix_of_changes (changes_of_reserve hreserve))
  rw [headers_of_run h] at hreserve
  have hall := @forall₂_of_run s interrupt store table batch o (Accounted initial reserved)
    (fun _ _ p => Known initial reserved p.code) ?_ hbefore h
  · obtain ⟨hafter, -, -, -, hcode⟩ := hall
    refine ⟨hafter.later (hnames ▸ List.prefix_refl _), fun p hp => ?_⟩
    obtain ⟨d, -, hknown⟩ := exists_of_mem_right hcode hp
    exact hknown.later (hnames ▸ List.prefix_refl _)
  · intro reserved' hreserve' d hd store store' b hstore hb
    obtain rfl : reserved' = reserved := Except.ok.inj (hreserve'.symm.trans hreserve)
    exact known_of_compileBody hplain hwf (hbatch d hd) hstore hb

/-- Batches that were read give known code. -/
theorem known_of_inOrder (hplain : s.optimizer = none) (hreach : table.Reachable)
    (hbatches : ∀ batch ∈ batches, ∀ d ∈ batch, d.Writable .standard 29)
    (hstore : Accounted initial table store) (h : inOrder s store table batches = os.map .ok) :
    ∀ o ∈ os, ∀ p ∈ o.procedures, Known initial o.table p.code := by
  induction batches generalizing store table os with
  | nil =>
    cases inOrder_nil_eq_ok h
    simp
  | cons batch batches ih =>
    obtain ⟨o, os, rfl, hfirst, hrest⟩ := inOrder_cons_eq_ok h
    obtain ⟨hbatch, hbatches⟩ := List.forall_mem_cons.mp hbatches
    obtain ⟨hstore', hknown⟩ := known_of_run hplain hreach hbatch hstore hfirst
    -- the store that the first batch leaves is accounted for against the table that it leaves
    have hlater := ih (reachable_of_run hreach hfirst) hbatches hstore' hrest
    exact List.forall_mem_cons.mpr ⟨hknown, hlater⟩

end TermVM.Build
