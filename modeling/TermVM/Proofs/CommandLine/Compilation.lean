/-
  TermVM.Proofs.CommandLine.Compilation

  What compiling the batches of files prints.

  Files are compiled in order, and the procedures of a batch are shown against
  the table that it leaves.  Whether a procedure can be shown does not depend
  on the table, and what is shown depends on it only through its lines.
-/
import TermVM.CommandLine.Run
import TermVM.Proofs.Build.Gathering

namespace TermVM

open Result

/-- The batch in a file can be written. -/
theorem Batch.writable_of_readFile {t : FileTree} {path : String} {batch : List Declaration}
    (hbytes : ∀ bs, t.read path = .ok bs → bs.length < UInt64.size)
    (h : readFile t path = .ok batch) : Batch.Writable (some batch) := by
  obtain ⟨bs, hread, h⟩ := bind_eq_ok.mp h
  obtain ⟨ds, hdecode, h⟩ := bind_eq_ok.mp h
  obtain rfl : ds.getD [] = batch := Except.ok.inj h
  have hwritable :=
    writable_of_decode (hbytes bs (mapError_eq_ok.mp hread)) (mapError_eq_ok.mp hdecode)
  cases ds with
  | none =>
    rintro l ⟨⟩
    exact ⟨Nat.zero_le _, fun d hd => absurd hd List.not_mem_nil⟩
  | some l => exact hwritable

namespace CommandLine

variable {table table' : Option DeclTable}

/-! ## Procedures -/

/-- An instruction has its operands or lacks them, whatever the table. -/
theorem error_operands_iff (i : Instr) (f : Fault) :
    Listing.operands table' i = .error f ↔ Listing.operands table i = .error f := by
  cases hrefers : i.refers with
  | false =>
    have hsame : Listing.operands table' i = Listing.operands table i := by
      refine Listing.operands_congr fun h => ?_
      rw [hrefers] at h
      cases h
    rw [hsame]
  | true =>
    have hok : ∀ table, Listing.operands table i ≠ .error f := by
      intro table herror
      obtain ⟨text, htext⟩ := Listing.exists_operands_of_refers hrefers table
      cases htext.symm.trans herror
    exact iff_of_false (hok table') (hok table)

theorem fault_linesUpTo (code : Code) (pc : Int) :
    (linesUpTo (Listing.linesFrom table' pc code)).2
      = (linesUpTo (Listing.linesFrom table pc code)).2 := by
  induction code generalizing pc with
  | nil => rfl
  | cons i is ih =>
    rw [Listing.linesFrom, Listing.linesFrom, Listing.line, Listing.line]
    cases hops : Listing.operands table i with
    | error f =>
      rw [(error_operands_iff i f).mpr hops]
      rfl
    | ok text =>
      cases hops' : Listing.operands table' i with
      | error f =>
        rw [(error_operands_iff i f).mp hops'] at hops
        cases hops
      | ok text' => exact ih (pc + 1)

theorem fault_showProcedure (table : Option DeclTable) (p : Procedure) :
    (showProcedure table p).2 = (linesUpTo (Listing.lines table p.code)).2 := by
  unfold showProcedure
  generalize linesUpTo (Listing.lines table p.code) = shown
  obtain ⟨text, f⟩ := shown
  cases f <;> rfl

theorem showProcedures_cons (p : Procedure) (ps : List (Option Procedure)) :
    showProcedures table (some p :: ps) =
      match (showProcedure table p).2 with
      | some f => ((showProcedure table p).1, some f)
      | none => ((showProcedure table p).1 ++ (showProcedures table ps).1,
          (showProcedures table ps).2) := by
  rw [showProcedures]
  generalize showProcedure table p = shown
  obtain ⟨text, f⟩ := shown
  cases f <;> rfl

/-- Procedures can be shown or not, whatever the table. -/
theorem fault_showProcedures (ps : List Procedure) :
    (showProcedures table' (ps.map some)).2 = (showProcedures table (ps.map some)).2 := by
  induction ps with
  | nil => rfl
  | cons p ps ih =>
    have hfirst : (showProcedure table' p).2 = (showProcedure table p).2 := by
      rw [fault_showProcedure, fault_showProcedure, Listing.lines, Listing.lines]
      exact fault_linesUpTo p.code 0
    rw [List.map_cons, showProcedures_cons, showProcedures_cons, hfirst]
    cases (showProcedure table p).2 with
    | some f => dsimp only
    | none =>
      dsimp only
      exact ih

/-- What is shown depends on the table only through the lines of the code. -/
theorem showProcedures_congr {ps : List Procedure}
    (h : ∀ p ∈ ps, Listing.lines table' p.code = Listing.lines table p.code) :
    showProcedures table' (ps.map some) = showProcedures table (ps.map some) := by
  induction ps with
  | nil => rfl
  | cons p ps ih =>
    obtain ⟨hfirst, hrest⟩ := List.forall_mem_cons.mp h
    have hshow : showProcedure table' p = showProcedure table p := by
      rw [showProcedure, showProcedure, hfirst]
    rw [List.map_cons, showProcedures_cons, showProcedures_cons, hshow, ih hrest]

theorem showProcedures_append {ps qs : List (Option Procedure)}
    (h : (showProcedures table ps).2 = none) :
    showProcedures table (ps ++ qs)
      = ((showProcedures table ps).1 ++ (showProcedures table qs).1,
          (showProcedures table qs).2) := by
  induction ps with
  | nil => simp [showProcedures]
  | cons p ps ih =>
    cases p with
    | none => cases h
    | some p =>
      rw [showProcedures_cons] at h
      rw [List.cons_append, showProcedures_cons, showProcedures_cons]
      generalize showProcedure table p = shown at h ⊢
      obtain ⟨text, f⟩ := shown
      cases f with
      | some f => cases h
      | none =>
        dsimp only at h ⊢
        rw [ih h, String.append_assoc]

/-- Lines that can all be rendered end with a newline each. -/
theorem linesUpTo_eq {ls : List (Except Fault String)} {texts : List String}
    (h : List.Forall₂ (fun l text => l = .ok text) ls texts) (hne : texts ≠ []) :
    linesUpTo ls = (String.intercalate "\n" texts ++ "\n", none) := by
  induction h with
  | nil => exact absurd rfl hne
  | @cons l text ls texts hfirst hrest ih =>
    rw [hfirst, linesUpTo]
    cases texts with
    | nil =>
      cases hrest
      rw [String.intercalate_singleton]
      simp [linesUpTo]
    | cons next texts =>
      rw [ih (List.cons_ne_nil _ _), String.intercalate_cons_cons]
      simp [String.append_assoc]

/-- A procedure is shown as its name, its arity and its listing, with an empty line behind. -/
theorem showProcedure_of_text {p : Procedure} (hne : p.code ≠ []) {text : String}
    (h : Listing.text table p.code = .ok text) :
    showProcedure table p
      = (p.name ++ "/" ++ Text.decimal p.arity.toNat ++ "\n" ++ text ++ "\n\n", none) := by
  obtain ⟨texts, htexts, htext⟩ := bind_eq_ok.mp h
  obtain rfl : String.intercalate "\n" texts = text := Except.ok.inj htext
  have hlines := mapM_eq_ok.mp htexts
  have htexts : texts ≠ [] := by
    rintro rfl
    cases hcode : p.code with
    | nil => exact hne hcode
    | cons i is =>
      rw [hcode] at hlines
      cases hlines
  -- one newline ends the last line, the other is the empty line
  have hnewlines : ("\n\n" : String) = "\n" ++ "\n" := rfl
  rw [showProcedure, linesUpTo_eq hlines htexts, hnewlines]
  simp [String.append_assoc]

/-! ## Batches -/

/-- The text that shows the procedures of batches, each against the table that its batch leaves. -/
def printed : List Build.Outcome → String
  | [] => ""
  | o :: os => (showProcedures (some o.table) (o.procedures.map some)).1 ++ printed os

/-- The procedures of a batch can all be shown. -/
def Presentable (o : Build.Outcome) : Prop :=
  (showProcedures (some o.table) (o.procedures.map some)).2 = none

/-- Procedures of batches whose lines are the same against one later table are shown against it as
    they were shown in turn. -/
theorem showProcedures_flatMap {t : DeclTable} {os : List Build.Outcome}
    (hshown : ∀ o ∈ os, Presentable o)
    (hlines : ∀ o ∈ os, ∀ p ∈ o.procedures,
      Listing.lines (some t) p.code = Listing.lines (some o.table) p.code) :
    showProcedures (some t) ((os.flatMap (·.procedures)).map some) = (printed os, none) := by
  induction os with
  | nil => rfl
  | cons o os ih =>
    rw [List.forall_mem_cons] at hshown hlines
    -- the first batch is shown in full, so what comes behind it is shown after it
    have hfirst := showProcedures_congr hlines.1
    have hfault : (showProcedures (some t) (o.procedures.map some)).2 = none := by
      rw [hfirst]
      exact hshown.1
    rw [List.flatMap_cons, List.map_append, showProcedures_append hfault, ih hshown.2 hlines.2,
      hfirst, printed]

/-- The batches in files; what cannot be read is left out. -/
def batchesIn (t : FileTree) (paths : List String) : List (List Declaration) :=
  paths.filterMap fun path => (Batch.readFile t path).toOption

/-- The outcomes of the batches in files, compiled in order. -/
def outcomes (s : Build.Settings) (t : FileTree) (store : Option Store) (table : DeclTable)
    (paths : List String) : List Build.Outcome :=
  (Build.inOrder s store table (batchesIn t paths)).filterMap (·.toOption)

section

variable {s : Build.Settings} {t : FileTree} {store : Option Store} {start : DeclTable}
  {path : String} {paths : List String}

/-- A file whose batch is compiled and can be shown is followed by the other files. -/
theorem compileFiles_cons_of_run {batch : List Declaration} {o : Build.Outcome}
    (hread : Batch.readFile t path = .ok batch)
    (hrun : (Build.run s none store start batch).outcome = .ok o) (hshown : Presentable o) :
    compileFiles s t store start (path :: paths) =
      (compileFiles s t (Build.run s none store start batch).store o.table paths).after
        (showProcedures (some o.table) (o.procedures.map some)).1
        (Build.run s none store start batch).entries o.procedures := by
  rw [Presentable] at hshown
  rw [compileFiles, hread]
  dsimp only
  rw [hrun]
  dsimp only
  generalize showProcedures (some o.table) (o.procedures.map some) = shown at hshown ⊢
  obtain ⟨text, f⟩ := shown
  cases hshown
  rfl

/-- Compiling files comes to its end when the first file holds a batch that is compiled and can be
    shown, and compiling the others comes to its end. -/
theorem compileFiles_cons_done
    (h : (compileFiles s t store start (path :: paths)).work.ending = .done) :
    ∃ batch o, Batch.readFile t path = .ok batch ∧
      (Build.run s none store start batch).outcome = .ok o ∧ Presentable o := by
  rw [compileFiles] at h
  cases hread : Batch.readFile t path with
  | error e =>
    rw [hread] at h
    cases h
  | ok batch =>
    rw [hread] at h
    dsimp only at h
    cases hrun : (Build.run s none store start batch).outcome with
    | error e =>
      rw [hrun] at h
      cases e with
      | crash c => cases c <;> cases h
      | _ => cases h
    | ok o =>
      rw [hrun] at h
      dsimp only at h
      refine ⟨batch, o, rfl, hrun, ?_⟩
      rw [Presentable]
      generalize showProcedures (some o.table) (o.procedures.map some) = shown at h ⊢
      obtain ⟨text, f⟩ := shown
      cases f with
      | some f => cases h
      | none => rfl

/-- Files that are compiled to the end hold batches that are compiled in order; their procedures are
    kept and shown. -/
theorem compileFiles_done (h : (compileFiles s t store start paths).work.ending = .done) :
    Build.inOrder s store start (batchesIn t paths)
        = (outcomes s t store start paths).map .ok ∧
      (∀ o ∈ outcomes s t store start paths, Presentable o) ∧
      (compileFiles s t store start paths).procedures
        = (outcomes s t store start paths).flatMap (·.procedures) ∧
      (compileFiles s t store start paths).work.stdout
        = printed (outcomes s t store start paths) := by
  induction paths generalizing store start with
  | nil => exact ⟨rfl, by rintro o ⟨⟩, rfl, rfl⟩
  | cons path paths ih =>
    obtain ⟨batch, o, hread, hrun, hshown⟩ := compileFiles_cons_done h
    rw [compileFiles_cons_of_run hread hrun hshown] at h ⊢
    obtain ⟨hinOrder, hothers, hprocedures, hstdout⟩ := ih h
    have hbatches : batchesIn t (path :: paths) = batch :: batchesIn t paths := by
      rw [batchesIn, List.filterMap_cons, hread]
      rfl
    have houtcomes : outcomes s t store start (path :: paths)
        = o :: outcomes s t (Build.run s none store start batch).store o.table paths := by
      rw [outcomes, hbatches, Build.inOrder, hrun, List.filterMap_cons]
      rfl
    rw [houtcomes]
    refine ⟨?_, List.forall_mem_cons.mpr ⟨hshown, hothers⟩, ?_, ?_⟩
    · rw [hbatches, Build.inOrder, hrun, List.map_cons]
      exact congrArg _ hinOrder
    · rw [List.flatMap_cons, ← hprocedures]
      rfl
    · rw [printed, ← hstdout]
      rfl

end

end CommandLine

end TermVM
