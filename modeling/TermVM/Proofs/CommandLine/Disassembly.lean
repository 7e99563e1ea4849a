/-
  TermVM.Proofs.CommandLine.Disassembly

  Showing saved procedures.

  Compiled procedures are saved in the order in which they were installed, and
  the table is rebuilt from them: slots are reserved for all of them, then all
  are installed.  When no name was declared with two arities this gives the
  table that the last batch left, and since names keep their positions, every
  procedure is shown as it was shown when it was compiled.  A name of two
  arities does not fit the one slot that is reserved for it, so there is no
  table, and no name is shown in its place: `disassemble_compile`.
-/
import TermVM.Proofs.CommandLine.Compilation
import TermVM.Proofs.FileTree

namespace TermVM

open Result

/-! ## Configurations and files -/

theorem Manifest.reachable_table {m : Manifest} {t : DeclTable} (h : m.table = .ok t) :
    t.Reachable := by
  refine foldlM_invariant (P := DeclTable.Reachable) ?_ .empty h
  intro t b t' hdeclare hreach
  unfold declare at hdeclare
  split at hdeclare
  · cases hdeclare
  · exact hreach.declare (mapError_eq_ok.mp hdeclare)

namespace CommandLine

theorem writable_of_mem_batchesIn {t : FileTree} {paths : List String}
    (hbytes : ∀ path ∈ paths, ∀ bs, t.read path = .ok bs → bs.length < UInt64.size) :
    ∀ batch ∈ batchesIn t paths, ∀ d ∈ batch, d.Writable .standard 29 := by
  intro batch hbatch
  obtain ⟨path, hpath, hread⟩ := List.mem_filterMap.mp hbatch
  exact (Batch.writable_of_readFile (hbytes path hpath) (eq_ok_of_toOption hread) batch rfl).2

variable {m : Manifest} {o : Options} {files files' : FileTree} {paths : List String}
  {setup : Setup}

/-- Work starts from the configured table, and nothing optimizes its code. -/
theorem setUp_eq_ok {verbosity : Int}
    (h : setUp m verbosity files = (files', .ok setup)) :
    m.table = .ok setup.table ∧ setup.settings.optimizer = none := by
  unfold setUp at h
  cases hconfigure : configure m verbosity with
  | error e =>
    rw [hconfigure] at h
    cases (Prod.mk.inj h).2
  | ok configured =>
    obtain ⟨table, settings⟩ := configured
    obtain ⟨t, ht, hrest⟩ := bind_eq_ok.mp hconfigure
    obtain ⟨s, hs, hpair⟩ := bind_eq_ok.mp hrest
    obtain ⟨rfl, rfl⟩ := Prod.mk.inj (Except.ok.inj hpair)
    rw [mapError_eq_ok] at ht hs
    have hplain : s.optimizer = none := by
      obtain ⟨analyzers, -, hs⟩ := bind_eq_ok.mp hs
      obtain ⟨tracer, -, hs⟩ := bind_eq_ok.mp hs
      rw [← Except.ok.inj hs]
    rw [hconfigure] at h
    dsimp only at h
    generalize Store.openIn files m.cachePath = opened at h
    obtain ⟨t', store⟩ := opened
    cases store with
    | error e => cases (Prod.mk.inj h).2
    | ok store =>
      cases (Prod.mk.inj h).2
      exact ⟨ht, hplain⟩

theorem saveProcedures_done {t : FileTree} {path : String} {ps : List Procedure}
    (h : (saveProcedures t path ps).2 = .done) :
    ∃ bs, Procedure.encodeList? (if ps.isEmpty then none else some (ps.map some)) = some bs ∧
      t.write path bs = .ok (saveProcedures t path ps).1 := by
  unfold saveProcedures at h ⊢
  cases hbs : Procedure.encodeList? (if ps.isEmpty then none else some (ps.map some)) with
  | none =>
    rw [hbs] at h
    cases h
  | some bs =>
    rw [hbs] at h
    refine ⟨bs, rfl, ?_⟩
    dsimp only at h ⊢
    cases hwrite : t.write path bs with
    | ok t' => rfl
    | error f =>
      rw [hwrite] at h
      cases h

/-- A compilation that comes to its end with an output file has compiled all files and written their
    procedures. -/
theorem compile_done (hsetup : setUp m o.verbosity files = (files', .ok setup))
    (houtput : o.output ≠ "") (hdone : (compile m o files paths).ending = .done) {r : Progress}
    (hr : compileFiles setup.settings files' (some setup.store) setup.table paths = r) :
    r.work.ending = .done ∧ (compile m o files paths).stdout = r.work.stdout ∧
      ∃ bs, Procedure.encodeList?
          (if r.procedures.isEmpty then none else some (r.procedures.map some)) = some bs ∧
        ((r.store.getD setup.store).save files').write o.output bs
          = .ok (compile m o files paths).files := by
  rw [compile, hsetup] at hdone ⊢
  dsimp only at hdone ⊢
  rw [hr] at hdone ⊢
  cases hending : r.work.ending with
  | failed e =>
    rw [hending] at hdone
    cases hdone
  | crashed c =>
    rw [hending] at hdone
    cases hdone
  | done =>
    rw [hending] at hdone
    dsimp only at hdone ⊢
    rw [if_neg houtput] at hdone ⊢
    refine ⟨rfl, rfl, ?_⟩
    exact saveProcedures_done hdone

/-! ## Saved procedures -/

/-- All code of batches that were read refers to positions of the table it was shown against, and
    can be written, if this is so of what was in the store at the start. -/
theorem resolves_of_inOrder {s : Build.Settings} {store : Store} {table : DeclTable}
    {batches : List (List Declaration)} {os : List Build.Outcome} (hplain : s.optimizer = none)
    (hreach : table.Reachable) (hbatches : ∀ batch ∈ batches, ∀ d ∈ batch, d.Writable .standard 29)
    (h : Build.inOrder s (some store) table batches = os.map .ok)
    (hsmall : ∀ out ∈ os, ∀ p ∈ out.procedures,
      p.code.length ≤ 131072 ∧ ∀ i ∈ p.code, i.fields.length ≤ 131072)
    (hstored : ∀ key q, store.get? none key = .ok (some q) →
      ∀ out ∈ os, ∀ p ∈ out.procedures, p.code = q.code →
        out.table.Resolves p.code ∧ ∀ i ∈ p.code, i.Writable .standard 28) :
    ∀ out ∈ os, ∀ p ∈ out.procedures, out.table.Resolves p.code ∧ p.Writable .standard 28 := by
  intro out hout p hp
  obtain ⟨hlength, hfields⟩ := hsmall out hout p hp
  have hname : (utf8 p.name).length < UInt64.size := by
    obtain ⟨batch, hbatch, d, hd, hname⟩ := Build.name_of_inOrder h out hout p hp
    rw [hname]
    exact (hbatches batch hbatch d hd).name
  rcases Build.known_of_inOrder hplain hreach hbatches (Build.accounted_initial ..) h
    out hout p hp with ⟨key, q, hq, hsame⟩ | ⟨hresolves, value, hvalue, hgenerated⟩
  · obtain ⟨hresolves, hwritable⟩ := hstored key q hq out hout p hp hsame.symm
    exact ⟨hresolves, hname, hlength, hwritable⟩
  · refine ⟨hresolves, hname, hlength, fun i hi => ?_⟩
    exact (hgenerated i hi).writable (by decide) (by decide) hvalue (hfields i hi) (by decide)

/-- Procedures that can be written are read back, even if there are none. -/
theorem decodeList_of_save {ps : List Procedure} (hcount : ps.length ≤ 131072)
    (hps : ∀ p ∈ ps, p.Writable .standard 28) {bs : Bytes}
    (h : Procedure.encodeList? (if ps.isEmpty then none else some (ps.map some)) = some bs) :
    ∃ saved, Procedure.decodeList bs = .ok saved ∧ saved.getD [] = ps.map some := by
  cases ps with
  | nil =>
    cases h
    exact ⟨none, rfl, rfl⟩
  | cons p ps =>
    obtain ⟨bs', hbs', hdecode⟩ := Procedure.decodeList_encodeList? hcount hps
    obtain rfl : bs' = bs := Option.some.inj (hbs'.symm.trans h)
    exact ⟨_, hdecode, rfl⟩

/-- The table that is rebuilt from gathered procedures. -/
theorem rebuildTable_of_gathers {start final : DeclTable} {ps : List Procedure}
    (hstart : m.table = .ok start) (h : start.Gathers ps final) (hnodup : final.names.Nodup) :
    rebuildTable m (ps.map some)
      = .ok (if DeclTable.Agreeing ps then some final else none) := by
  have hall : (ps.map some).mapM id = some ps := by
    rw [mapM_eq_some, List.forall₂_map_left_iff, List.forall₂_same]
    exact fun p _ => rfl
  obtain ⟨reserved, hreserve, -⟩ := h.records
  have hreserve' : start.reserve (ps.map fun p => (p.name, p.arity)) = .ok reserved := hreserve
  rw [rebuildTable, hstart]
  dsimp only
  rw [hall]
  dsimp only
  rw [hreserve']
  dsimp only
  rw [h.toOption_install hnodup hreserve]

theorem disassemble_eq {t : FileTree} {path : String} {bs : Bytes}
    {saved : Option (List (Option Procedure))} {table : Option DeclTable}
    (hread : t.read path = .ok bs) (hdecode : Procedure.decodeList bs = .ok saved)
    (htable : rebuildTable m (saved.getD []) = .ok table) :
    disassemble m t path = ⟨(showProcedures table (saved.getD [])).1, [], t,
      endingOf (showProcedures table (saved.getD [])).2⟩ := by
  rw [disassemble, hread]
  dsimp only
  rw [hdecode]
  dsimp only
  rw [htable]

/-- What was compiled is shown again.  Let batches be compiled in order, with an output file that is
    an ordinary one, into at most 131072 procedures with at most 131072 instructions each and at most
    131072 alternatives in each dispatch; and let code that was in the store at the start, wherever
    it was taken, fit the table and the bounds of a file.  If no name was declared with two arities,
    showing the file rebuilds the table that the last batch left, and prints what was printed.  If
    some name was, no table is rebuilt, and the same procedures are shown without names. -/
theorem disassemble_compile (hsetup : setUp m o.verbosity files = (files', .ok setup))
    (hdone : (compile m o files paths).ending = .done) (houtput : o.output ≠ "")
    (hfile : ∃ content, (compile m o files paths).files.stat? o.output = some (.file content))
    (hbytes : ∀ path ∈ paths, ∀ bs, files'.read path = .ok bs → bs.length < UInt64.size)
    {os : List Build.Outcome}
    (hos : os = outcomes setup.settings files' setup.store setup.table paths)
    {ps : List Procedure} (hps : ps = os.flatMap (·.procedures)) (hcount : ps.length ≤ 131072)
    (hsmall : ∀ p ∈ ps, p.code.length ≤ 131072 ∧ ∀ i ∈ p.code, i.fields.length ≤ 131072)
    (hstored : ∀ key q, setup.store.get? none key = .ok (some q) →
      ∀ out ∈ os, ∀ p ∈ out.procedures, p.code = q.code →
        out.table.Resolves p.code ∧ ∀ i ∈ p.code, i.Writable .standard 28) :
    rebuildTable m (ps.map some) = .ok (if DeclTable.Agreeing ps
        then some (Build.finalTable setup.table os) else none) ∧
      disassemble m (compile m o files paths).files o.output =
        ⟨if DeclTable.Agreeing ps then (compile m o files paths).stdout
          else (showProcedures none (ps.map some)).1,
          [], (compile m o files paths).files, .done⟩ := by
  obtain ⟨htable, hplain⟩ := setUp_eq_ok hsetup
  have hreach := Manifest.reachable_table htable
  obtain ⟨hending, hstdout, bs, hencode, hwrite⟩ := compile_done hsetup houtput hdone rfl
  obtain ⟨hinOrder, hshown, hprocedures, hprinted⟩ := compileFiles_done hending
  rw [← hos] at hinOrder hshown hprocedures hprinted
  rw [hprocedures, ← hps] at hencode
  have hbatches := writable_of_mem_batchesIn hbytes
  have hcode := resolves_of_inOrder hplain hreach hbatches hinOrder
    (fun out hout p hp => hsmall p (hps ▸ List.mem_flatMap.mpr ⟨out, hout, hp⟩)) hstored
  have hwritable : ∀ p ∈ ps, p.Writable .standard 28 := by
    intro p hp
    obtain ⟨out, hout, hp⟩ := List.mem_flatMap.mp (hps ▸ hp)
    exact (hcode out hout p hp).2
  -- so the file is read back
  obtain ⟨saved, hdecode, hsaved⟩ := decodeList_of_save hcount hwritable hencode
  -- and the table is rebuilt from it, or cannot be
  have hgathers : setup.table.Gathers ps (Build.finalTable setup.table os) := by
    rw [hps]
    exact Build.gathers_finalTable (.refl setup.table) hinOrder
  have hnodup := (Build.reachable_finalTable hreach hinOrder).coherent.names_nodup
  have hrebuild := rebuildTable_of_gathers htable hgathers hnodup
  refine ⟨hrebuild, ?_⟩
  have hread := FileTree.read_of_write hwrite hfile
  rw [disassemble_eq hread hdecode (by rw [hsaved, hrebuild]), hsaved]
  -- against the last table every procedure is shown as it was against its own
  have hsame : showProcedures (some (Build.finalTable setup.table os)) (ps.map some)
      = ((compile m o files paths).stdout, none) := by
    rw [hstdout, hprinted, hps]
    refine showProcedures_flatMap hshown fun out hout p hp => ?_
    have hnames := (Build.names_prefix_finalTable hinOrder).2 out hout
    exact Listing.lines_of_prefix (hcode out hout p hp).1 hnames
  by_cases hagree : DeclTable.Agreeing ps
  · rw [if_pos hagree, if_pos hagree, hsame]
    rfl
  · -- without a table the text is another, but it can still be shown
    have hfault : (showProcedures none (ps.map some)).2 = none := by
      have hfault := congrArg Prod.snd hsame
      rwa [fault_showProcedures] at hfault
    rw [if_neg hagree, if_neg hagree, hfault]
    rfl

/-- A configuration with one native declaration. -/
def adding : Manifest :=
  { Manifest.default with builtins := [⟨"add", 2, "native"⟩] }

/-- Procedures are saved in a file of the working directory. -/
def saving : Options :=
  { Options.none with output := "p.cbor" }

/-- Two batches in files of the root. -/
def twoFiles (first second : List Declaration) : FileTree where
  entries := [(["a.cbor"], .file ((Batch.encode (some first)).toOption.getD [])),
    (["b.cbor"], .file ((Batch.encode (some second)).toOption.getD []))]
  cwd := []

/-- What is set up for `adding`. -/
def addingSetup : Setup where
  table := Build.onlyAddition
  settings := { Build.Settings.plain with analyzers := some ⟨[], true⟩ }
  store := .inMemory

/-- The code of `multiples`, then that of `moreMultiples`. -/
def allMultiples : List Procedure :=
  [⟨"double", 1, [.push 0, .push 0, .invoke .invokeNative 0, .ret]⟩,
   ⟨"fourfold", 1, [.push 0, .invoke .invokeGlobal 1, .invoke .invokeGlobal 1, .ret]⟩,
   ⟨"double", 1, [.push 0, .literal 0, .push 0, .invoke .invokeNative 0, .invoke .invokeNative 0,
     .ret]⟩,
   ⟨"eightfold", 1, [.push 0, .invoke .invokeGlobal 2, .invoke .invokeGlobal 1, .ret]⟩]

/-- The listings of `allMultiples`. -/
def allMultiplesListing : String :=
  "double/1\n0000  PUSH 0\n0001  PUSH 0\n0002  INVOKE_CFUN 0 (add)\n0003  RET\n\n" ++
  "fourfold/1\n0000  PUSH 0\n0001  INVOKE_GLOBAL 1 (double)\n0002  INVOKE_GLOBAL 1 (double)\n" ++
  "0003  RET\n\n" ++
  "double/1\n0000  PUSH 0\n0001  NUM 0\n0002  PUSH 0\n0003  INVOKE_CFUN 0 (add)\n" ++
  "0004  INVOKE_CFUN 0 (add)\n0005  RET\n\n" ++
  "eightfold/1\n0000  PUSH 0\n0001  INVOKE_GLOBAL 2 (fourfold)\n" ++
  "0002  INVOKE_GLOBAL 1 (double)\n0003  RET\n\n"

/-- `double` is declared again with the same arity; both of its procedures are shown again, with the
    names of what they call. -/
theorem disassemble_allMultiples :
    let files := twoFiles Build.multiples Build.moreMultiples
    let w := compile adding saving files ["a.cbor", "b.cbor"]
    setUp adding saving.verbosity files = (files, .ok addingSetup) ∧ w.ending = .done ∧
      w.stdout = allMultiplesListing ∧
      disassemble adding w.files saving.output = ⟨w.stdout, [], w.files, .done⟩ := by
  intro files w
  have hsetup : setUp adding saving.verbosity files = (files, .ok addingSetup) := rfl
  have hfacts : w.ending = .done ∧ w.stdout = allMultiplesListing ∧
      w.files.stat? saving.output = some (.file ((Procedure.encodeList?
        (some (allMultiples.map some))).getD [])) := by decide +kernel
  have hbytes : ∀ path ∈ ["a.cbor", "b.cbor"],
      ((files.read path).toOption.getD []).length < UInt64.size := by decide +kernel
  have hps : allMultiples = (outcomes addingSetup.settings files addingSetup.store
      addingSetup.table ["a.cbor", "b.cbor"]).flatMap (·.procedures) := by decide +kernel
  obtain ⟨hdone, hstdout, hfile⟩ := hfacts
  have hshown := disassemble_compile hsetup hdone (by decide) ⟨_, hfile⟩
    (fun path hpath bs hbs => by simpa [hbs, Except.toOption] using hbytes path hpath) rfl hps
    (by decide) (by decide) (fun key q hq => by cases hq)
  have hagree : DeclTable.Agreeing allMultiples := by decide
  rw [if_pos hagree, if_pos hagree] at hshown
  exact ⟨hsetup, hdone, hstdout, hshown.2⟩

/-- The listings of `multiples` and `doubleOfTwo`, with what the callees are called. -/
def doubleOfTwoListing (add double fourfold : String) : String :=
  "double/1\n0000  PUSH 0\n0001  PUSH 0\n0002  INVOKE_CFUN 0 (" ++ add ++ ")\n0003  RET\n\n" ++
  "fourfold/1\n0000  PUSH 0\n0001  INVOKE_GLOBAL 1 (" ++ double ++ ")\n" ++
  "0002  INVOKE_GLOBAL 1 (" ++ double ++ ")\n0003  RET\n\n" ++
  "double/2\n0000  PUSH 0\n0001  PUSH 1\n0002  INVOKE_CFUN 0 (" ++ add ++ ")\n0003  RET\n\n" ++
  "eightfold/1\n0000  PUSH 0\n0001  INVOKE_GLOBAL 2 (" ++ fourfold ++ ")\n0002  PUSH 0\n" ++
  "0003  INVOKE_GLOBAL 2 (" ++ fourfold ++ ")\n0004  INVOKE_GLOBAL 1 (" ++ double ++ ")\n" ++
  "0005  RET\n\n"

/-- `double` is declared again with two parameters instead of one: the batches are compiled and
    saved, and what was saved is shown without a single name. -/
theorem disassemble_doubleOfTwo :
    let w := compile adding saving (twoFiles Build.multiples Build.doubleOfTwo) ["a.cbor", "b.cbor"]
    w.ending = .done ∧ w.stdout = doubleOfTwoListing "add" "double" "fourfold" ∧
      (disassemble adding w.files saving.output).stdout = doubleOfTwoListing "?" "?" "?" := by
  decide +kernel

end CommandLine

end TermVM
