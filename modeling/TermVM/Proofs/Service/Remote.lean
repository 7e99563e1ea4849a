/-
  TermVM.Proofs.Service.Remote

  Batches that are sent to a service are listed as if they were compiled here.

  The service compiles a batch against the table it holds and publishes the
  table that the batch leaves.  The procedures that come back are then asked
  for by name; they are what was installed last, and their listings are made
  against the published table.  All messages on the way are read back, since a
  batch that was read from a file is small enough for them.
-/
import TermVM.Proofs.CommandLine.Compilation
import TermVM.Proofs.Service.Message
import TermVM.Service.Client

namespace TermVM.Service

open Result

variable {s : Service} {t : FileTree} {path : String} {paths : List String}
  {batch : List Declaration} {batches : List (List Declaration)} {o : Build.Outcome}
  {os : List Build.Outcome}

/-- The service with another table. -/
def holding (s : Service) (table : DeclTable) : Service :=
  { s with worker := { s.worker with table := table } }

/-! ## Listings -/

/-- A procedure that a service can be asked for by name. -/
structure Ready (table : DeclTable) (p : Procedure) : Prop where
  named : p.name ≠ ""
  short : (utf8 p.name).length < UInt64.size
  installed : table.procedure? p.name = some p
  code_ne : p.code ≠ []
  listed : ∃ text, Listing.text (some table) p.code = .ok text ∧ (utf8 text).length < UInt64.size

theorem disassemble_of_ready {p : Procedure} (h : Ready s.worker.table p) {text : String}
    (htext : Listing.text (some s.worker.table) p.code = .ok text) :
    s.disassemble p.name = s.answered (.ok ⟨p.name, p.arity, text⟩) := by
  rw [disassemble, if_neg h.named, h.installed]
  dsimp only
  rw [htext]

theorem client_disassemble_of_ready {p : Procedure} (h : Ready s.worker.table p) :
    ∃ text, Listing.text (some s.worker.table) p.code = .ok text ∧
      Client.disassemble s p.name = s.answered (.ok ⟨p.name, p.arity, text⟩) := by
  obtain ⟨text, htext, hshort⟩ := h.listed
  have hresponse : readListedResponse? (listedResponse ⟨p.name, p.arity, text⟩)
      = some ⟨p.name, p.arity, text⟩ := readListedResponse?_listedResponse h.short hshort
  refine ⟨text, htext, ?_⟩
  rw [Client.disassemble, readNameRequest?_nameRequest h.short]
  dsimp only
  rw [disassemble_of_ready h htext]
  dsimp only [answered, Client.guarded, Client.respond, Except.bind]
  rw [hresponse]

/-- The listings of procedures that a service has are printed as the procedures are shown. -/
theorem printListings_of_ready {ps : List Procedure} (h : ∀ p ∈ ps, Ready s.worker.table p) :
    (CommandLine.showProcedures (some s.worker.table) (ps.map some)).2 = none ∧
      Client.printListings s ps = ⟨s, [],
        (CommandLine.showProcedures (some s.worker.table) (ps.map some)).1, none⟩ := by
  induction ps with
  | nil => exact ⟨rfl, rfl⟩
  | cons p ps ih =>
    obtain ⟨hfirst, hrest⟩ := List.forall_mem_cons.mp h
    obtain ⟨hfault, hprint⟩ := ih hrest
    obtain ⟨text, htext, hanswer⟩ := client_disassemble_of_ready hfirst
    rw [List.map_cons, CommandLine.showProcedures_cons,
      CommandLine.showProcedure_of_text hfirst.code_ne htext]
    refine ⟨hfault, ?_⟩
    rw [Client.printListings, hanswer]
    dsimp only [answered]
    rw [hprint]
    rfl

/-- What a batch that was read compiles to can be listed by name. -/
theorem ready_of_run {settings : Build.Settings} {table : DeclTable}
    (hplain : settings.optimizer = none) (hbatch : ∀ d ∈ batch, d.Writable .standard 29)
    (hnames : ∀ d ∈ batch, d.name ≠ "")
    (hrun : (Build.run settings none none table batch).outcome = .ok o)
    (hshort : ∀ p ∈ o.procedures, ∀ text, Listing.text (some o.table) p.code = .ok text →
      (utf8 text).length < UInt64.size) :
    ∀ p ∈ o.procedures, Ready o.table p := by
  intro p hp
  obtain ⟨reserved, hprocedures⟩ := Build.forall₂_procedures hplain hrun
  obtain ⟨d, hd, hcompile⟩ := exists_of_mem_right hprocedures hp
  have hname : p.name = d.name := (Codegen.header_of_compileProcedure hcompile).1
  -- a term that was read has no absent part, so every quotation has a line
  have hquotes : .absent ∉ d.value.quotations := by
    intro hmem
    have hpart := Term.quote_mem_parts_of_mem_quotations hmem
    have habsent : Term.absent ∈ d.value.parts :=
      Term.parts_subset_of_mem hpart (List.mem_cons_of_mem _ (Term.mem_parts_self _))
    have hregular := ((Term.writable_iff (by decide) (by decide)).mp (hbatch d hd).value).1
    cases hregular _ habsent
  have hlistable : ∀ i ∈ p.code, Listing.Listable i := fun i hi =>
    (Codegen.generated_of_compileProcedure hcompile hi).listable hquotes
  obtain ⟨texts, htexts⟩ := Listing.exists_linesFrom hlistable (some o.table) 0
  have htext : Listing.text (some o.table) p.code = .ok (String.intercalate "\n" texts) :=
    bind_eq_ok.mpr ⟨texts, htexts, rfl⟩
  refine ⟨hname ▸ hnames d hd, hname ▸ (hbatch d hd).name, Build.procedure?_of_run hrun hp, ?_,
    _, htext, hshort p hp _ htext⟩
  obtain ⟨drawing, -, rfl⟩ := Codegen.compileProcedure_eq_ok_iff.mp hcompile
  exact List.append_ne_nil_of_right_ne_nil _ (List.cons_ne_nil _ _)

/-! ## Batches -/

theorem compile_of_run (hrunning : s.worker.stopped = false) (hstore : s.store = none)
    (hne : batch ≠ [])
    (hrun : (Build.run s.settings none none s.worker.table batch).outcome = .ok o) :
    ∃ entries, s.compile none batch
      = ⟨s.holding o.table, entries, .ok ⟨o.procedures, o.hits, o.table.size⟩⟩ := by
  have haccept : s.worker.accept none = .ok () := by
    rw [Worker.accept, hrunning]
    rfl
  have hisEmpty : ¬batch.isEmpty = true := by simpa using hne
  have hsame : { s with worker := { s.worker with table := o.table }, store := none }
      = s.holding o.table := by
    rw [holding, ← hstore]
  rw [compile, if_neg hisEmpty, haccept]
  dsimp only
  rw [hstore, hrun, Build.store_run_none]
  dsimp only [Except.map, Worker.publish]
  rw [hsame]
  exact ⟨_, rfl⟩

/-- A batch that was read from a file and compiles to procedures within the bounds goes to the
    service and comes back as them. -/
theorem client_compile_of_run (hrunning : s.worker.stopped = false) (hstore : s.store = none)
    (hne : batch ≠ []) (hbatch : Batch.Writable (some batch))
    (hrun : (Build.run s.settings none none s.worker.table batch).outcome = .ok o)
    (hwritable : ∀ p ∈ o.procedures, p.Writable .standard 27) (hsize : o.table.size < 2 ^ 63) :
    ∃ entries, Client.compile s (some batch)
      = ⟨s.holding o.table, entries, .ok ⟨o.procedures, o.hits, o.table.size⟩⟩ := by
  obtain ⟨request, hrequest, hread⟩ := readCompileRequest_of_writable hbatch
  obtain ⟨entries, hcompile⟩ := compile_of_run hrunning hstore hne hrun
  -- there are as many procedures as declarations, and a hit is one of them
  have hcount : o.procedures.length ≤ 131072 := by
    have hlength := congrArg List.length (Build.headers_of_run hrun)
    rw [List.length_map, Build.reservations, List.length_map] at hlength
    rw [hlength]
    exact (hbatch batch rfl).1
  have hhits : o.hits < 2 ^ 63 := by
    have hle := Build.hits_le_of_run hrun
    omega
  obtain ⟨response, hresponse, hback⟩ := @readCompiledResponse_of_writable
    ⟨o.procedures, o.hits, o.table.size⟩ hcount hwritable hhits hsize
  refine ⟨entries, ?_⟩
  rw [Client.compile, hrequest]
  dsimp only
  rw [hread]
  dsimp only
  rw [hcompile]
  dsimp only [Client.guarded, Client.respond, Except.bind]
  rw [hresponse]
  dsimp only
  rw [hback]
  rfl

/-- One file: its batch is compiled as it is here, and its procedures are printed as they are shown
    here. -/
theorem sendFile_of_run (hrunning : s.worker.stopped = false) (hstore : s.store = none)
    (hplain : s.settings.optimizer = none) (hread : Batch.readFile t path = .ok batch)
    (hbytes : ∀ bs, t.read path = .ok bs → bs.length < UInt64.size) (hne : batch ≠ [])
    (hnames : ∀ d ∈ batch, d.name ≠ "")
    (hrun : (Build.run s.settings none none s.worker.table batch).outcome = .ok o)
    (hsmall : ∀ p ∈ o.procedures, p.code.length ≤ 131072 ∧
      ∀ i ∈ p.code, i.fields.length ≤ 131072)
    (hsize : o.table.size < 2 ^ 63)
    (hshort : ∀ p ∈ o.procedures, ∀ text, Listing.text (some o.table) p.code = .ok text →
      (utf8 text).length < UInt64.size) :
    CommandLine.Presentable o ∧
      ∃ entries, Client.sendFile t path s = ⟨s.holding o.table, entries,
        (CommandLine.showProcedures (some o.table) (o.procedures.map some)).1, none⟩ := by
  have hbatch := Batch.writable_of_readFile hbytes hread
  have hdecls := (hbatch batch rfl).2
  -- a quoted term has two levels less in the response than the declaration had in the file, and the
  -- node around it took up two there
  have hwritable : ∀ p ∈ o.procedures, p.Writable .standard 27 := by
    intro p hp
    obtain ⟨reserved, hprocedures⟩ := Build.forall₂_procedures hplain hrun
    obtain ⟨d, hd, hcompile⟩ := exists_of_mem_right hprocedures hp
    obtain ⟨hlength, hfields⟩ := hsmall p hp
    refine ⟨?_, hlength, fun i hi => ?_⟩
    · rw [(Codegen.header_of_compileProcedure hcompile).1]
      exact (hdecls d hd).name
    · exact (Codegen.generated_of_compileProcedure hcompile hi).writable (by decide) (by decide)
        (hdecls d hd).value (hfields i hi) (by decide)
  obtain ⟨entries, hcompile⟩ :=
    client_compile_of_run hrunning hstore hne hbatch hrun hwritable hsize
  have hready : ∀ p ∈ o.procedures, Ready (s.holding o.table).worker.table p :=
    ready_of_run hplain hdecls hnames hrun hshort
  obtain ⟨hfault, hprint⟩ := printListings_of_ready hready
  refine ⟨hfault, entries ++ [], ?_⟩
  rw [Client.sendFile, hread]
  dsimp only
  rw [hcompile]
  dsimp only
  rw [hprint, Client.Sent.after, String.empty_append]
  rfl

/-- Remote and local compilation print the same.  Let files hold batches that are not empty, of
    declarations whose names are not empty, and let them compile in order, without a store and an
    optimizer, into procedures with at most 131072 instructions and at most 131072 alternatives in
    each dispatch; files and listings have lengths of 64 bits, and the size of a table has 63 bits.
    Then compiling the files here, without a store, comes to its end.  A service that compiles in the
    same way, starts from the same table and has no other client takes all of them; the listings that
    it sends back make up the text that compiling the files here prints, and it ends up with the
    table of the last batch. -/
theorem sendFiles_eq_compileFiles (hrunning : s.worker.stopped = false) (hstore : s.store = none)
    (hplain : s.settings.optimizer = none)
    (hread : List.Forall₂ (fun path batch => Batch.readFile t path = .ok batch) paths batches)
    (hbytes : ∀ path ∈ paths, ∀ bs, t.read path = .ok bs → bs.length < UInt64.size)
    (hnamed : ∀ batch ∈ batches, batch ≠ [] ∧ ∀ d ∈ batch, d.name ≠ "")
    (hlocal : Build.inOrder s.settings none s.worker.table batches = os.map .ok)
    (hsmall : ∀ o ∈ os, ∀ p ∈ o.procedures, p.code.length ≤ 131072 ∧
      ∀ i ∈ p.code, i.fields.length ≤ 131072)
    (hsize : ∀ o ∈ os, o.table.size < 2 ^ 63)
    (hshort : ∀ o ∈ os, ∀ p ∈ o.procedures, ∀ text,
      Listing.text (some o.table) p.code = .ok text → (utf8 text).length < UInt64.size) :
    (CommandLine.compileFiles s.settings t none s.worker.table paths).work.ending = .done ∧
      (CommandLine.compileFiles s.settings t none s.worker.table paths).procedures
        = os.flatMap (·.procedures) ∧
      ∃ entries, Client.sendFiles t paths s = ⟨s.holding (Build.finalTable s.worker.table os),
        entries, (CommandLine.compileFiles s.settings t none s.worker.table paths).work.stdout,
        none⟩ := by
  induction hread generalizing s os with
  | nil =>
    cases Build.inOrder_nil_eq_ok hlocal
    exact ⟨rfl, rfl, [], rfl⟩
  | @cons path batch paths batches hfirst _ ih =>
    obtain ⟨o, os, rfl, hrun, hrest⟩ := Build.inOrder_cons_eq_ok hlocal
    rw [Build.store_run_none] at hrest
    rw [List.forall_mem_cons] at hbytes hnamed hsmall hsize hshort
    obtain ⟨hshown, entries, hsend⟩ := sendFile_of_run hrunning hstore hplain hfirst hbytes.1
      hnamed.1.1 hnamed.1.2 hrun hsmall.1 hsize.1 hshort.1
    -- the other files go to the service that holds the table of the first
    obtain ⟨hdone, hprocedures, later, hlater⟩ := @ih (s.holding o.table) os hrunning hstore hplain
      hbytes.2 hnamed.2 hrest hsmall.2 hsize.2 hshort.2
    rw [CommandLine.compileFiles_cons_of_run hfirst hrun hshown, Build.store_run_none]
    refine ⟨hdone, ?_, entries ++ later, ?_⟩
    · rw [List.flatMap_cons, ← hprocedures]
      rfl
    · rw [Client.sendFiles, hsend]
      dsimp only
      rw [hlater]
      rfl

/-- A name of `deepest` declared again: what was a quotation is a call. -/
def tripleCall : List Declaration :=
  [⟨"b", .app (.global "a") [.nat 3]⟩]

/-- A file with the batch `deepest`, and one with `tripleCall`. -/
def deepestFiles : FileTree where
  entries := [(["a.cbor"], .file Build.deepestBytes),
    (["b.cbor"], .file ((Batch.encode (some tripleCall)).toOption.getD []))]
  cwd := []

/-- A service that starts with nothing. -/
def bare : Service where
  worker := .start .empty
  settings := { Build.Settings.plain with verify := true }
  store := none
  verbosity := 1

/-- What `deepest` comes to. -/
def deepestOutcome : Build.Outcome where
  table := ⟨[⟨⟨"a", 1, .compiled, 0⟩, Build.deepestCode[0]?⟩,
    ⟨⟨"b", 0, .compiled, 1⟩, Build.deepestCode[1]?⟩]⟩
  procedures := Build.deepestCode
  hits := 0

/-- What `tripleCall` comes to after it. -/
def tripleCallOutcome : Build.Outcome where
  table := ⟨[⟨⟨"a", 1, .compiled, 0⟩, Build.deepestCode[0]?⟩,
    ⟨⟨"b", 0, .compiled, 1⟩, some ⟨"b", 0, [.literal 3, .invoke .invokeGlobal 0, .ret]⟩⟩]⟩
  procedures := [⟨"b", 0, [.literal 3, .invoke .invokeGlobal 0, .ret]⟩]
  hits := 0

/-- The listings of all that was compiled. -/
def deepestListing : String :=
  "a/1\n0000  PUSH 0\n0001  NAT_CASES [0002/0 0004/1]\n0002  NUM 2\n0003  GOTO 0006\n" ++
  "0004  PUSH 1\n0005  DROP 1\n0006  RET\n\n" ++
  "b/0\n0000  EXPR <Lambda>\n0001  RET\n\n" ++
  "b/0\n0000  NUM 3\n0001  INVOKE_GLOBAL 0 (a)\n0002  RET\n\n"

/-- A dispatch, a quotation as deep as a file can hold it, and a name that is declared again. -/
theorem sendFiles_deepest :
    Build.inOrder bare.settings none bare.worker.table [Build.deepest, tripleCall]
        = [deepestOutcome, tripleCallOutcome].map .ok ∧
      (CommandLine.compileFiles bare.settings deepestFiles none bare.worker.table
        ["a.cbor", "b.cbor"]).work.stdout = deepestListing ∧
      ∃ entries, Client.sendFiles deepestFiles ["a.cbor", "b.cbor"] bare
        = ⟨bare.holding tripleCallOutcome.table, entries, deepestListing, none⟩ := by
  have hfirst : (Build.run bare.settings none none bare.worker.table Build.deepest).outcome
      = .ok deepestOutcome := eq_ok_of_toOption (by decide +kernel)
  have hsecond : (Build.run bare.settings none none deepestOutcome.table tripleCall).outcome
      = .ok tripleCallOutcome := eq_ok_of_toOption (by decide +kernel)
  have hlocal : Build.inOrder bare.settings none bare.worker.table [Build.deepest, tripleCall]
      = [deepestOutcome, tripleCallOutcome].map .ok := by
    rw [Build.inOrder, Build.store_run_none, hfirst, Build.tableAfter, Build.inOrder, hsecond]
    rfl
  have hread : List.Forall₂ (fun path batch => Batch.readFile deepestFiles path = .ok batch)
      ["a.cbor", "b.cbor"] [Build.deepest, tripleCall] :=
    .cons (eq_ok_of_toOption (by decide +kernel)) <|
      .cons (eq_ok_of_toOption (by decide +kernel)) .nil
  have hbytes : ∀ path ∈ ["a.cbor", "b.cbor"],
      ((deepestFiles.read path).toOption.getD []).length < UInt64.size := by decide +kernel
  have hshort : ∀ o ∈ [deepestOutcome, tripleCallOutcome], ∀ p ∈ o.procedures,
      (utf8 ((Listing.text (some o.table) p.code).toOption.getD "")).length < UInt64.size := by
    decide +kernel
  have hprinted : (CommandLine.compileFiles bare.settings deepestFiles none bare.worker.table
      ["a.cbor", "b.cbor"]).work.stdout = deepestListing := by
    decide +kernel
  refine ⟨hlocal, hprinted, hprinted ▸ (sendFiles_eq_compileFiles rfl rfl rfl hread ?_ (by decide)
    hlocal (by decide) (by decide) ?_).2.2⟩
  · intro path hpath bs hbs
    simpa [hbs, Except.toOption] using hbytes path hpath
  · intro o ho p hp text htext
    simpa [htext, Except.toOption] using hshort o ho p hp

end TermVM.Service
