/-
  TermVM.Proofs.Fingerprint.Soundness

  Equal keys stand for equal code.

  The bytes that a key is the digest of determine the normal form of the term,
  and the record and the analyzer of every ordinary constant it mentions.  Code
  generation looks at nothing else, so that terms with the same bytes have the
  same code but for the spelling of quoted terms:
  `compileProcedure_alike_of_keyBytes`.
-/
import TermVM.Proofs.DeclTable.Reachable
import TermVM.Proofs.Fingerprint.Reader
import TermVM.Proofs.Outline.Mirror

namespace TermVM.Fingerprint

open Codegen Result

/-! ## The names in a key -/

theorem mem_insertName {x name : String} {names : List String} :
    x ∈ insertName name names ↔ x = name ∨ x ∈ names := by
  induction names with
  | nil => simp [insertName]
  | cons n ns ih =>
    unfold insertName
    split
    · simp
    · split
      · next heq => simp [heq]
      · simp only [List.mem_cons, ih]
        exact or_left_comm

/-- A key covers every ordinary constant. -/
theorem mem_globals {t : Term} {c : String × Marker} (hc : c ∈ t.constants)
    (hkind : c.2.kind = .plain) : c.1 ∈ globals t := by
  -- what the fold has collected stays, and it collects `c` when it meets it
  have hfold : ∀ (cs : List (String × Marker)) (names : List String), c.1 ∈ names ∨ c ∈ cs →
      c.1 ∈ cs.foldl (fun names c =>
        if c.2.kind = .plain then insertName c.1 names else names) names := by
    intro cs
    induction cs with
    | nil => simp
    | cons d ds ih =>
      intro names h
      refine ih _ ?_
      dsimp only
      rcases h with h | h
      · refine .inl ?_
        split
        · exact mem_insertName.mpr (.inr h)
        · exact h
      · rcases List.mem_cons.mp h with rfl | h
        · rw [if_pos hkind]
          exact .inl (mem_insertName.mpr (.inl rfl))
        · exact .inr h
  exact hfold t.constants [] (.inr hc)

theorem globals_normal (t : Term) : globals t.normal = globals t := by
  simp [globals]

/-! ## The records in a key -/

/-- Reads what a key covers about a declaration. -/
def readDecl (name : String) : Reader (Option Decl) := do
  let tag ← readByte
  match tag.toNat with
  | 0x31 => do
      let kind ← readByte
      let index ← readWord
      let arity ← readWord
      return some ⟨name, arity, .ofByte kind, index⟩
  | _ => return none

/-- Reads what a key covers about an analyzer. -/
def readAnalyzer (name : String) : Reader (Option Analyzer) := do
  let tag ← readByte
  match tag.toNat with
  | 0x32 => do
      let index ← readWord
      let alternatives ← readWord
      return some ⟨name, index, alternatives⟩
  | _ => return none

/-- Reads what a key covers about a global whose name is known. -/
def readRecord (name : String) : Reader (Option Decl × Option Analyzer) := do
  let _ ← readBytes (text name).length
  let decl ← readDecl name
  let analyzer ← readAnalyzer name
  return (decl, analyzer)

/-- Reads what a key covers about the globals of a list. -/
def readRecords : List String → Reader (List (Option Decl × Option Analyzer))
  | [] => return []
  | name :: names => do
      let r ← readRecord name
      let rs ← readRecords names
      return r :: rs

variable (table : DeclTable) (analyzers : Option Analyzers)

/-- What a key covers about a global. -/
def consulted (name : String) : Option Decl × Option Analyzer :=
  (table.lookup? name, analyzers.bind (·.lookup? name))

theorem reads_decl (name : String) :
    Reads (readDecl name) (match table.lookup? name with
      | some d => 0x31 :: (d.kind.toByte :: (word d.index ++ word d.arity))
      | none => [0x33]) (table.lookup? name) := by
  cases hd : table.lookup? name with
  | none => exact (reads_byte 0x33).andThen (Reads.pure _)
  | some d =>
    obtain ⟨r, -, rfl, rfl⟩ := DeclTable.row_of_lookup? hd
    have hread : Reads (readDecl r.decl.name)
        (0x31 :: (r.decl.kind.toByte :: (word r.decl.index ++ word r.decl.arity)))
        (some ⟨r.decl.name, r.decl.arity, .ofByte r.decl.kind.toByte, r.decl.index⟩) :=
      (reads_byte 0x31).bind
        ((reads_byte _).bind ((reads_word _).bind ((reads_word _).map _)))
    rwa [DeclKind.ofByte_toByte] at hread

theorem reads_analyzer (name : String) :
    Reads (readAnalyzer name) (match analyzers.bind (·.lookup? name) with
      | some a => 0x32 :: (word a.index ++ word a.alternatives)
      | none => [0x33]) (analyzers.bind (·.lookup? name)) := by
  cases ha : analyzers.bind (·.lookup? name) with
  | none => exact (reads_byte 0x33).andThen (Reads.pure _)
  | some a =>
    obtain ⟨registry, -, hfind⟩ := Option.bind_eq_some_iff.mp ha
    obtain rfl : a.name = name := by simpa using List.find?_some hfind
    exact (reads_byte 0x32).bind ((reads_word _).bind ((reads_word _).map _))

theorem reads_records (names : List String) :
    Reads (readRecords names) (names.flatMap (record table analyzers))
      (names.map (consulted table analyzers)) := by
  induction names with
  | nil => exact Reads.pure []
  | cons name names ih =>
    have hrecord : Reads (readRecord name) (record table analyzers name)
        (consulted table analyzers name) :=
      (reads_bytes (text name)).bind
        ((reads_decl table name).bind ((reads_analyzer analyzers name).map _))
    exact hrecord.bind (ih.map _)

/-! ## Keys and code -/

/-- Two instructions do the same.  Quoted terms may differ in how application chains are nested and
    in the names of free locals. -/
structure Alike (i j : Instr) : Prop where
  op_eq : i.op = j.op
  a_eq : i.a = j.a
  b_eq : i.b = j.b
  num_eq : i.num = j.num
  targets_eq : i.targets = j.targets
  fields_eq : i.fields = j.fields
  expr_eq : i.expr.normalData = j.expr.normalData

theorem alike_of_normal_eq {i j : Instr} (h : i.normal = j.normal) : Alike i j where
  op_eq := (congrArg Instr.op h : i.normal.op = j.normal.op)
  a_eq := (congrArg Instr.a h : i.normal.a = j.normal.a)
  b_eq := (congrArg Instr.b h : i.normal.b = j.normal.b)
  num_eq := (congrArg Instr.num h : i.normal.num = j.normal.num)
  targets_eq := (congrArg Instr.targets h : i.normal.targets = j.normal.targets)
  fields_eq := (congrArg Instr.fields h : i.normal.fields = j.normal.fields)
  expr_eq := (congrArg Instr.expr h : i.normal.expr = j.normal.expr)

/-- Whether every text and list in the bytes of a term is shorter than 2^32.  An argument list is
    that of a whole application chain. -/
def measured (t : Term) : Bool :=
  fits false t.flattenDeep

section

variable {g g' : Globals} {s t : Term} {bytes : Bytes}

/-- The bytes of a key determine the normal form of its term and all that they cover about the
    globals. -/
theorem agree_of_keyBytes (hs : measured s = true) (ht : measured t = true)
    (hkey : keyBytes? s g.table g.analyzers = some bytes)
    (hkey' : keyBytes? t g'.table g'.analyzers = some bytes) :
    s.normal = t.normal ∧ g.Agree g' s.constants := by
  obtain ⟨bs, hbs, hbytes⟩ : ∃ bs, flatBytes? false s.flattenDeep = some bs ∧
      version :: 0x30 :: (bs ++ (count (globals s).length
        ++ (globals s).flatMap (record g.table g.analyzers))) = bytes := by
    simpa [keyBytes?, Option.bind_eq_some_iff] using hkey
  obtain ⟨cs, hcs, hbytes'⟩ : ∃ cs, flatBytes? false t.flattenDeep = some cs ∧
      version :: 0x30 :: (cs ++ (count (globals t).length
        ++ (globals t).flatMap (record g'.table g'.analyzers))) = bytes := by
    simpa [keyBytes?, Option.bind_eq_some_iff] using hkey'
  have hsame := hbytes.trans hbytes'.symm
  simp only [List.cons.injEq, true_and] at hsame
  obtain ⟨hnormal, hrest⟩ := withoutNames_eq_of_append_eq hs ht hbs hcs hsame
  change s.normal = t.normal at hnormal
  refine ⟨hnormal, ?_⟩
  -- both keys cover the same names, so their records can be read side by side
  have hnames : globals t = globals s := by
    rw [← globals_normal s, hnormal, globals_normal]
  rw [hnames, List.append_cancel_left_eq] at hrest
  have hrecords := ((reads_records g.table g.analyzers (globals s)).unique
    (reads_records g'.table g'.analyzers (globals s)) (congrArg (· ++ []) hrest)).1
  intro c hc hkind
  have hconsulted := List.map_inj_left.mp hrecords c.1 (mem_globals hc hkind)
  exact ⟨congrArg Prod.fst hconsulted, congrArg Prod.snd hconsulted⟩

/-- Terms whose keys are digests of the same bytes compile to the same code, or neither compiles.
    Only terms without absent parts have such bytes.  The names that procedures are given play no
    part. -/
theorem compileProcedure_alike_of_keyBytes (hs : measured s = true) (ht : measured t = true)
    (hkey : keyBytes? s g.table g.analyzers = some bytes)
    (hkey' : keyBytes? t g'.table g'.analyzers = some bytes) (name name' : String) :
    ((∃ p, compileProcedure g name s = .ok p) ↔ ∃ q, compileProcedure g' name' t = .ok q) ∧
      ∀ p q, compileProcedure g name s = .ok p → compileProcedure g' name' t = .ok q →
        p.arity = q.arity ∧ p.code.length = q.code.length ∧
          ∀ (pc : Nat) i j, p.code[pc]? = some i → q.code[pc]? = some j → Alike i j := by
  obtain ⟨hnormal, hagree⟩ := agree_of_keyBytes hs ht hkey hkey'
  obtain ⟨plan, hplan, hplan'⟩ := parallel_body hnormal hagree
  have harity := Term.arity_eq_of_normal_eq hnormal
  constructor
  · simp only [compileProcedure_eq_ok_iff]
    constructor
    · rintro ⟨p, d, hd, -⟩
      obtain ⟨d', hd', -⟩ := hplan'.eq_ok_iff.mp (hplan.eq_ok_iff.mpr ⟨d, hd, rfl⟩)
      exact ⟨_, d', hd', rfl⟩
    · rintro ⟨q, d', hd', -⟩
      obtain ⟨d, hd, -⟩ := hplan.eq_ok_iff.mp (hplan'.eq_ok_iff.mpr ⟨d', hd', rfl⟩)
      exact ⟨_, d, hd, rfl⟩
  · intro p q hp hq
    obtain ⟨d, hd, rfl⟩ := compileProcedure_eq_ok_iff.mp hp
    obtain ⟨d', hd', rfl⟩ := compileProcedure_eq_ok_iff.mp hq
    obtain ⟨e, he, heq⟩ := hplan'.eq_ok_iff.mp (hplan.eq_ok_iff.mpr ⟨d, hd, rfl⟩)
    obtain rfl : d' = e := Except.ok.inj (hd'.symm.trans he)
    have houtline : d.outline.normal = d'.outline.normal := congrArg Drawing.outline heq.symm
    have hcode : (d.outline.layout 0 ++ [Instr.ret]).map Instr.normal
        = (d'.outline.layout 0 ++ [Instr.ret]).map Instr.normal := by
      simp only [List.map_append, ← Outline.layout_normal, houtline]
    refine ⟨congrArg UInt32.ofNat harity, by simpa using congrArg List.length hcode, ?_⟩
    intro pc i j hi hj
    have hpc := congrArg (·[pc]?) hcode
    simp only [List.getElem?_map] at hpc
    rw [show (d.outline.layout 0 ++ [Instr.ret])[pc]? = some i from hi,
      show (d'.outline.layout 0 ++ [Instr.ret])[pc]? = some j from hj] at hpc
    exact alike_of_normal_eq (Option.some.inj hpc)

end

/-! ## A key shared by two terms -/

/-- A call through a nested chain, with a nested chain as quoted argument. -/
def curried : Term :=
  .lam "x" (.app (.app (.global "add") [.var 0])
    [.quote (.app (.app (.fvar 7 "a") [.nat 1]) [.lam "z" (.var 0)])])

/-- The same call in flat form, with other names of the parameter and of the quoted local. -/
def uncurried : Term :=
  .lam "y" (.app (.global "add") [.var 0,
    .quote (.app (.fvar 7 "b") [.nat 1, .lam "z" (.var 0)])])

/-- Globals with one declaration. -/
def onlyAdd : Globals :=
  ⟨DeclTable.empty.append "add" 2 .builtin, none⟩

/-- The same declaration beside another one and an analyzer. -/
def addAmongOthers : Globals :=
  ⟨(DeclTable.empty.append "add" 2 .builtin).append "sub" 2 .native,
    some ⟨[⟨"list.cases_on", 4, 2⟩], true⟩⟩

theorem curried_alike : curried ≠ uncurried ∧ onlyAdd ≠ addAmongOthers ∧
    ∃ p q, compileProcedure onlyAdd "f" curried = .ok p ∧
      compileProcedure addAmongOthers "g" uncurried = .ok q ∧
      p.arity = q.arity ∧ p.code.length = q.code.length ∧
        ∀ (pc : Nat) i j, p.code[pc]? = some i → q.code[pc]? = some j → Alike i j := by
  obtain ⟨hiff, halike⟩ := @compileProcedure_alike_of_keyBytes onlyAdd addAmongOthers curried
    uncurried ((keyBytes? curried onlyAdd.table onlyAdd.analyzers).getD []) (by decide +kernel)
    (by decide +kernel) (by decide +kernel) (by decide +kernel) "f" "g"
  have hcompiles : (compileProcedure onlyAdd "f" curried).toOption.isSome = true := by
    decide +kernel
  obtain ⟨p, hp⟩ : ∃ p, compileProcedure onlyAdd "f" curried = .ok p := by
    cases hcompile : compileProcedure onlyAdd "f" curried with
    | error e => simp [hcompile, Except.toOption] at hcompiles
    | ok p => exact ⟨p, rfl⟩
  obtain ⟨q, hq⟩ := hiff.mp ⟨p, hp⟩
  exact ⟨by decide +kernel, by decide +kernel, p, q, hp, hq, halike p q hp hq⟩

end TermVM.Fingerprint
