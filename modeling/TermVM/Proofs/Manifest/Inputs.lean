/-
  TermVM.Proofs.Manifest.Inputs

  What a configuration that passes the schema stands for.

  The table, the registry and the tracer each have checks of their own.  The
  schema asks for everything that those checks ask of a single entry, so that
  only two entries of one name can still be refused: declarations of distinct
  names make the table that lists them in order, analyzers of distinct names
  make the registry that answers with them, and the trace classes are always
  known.
-/
import TermVM.Manifest.Project
import TermVM.Proofs.Analyzers
import TermVM.Proofs.DeclTable.Stability

namespace TermVM

open Result

/-! ## The table -/

/-- The kind of a configured declaration that passes the schema. -/
def Builtin.declKind (b : Builtin) : DeclKind :=
  if b.kind = "builtin" then .builtin else .native

/-- The row of a configured declaration at a position. -/
def Builtin.row (position : Nat) (b : Builtin) : DeclTable.Row :=
  ⟨⟨b.name, b.arity, b.declKind, UInt32.ofNat position⟩, none⟩

/-- A table lists configured declarations in order, and every record has its position for index. -/
structure DeclTable.Lists (bs : List Builtin) (t : DeclTable) : Prop where
  rows_eq : t.rows = bs.mapIdx Builtin.row
  toNat_index : bs.length ≤ 2 ^ 32 → ∀ (i : Nat) (d : Decl), t.decls[i]? = some d → d.index.toNat = i

theorem DeclTable.names_of_rows {bs : List Builtin} {t : DeclTable}
    (h : t.rows = bs.mapIdx Builtin.row) : t.names = bs.map (·.name) := by
  rw [names_eq, h]
  refine List.ext_getElem? fun i => ?_
  simp only [List.getElem?_map, List.getElem?_mapIdx, Option.map_map]
  rfl

theorem DeclTable.lists_of_rows {bs : List Builtin} {t : DeclTable}
    (h : t.rows = bs.mapIdx Builtin.row) : t.Lists bs where
  rows_eq := h
  toNat_index hsize i d hd := by
    rw [decls, h, List.getElem?_map, List.getElem?_mapIdx, Option.map_map] at hd
    obtain ⟨b, hb, rfl⟩ := Option.map_eq_some_iff.mp hd
    have hi := (List.getElem?_eq_some_iff.mp hb).1
    exact UInt32.toNat_ofNat_of_lt' (Nat.lt_of_lt_of_le hi hsize)

namespace Manifest

theorem ValidBuiltin.ofSpelling? {b : Builtin} (h : ValidBuiltin b) :
    DeclKind.ofSpelling? b.kind = some b.declKind := by
  unfold Builtin.declKind
  rcases h.2 with hkind | hkind
  · rw [hkind]
    rfl
  · rw [hkind]
    rfl

theorem declKind_declarable (b : Builtin) : b.declKind = .builtin ∨ b.declKind = .native := by
  unfold Builtin.declKind
  split
  · exact .inl rfl
  · exact .inr rfl

/-- A declaration that passes the schema is refused only for its name. -/
theorem declare_of_valid {b : Builtin} (h : ValidBuiltin b) (t : DeclTable) :
    declare t b = match t.lookup? b.name with
      | some _ => .error (.refused (.duplicate b.name))
      | none => .ok (t.append b.name b.arity b.declKind) := by
  simp only [declare, h.ofSpelling?, DeclTable.declare, declKind_declarable b, if_true]
  cases t.lookup? b.name <;> rfl

theorem collects_declare :
    Collects declare (·.name) (fun b => .refused (.duplicate b.name)) ValidBuiltin
      (fun bs t => t.rows = bs.mapIdx Builtin.row) where
  add := by
    intro bs t b hb ht hnew
    rw [← DeclTable.names_of_rows ht] at hnew
    have hnone := DeclTable.lookup?_eq_none_iff.mpr hnew
    refine ⟨t.append b.name b.arity b.declKind, by rw [declare_of_valid hb, hnone], ?_⟩
    -- the new row's index is the number of rows before it
    have hsize : t.size = bs.length := by rw [DeclTable.size, ht, List.length_mapIdx]
    rw [List.mapIdx_concat, ← ht, ← hsize]
    rfl
  refuse := by
    intro bs t b hb ht hseen
    rw [← DeclTable.names_of_rows ht] at hseen
    obtain ⟨d, hd⟩ : ∃ d, t.lookup? b.name = some d := by
      refine Option.ne_none_iff_exists'.mp fun hnone => ?_
      exact DeclTable.lookup?_eq_none_iff.mp hnone hseen
    rw [declare_of_valid hb, hd]

end Manifest

/-! ## The tracer -/

namespace Tracer

variable {t : Tracer}

theorem class?_switchOn (name c : String) :
    (t.switchOn name).class? c
      = (t.class? c).map fun k => if k.name = name then { k with enabled := true } else k := by
  unfold class? switchOn
  rw [List.find?_map]
  congr 2
  funext k
  simp only [Function.comp_apply]
  split <;> rfl

theorem isEnabled_switchOn {name : String} (hname : (t.class? name).isSome) (c : String) :
    (t.switchOn name).isEnabled c = true ↔ t.isEnabled c = true ∨ c = name := by
  unfold isEnabled
  rw [class?_switchOn]
  cases hc : t.class? c with
  | none =>
    -- a class that is not registered cannot be the one that is switched on
    have hne : c ≠ name := by
      rintro rfl
      rw [hc] at hname
      cases hname
    simp [hne]
  | some k =>
    have hk : k.name = c := by simpa using List.find?_some hc
    by_cases heq : k.name = name
    · simp [heq, ← hk]
    · simp [heq, ← hk]

/-- Classes that are all registered are all switched on, and no others. -/
theorem enable_of_registered {names : List String} (h : ∀ n ∈ names, (t.class? n).isSome) :
    ∃ t', t.enable names = (t', none) ∧
      ∀ c, t'.isEnabled c = true ↔ t.isEnabled c = true ∨ c ∈ names := by
  induction names generalizing t with
  | nil => exact ⟨t, rfl, fun c => by simp⟩
  | cons name names ih =>
    obtain ⟨hname, hrest⟩ := List.forall_mem_cons.mp h
    have hstill : ∀ n ∈ names, ((t.switchOn name).class? n).isSome := by
      intro n hn
      rw [class?_switchOn, Option.isSome_map]
      exact hrest n hn
    obtain ⟨t', henable, henabled⟩ := ih hstill
    obtain ⟨k, hk⟩ := Option.isSome_iff_exists.mp hname
    refine ⟨t', by rw [enable, hk]; exact henable, fun c => ?_⟩
    rw [henabled, isEnabled_switchOn hname, List.mem_cons, or_assoc]

theorem standard_classes :
    standard.classes = [⟨codeGen, false⟩, ⟨optimizeBytecode, false⟩] := by
  decide

theorem standard_isEnabled (c : String) : standard.isEnabled c = false := by
  unfold isEnabled class?
  rw [standard_classes]
  cases hc : List.find? (fun k : TraceClass => k.name == c)
    [⟨codeGen, false⟩, ⟨optimizeBytecode, false⟩] with
  | none => rfl
  | some k =>
    have hk := List.mem_of_find?_eq_some hc
    simp only [List.mem_cons, List.not_mem_nil, or_false] at hk
    rcases hk with rfl | rfl <;> rfl

theorem standardWith_of_known {names : List String}
    (h : ∀ c ∈ names, c = codeGen ∨ c = optimizeBytecode) :
    ∃ t, standardWith names = .ok t ∧ ∀ c, t.isEnabled c = true ↔ c ∈ names := by
  have hregistered : ∀ c ∈ names, (standard.class? c).isSome := by
    intro c hc
    unfold class?
    rw [standard_classes]
    rcases h c hc with rfl | rfl
    · decide
    · decide
  obtain ⟨t, henable, henabled⟩ := enable_of_registered hregistered
  refine ⟨t, by rw [standardWith, henable], fun c => ?_⟩
  rw [henabled, standard_isEnabled]
  simp

end Tracer

/-! ## All inputs of a compilation -/

namespace Manifest

theorem ValidAnalyzer.registrable {a : Analyzer} (h : ValidAnalyzer a) : Analyzers.Registrable a :=
  h.2

variable {m : Manifest}

theorem rows_empty : DeclTable.empty.rows = ([] : List Builtin).mapIdx Builtin.row := rfl

theorem table_of_nodup (h : m.Valid) (hnodup : (m.builtins.map (·.name)).Nodup) :
    ∃ t, m.table = .ok t ∧ t.Lists m.builtins := by
  obtain ⟨t, htable, hrows⟩ := collects_declare.foldlM_of_nodup h.builtins rows_empty hnodup
  exact ⟨t, htable, DeclTable.lists_of_rows hrows⟩

theorem table_of_not_nodup (h : m.Valid) (hnodup : ¬(m.builtins.map (·.name)).Nodup) :
    ∃ before b after, m.builtins = before ++ b :: after ∧ (before.map (·.name)).Nodup ∧
      b.name ∈ before.map (·.name) ∧ m.table = .error (.refused (.duplicate b.name)) :=
  collects_declare.foldlM_of_not_nodup h.builtins rows_empty List.nodup_nil hnodup

theorem tracer_of_valid (h : m.Valid) :
    ∃ tracer, m.tracer = .ok tracer ∧ (tracer = none ↔ m.trace = []) ∧
      ∀ t, tracer = some t → ∀ c, t.isEnabled c = true ↔ c ∈ m.trace := by
  unfold tracer
  split
  next hnone =>
    refine ⟨none, rfl, iff_of_true rfl (List.isEmpty_iff.mp hnone), ?_⟩
    rintro t ⟨⟩
  next hsome =>
    obtain ⟨t, ht, henabled⟩ := Tracer.standardWith_of_known h.trace
    refine ⟨some t, by rw [ht]; rfl, iff_of_false (by rintro ⟨⟩) fun hnil => ?_, ?_⟩
    · exact hsome (List.isEmpty_iff.mpr hnil)
    · rintro t ⟨⟩
      exact henabled

/-- The inputs of a compilation, for every configuration that passes the schema.  The table lists
    the configured declarations in order, unless two of them share a name: then the first name that
    comes again is reported.  The same goes for the registry of analyzers, which is frozen and
    answers with the configured ones.  There is always a tracer if classes are configured, with just
    these switched on. -/
theorem inputs_of_valid (h : m.Valid) :
    ((m.builtins.map (·.name)).Nodup → ∃ t, m.table = .ok t ∧ t.Lists m.builtins) ∧
    (¬(m.builtins.map (·.name)).Nodup →
      ∃ before b after, m.builtins = before ++ b :: after ∧ (before.map (·.name)).Nodup ∧
        b.name ∈ before.map (·.name) ∧ m.table = .error (.refused (.duplicate b.name))) ∧
    ((m.cases.map (·.name)).Nodup → ∃ t, m.analyzers = .ok t ∧ t.Registers m.cases) ∧
    (¬(m.cases.map (·.name)).Nodup →
      ∃ before a after, m.cases = before ++ a :: after ∧ (before.map (·.name)).Nodup ∧
        a.name ∈ before.map (·.name) ∧ m.analyzers = .error (.duplicate a.name)) ∧
    ∃ tracer, m.tracer = .ok tracer ∧ (tracer = none ↔ m.trace = []) ∧
      ∀ t, tracer = some t → ∀ c, t.isEnabled c = true ↔ c ∈ m.trace := by
  have hanalyzers : ∀ a ∈ m.cases, Analyzers.Registrable a := fun a ha => (h.cases a ha).registrable
  exact ⟨table_of_nodup h, table_of_not_nodup h, Analyzers.ofList_of_nodup hanalyzers,
    Analyzers.ofList_of_not_nodup hanalyzers, tracer_of_valid h⟩

/-- A configuration whose declarations have distinct names, while one analyzer comes twice. -/
def twiceAnalyzed : Manifest :=
  { default with
    trace := [Tracer.optimizeBytecode]
    builtins := [⟨"nat.add", 2, "builtin"⟩, ⟨"io.print", 1, "native"⟩]
    cases := [⟨"string.cases_on", 3, 1⟩, ⟨"bool.cases_on", 7, 2⟩, ⟨"string.cases_on", 4, 2⟩] }

theorem twiceAnalyzed_inputs :
    twiceAnalyzed.Valid ∧ (∃ t, twiceAnalyzed.table = .ok t ∧ t.Lists twiceAnalyzed.builtins) ∧
      (∃ a ∈ twiceAnalyzed.cases, twiceAnalyzed.analyzers = .error (.duplicate a.name)) ∧
      ∃ t, twiceAnalyzed.tracer = .ok (some t) ∧ t.isEnabled Tracer.codeGen = false := by
  have hvalid : twiceAnalyzed.Valid := by decide
  obtain ⟨htable, -, -, hcases, tracer, htracer, hnone, henabled⟩ := inputs_of_valid hvalid
  refine ⟨hvalid, htable (by decide), ?_, ?_⟩
  · obtain ⟨before, a, after, heq, -, -, herror⟩ := hcases (by decide)
    exact ⟨a, by rw [heq]; simp, herror⟩
  · obtain ⟨t, rfl⟩ : ∃ t, tracer = some t :=
      Option.ne_none_iff_exists'.mp fun h => absurd (hnone.mp h) (by decide)
    refine ⟨t, htracer, Bool.eq_false_iff.mpr fun hon => ?_⟩
    exact absurd ((henabled t rfl _).mp hon) (by decide)

end Manifest

end TermVM
