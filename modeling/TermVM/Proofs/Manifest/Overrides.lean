/-
  TermVM.Proofs.Manifest.Overrides

  Configurations that variables of the environment override.

  A configuration is checked against the schema before defaults and overrides
  are applied.  Defaults pass the check, and so does a number of jobs taken from
  a variable, which is checked on its own.  The port and the trace classes are
  taken from their variables as they are: the configuration that results passes
  the schema exactly when these two variables hold what the schema asks for.
-/
import TermVM.Manifest.Basic

namespace TermVM.Manifest

variable {env : Environment} {m m' : Manifest}

/-! ## Defaults -/

theorem Valid.withDefaults (h : m.Valid) : m.withDefaults.Valid where
  dirs := by
    show ∀ d ∈ (if m.dirs.isEmpty then ["build"] else m.dirs), d ≠ ""
    split
    · simp
    · exact h.dirs
  jobs := h.jobs
  trace := h.trace
  port := by
    show 0 ≤ (if m.port = 0 then defaultPort else m.port) ∧
      (if m.port = 0 then defaultPort else m.port) ≤ 65535
    split
    · decide
    · exact h.port
  builtins := h.builtins
  cases := h.cases

/-! ## Overrides -/

/-- The variable for the port holds a port, unless it is passed over. -/
def Environment.PortFits (env : Environment) : Prop :=
  ∀ s n, env.get? "VMGEN_PORT" = some s → Text.readWord? s = some n → 0 ≤ n ∧ n ≤ 65535

/-- The variable for the trace classes lists classes that there are. -/
def Environment.TraceKnown (env : Environment) : Prop :=
  ∀ s, env.get? "VMGEN_TRACE" = some s →
    ∀ c ∈ Text.commaList s, c = Tracer.codeGen ∨ c = Tracer.optimizeBytecode

/-- What an override takes from the variables.  Only the number of jobs is looked at: it is the
    configured one, or it is not negative. -/
theorem override_eq_ok (h : m.override env = .ok m') :
    ∃ jobs, (jobs = m.jobs ∨ 0 ≤ jobs) ∧
      { m with
        jobs := jobs
        cache := (env.get? "VMGEN_CACHE").getD m.cache
        trace := ((env.get? "VMGEN_TRACE").map Text.commaList).getD m.trace
        port := ((env.get? "VMGEN_PORT").bind Text.readWord?).getD m.port } = m' := by
  unfold override at h
  cases hvariable : env.get? "VMGEN_JOBS" with
  | none =>
    simp only [hvariable] at h
    exact ⟨m.jobs, .inl rfl, Except.ok.inj h⟩
  | some s =>
    simp only [hvariable] at h
    cases hread : jobsOf? s with
    | none =>
      rw [hread] at h
      cases h
    | some n =>
      simp only [hread] at h
      have hpos : 0 ≤ n := by simpa using (Option.filter_eq_some_iff.mp hread).2
      exact ⟨n, .inr hpos, Except.ok.inj h⟩

theorem port_of_override (hm : m.Valid) (h : m.override env = .ok m') :
    (0 ≤ m'.port ∧ m'.port ≤ 65535) ↔ env.PortFits := by
  obtain ⟨jobs, -, rfl⟩ := override_eq_ok h
  unfold Environment.PortFits
  cases hvariable : env.get? "VMGEN_PORT" with
  | none => exact iff_of_true hm.port (by rintro s n ⟨⟩)
  | some s =>
    rw [Option.bind_some]
    cases hread : Text.readWord? s with
    | none =>
      -- no number: the configured port stays
      refine iff_of_true hm.port ?_
      rintro s' n ⟨⟩ hn
      rw [hread] at hn
      cases hn
    | some n =>
      constructor
      · rintro hport s' n' ⟨⟩ hn'
        obtain rfl := Option.some.inj (hread.symm.trans hn')
        exact hport
      · intro hfits
        exact hfits s n rfl hread

theorem trace_of_override (hm : m.Valid) (h : m.override env = .ok m') :
    (∀ c ∈ m'.trace, c = Tracer.codeGen ∨ c = Tracer.optimizeBytecode) ↔ env.TraceKnown := by
  obtain ⟨jobs, -, rfl⟩ := override_eq_ok h
  unfold Environment.TraceKnown
  cases hvariable : env.get? "VMGEN_TRACE" with
  | none => exact iff_of_true hm.trace (by rintro s ⟨⟩)
  | some s =>
    constructor
    · rintro hknown s' ⟨⟩
      exact hknown
    · intro hknown
      exact hknown s rfl

/-- A text that is accepted spells out a configuration that passes the schema, and its variables
    override that configuration with its defaults. -/
theorem parse_eq_ok {bs : Bytes} (h : parse env bs = .ok m) :
    ∃ spelled, decode? bs = some spelled ∧ spelled.Valid ∧
      spelled.withDefaults.override env = .ok m := by
  unfold parse at h
  cases hdecode : decode? bs with
  | none =>
    rw [hdecode] at h
    cases h
  | some spelled =>
    simp only [hdecode] at h
    split at h
    next hvalid => exact ⟨spelled, rfl, hvalid, h⟩
    next => cases h

/-- An accepted configuration, after defaults and overrides.  What the schema asks of directories,
    jobs, declarations and analyzers always holds.  What it asks of the port and of the trace classes
    holds exactly when their variables comply. -/
theorem valid_of_parse_iff (env : Environment) (bs : Bytes) {m : Manifest}
    (h : parse env bs = .ok m) :
    ((∀ d ∈ m.dirs, d ≠ "") ∧ 0 ≤ m.jobs ∧ (∀ b ∈ m.builtins, ValidBuiltin b) ∧
      ∀ a ∈ m.cases, ValidAnalyzer a) ∧
    ((0 ≤ m.port ∧ m.port ≤ 65535) ↔ env.PortFits) ∧
    ((∀ c ∈ m.trace, c = Tracer.codeGen ∨ c = Tracer.optimizeBytecode) ↔ env.TraceKnown) ∧
    (m.Valid ↔ env.PortFits ∧ env.TraceKnown) := by
  obtain ⟨spelled, -, hspelled, hoverride⟩ := parse_eq_ok h
  have hvalid := hspelled.withDefaults
  have hport := port_of_override hvalid hoverride
  have htrace := trace_of_override hvalid hoverride
  obtain ⟨jobs, hjobs, rfl⟩ := override_eq_ok hoverride
  have hjobs : 0 ≤ jobs := by
    rcases hjobs with rfl | hpos
    · exact hvalid.jobs
    · exact hpos
  refine ⟨⟨hvalid.dirs, hjobs, hvalid.builtins, hvalid.cases⟩, hport, htrace, ?_⟩
  constructor
  · intro hm
    exact ⟨hport.mp hm.port, htrace.mp hm.trace⟩
  · rintro ⟨hfits, hknown⟩
    exact ⟨hvalid.dirs, hjobs, htrace.mpr hknown, hport.mpr hfits, hvalid.builtins, hvalid.cases⟩

/-- All four variables, each with a value that the schema allows. -/
def compliant : Environment :=
  [("VMGEN_JOBS", "7"), ("VMGEN_CACHE", "/tmp/vmgen-cache.db"),
   ("VMGEN_TRACE", "compiler.code_gen, compiler.optimize_bytecode"), ("VMGEN_PORT", "9999")]

theorem decode?_serverPort :
    decode? (utf8 "server.port = 5") = some { unset with port := 5 } := by
  have hmark : Toml.dropByteOrderMark (utf8 "server.port = 5") = utf8 "server.port = 5" := by
    decide +kernel
  rw [decode?, Toml.decode?, hmark, ofUtf8?_utf8]
  decide +kernel

theorem compliant_valid :
    ∃ m, parse compliant (utf8 "server.port = 5") = .ok m ∧ m.port = 9999 ∧ m.jobs = 7 ∧
      m.trace.length = 2 ∧ m.Valid := by
  obtain ⟨m, hm, hport, hjobs, htrace⟩ : ∃ m, parse compliant (utf8 "server.port = 5") = .ok m ∧
      m.port = 9999 ∧ m.jobs = 7 ∧ m.trace = [Tracer.codeGen, Tracer.optimizeBytecode] := by
    unfold parse
    rw [decode?_serverPort]
    exact ⟨_, rfl, by decide +kernel, by decide +kernel, by decide +kernel⟩
  obtain ⟨-, hfits, hknown, hvalid⟩ := valid_of_parse_iff compliant (utf8 "server.port = 5") hm
  rw [hport] at hfits
  rw [htrace] at hknown
  exact ⟨m, hm, hport, hjobs, by rw [htrace]; rfl,
    hvalid.mpr ⟨hfits.mp (by decide), hknown.mp (by simp)⟩⟩

/-- A port that no service can have, and a trace class that there is not, are taken from their
    variables all the same. -/
theorem overrides_invalid :
    (∃ m, parse [("VMGEN_PORT", "70000")] [] = .ok m ∧ ¬m.Valid) ∧
      ∃ m, parse [("VMGEN_TRACE", "compiler.everything")] [] = .ok m ∧ ¬m.Valid :=
  ⟨⟨_, rfl, by decide⟩, ⟨_, rfl, by decide⟩⟩

end TermVM.Manifest
