/-
  TermVM.Proofs.DeclTable.Slots

  Slots for code.

  A slot is reserved for every name that no builtin or native declaration
  bears; names reserved together do not get into each other's way.  Code fits
  its slot when it has the arity that was reserved, and installing it changes
  no record, so procedures that fit can be installed in any number and order.
-/
import TermVM.Proofs.DeclTable.Stability

namespace TermVM.DeclTable

open Result

variable {t t' : DeclTable}

/-! ## Reservation -/

/-- A name is new or bears a compiled declaration. -/
def Free (t : DeclTable) (name : String) : Prop :=
  ∀ d, t.lookup? name = some d → d.kind = .compiled

/-- The names that are not free are those of builtin and native declarations. -/
theorem WellFormed.free_iff (h : t.WellFormed) {name : String} :
    t.Free name ↔ ∀ d, t.lookup? name = some d → d.kind ≠ .builtin ∧ d.kind ≠ .native := by
  constructor
  · intro hfree d hd
    rw [hfree d hd]
    exact ⟨nofun, nofun⟩
  · intro hkinds d hd
    have hkind := h.kind_of_lookup? hd
    obtain ⟨hbuiltin, hnative⟩ := hkinds d hd
    simpa [hbuiltin, hnative] using hkind

/-- A name has a slot for code of an arity. -/
def Slotted (t : DeclTable) (name : String) (arity : UInt32) : Prop :=
  ∃ d, t.lookup? name = some d ∧ d.kind = .compiled ∧ d.arity = arity

theorem reserve_cons {w : String × UInt32} {wanted : List (String × UInt32)} :
    t.reserve (w :: wanted) = t.reserveOne w.1 w.2 >>= fun t₁ => t₁.reserve wanted :=
  rfl

theorem exists_reserveOne_iff {name : String} {arity : UInt32} :
    (∃ t', t.reserveOne name arity = .ok t') ↔ t.Free name := by
  constructor
  · rintro ⟨t', h⟩ d hd
    obtain ⟨hnew, -⟩ | ⟨d', hd', hkind, -⟩ := reserveOne_eq_ok.mp h
    · rw [hnew] at hd
      cases hd
    · rw [hd'] at hd
      exact Option.some.inj hd ▸ hkind
  · intro hfree
    cases hd : t.lookup? name with
    | none => exact ⟨_, reserveOne_eq_ok.mpr (.inl ⟨hd, rfl⟩)⟩
    | some d => exact ⟨_, reserveOne_eq_ok.mpr (.inr ⟨d, hd, hfree d hd, rfl⟩)⟩

/-- A name is refused for what it already is, and for nothing else. -/
theorem reserveOne_eq_error {name : String} {arity : UInt32} {e : Refusal}
    (h : t.reserveOne name arity = .error e) : ∃ kind, e = .occupied name kind := by
  unfold reserveOne at h
  split at h
  · cases h
  · next d hd =>
    split at h
    · cases h
    · exact ⟨d.kind, (Except.error.inj h).symm⟩

/-- Reserving one name leaves the lookups of all others as they are. -/
theorem lookup?_reserveOne {name n : String} {arity : UInt32} (hne : n ≠ name)
    (h : t.reserveOne name arity = .ok t') : t'.lookup? n = t.lookup? n := by
  obtain ⟨-, rfl⟩ | ⟨d, -, -, rfl⟩ := reserveOne_eq_ok.mp h
  · simp [lookup?, row?, append, List.find?_append, hne.symm]
  · unfold lookup?
    rw [row?_modify]
    · cases hr : t.row? n with
      | none => rfl
      | some r =>
        have hname : r.decl.name = n := by simpa using List.find?_some hr
        simp [hname, hne]
    · exact fun _ => rfl

theorem slotted_of_reserveOne {name : String} {arity : UInt32}
    (h : t.reserveOne name arity = .ok t') : t'.Slotted name arity := by
  obtain ⟨hnew, rfl⟩ | ⟨d, hd, hkind, rfl⟩ := reserveOne_eq_ok.mp h
  · have hrow : t.row? name = none := Option.map_eq_none_iff.mp hnew
    refine ⟨⟨name, arity, .compiled, UInt32.ofNat t.size⟩, ?_, rfl, rfl⟩
    unfold row? at hrow
    simp [lookup?, row?, append, List.find?_append, hrow]
  · obtain ⟨r, hr, rfl⟩ := Option.map_eq_some_iff.mp hd
    have hname : r.decl.name = name := by simpa using List.find?_some hr
    refine ⟨{ r.decl with arity := arity }, ?_, hkind, rfl⟩
    rw [lookup?, row?_modify]
    · rw [hr]
      simp [hname]
    · exact fun _ => rfl

/-- Reserving a name takes no other name away. -/
theorem free_reserveOne {name n : String} {arity : UInt32}
    (h : t.reserveOne name arity = .ok t') : t'.Free n ↔ t.Free n := by
  by_cases hne : n = name
  · -- the name itself was free, and is compiled now
    subst hne
    obtain ⟨d, hd, hkind, -⟩ := slotted_of_reserveOne h
    have hafter : t'.Free n := by
      intro d' hd'
      rw [hd] at hd'
      exact Option.some.inj hd' ▸ hkind
    exact iff_of_true hafter (exists_reserveOne_iff.mp ⟨t', h⟩)
  · unfold Free
    rw [lookup?_reserveOne hne h]

/-- Names can be reserved together when each of them is free. -/
theorem exists_reserve_iff {wanted : List (String × UInt32)} :
    (∃ t', t.reserve wanted = .ok t') ↔ ∀ w ∈ wanted, t.Free w.1 := by
  induction wanted generalizing t with
  | nil => exact iff_of_true ⟨t, rfl⟩ (by simp)
  | cons w wanted ih =>
    rw [List.forall_mem_cons, reserve_cons]
    constructor
    · rintro ⟨t', h⟩
      obtain ⟨t₁, h₁, h⟩ := bind_eq_ok.mp h
      refine ⟨exists_reserveOne_iff.mp ⟨t₁, h₁⟩, fun v hv => ?_⟩
      exact (free_reserveOne h₁).mp (ih.mp ⟨t', h⟩ v hv)
    · rintro ⟨hfirst, hrest⟩
      obtain ⟨t₁, h₁⟩ := exists_reserveOne_iff.mpr hfirst
      obtain ⟨t', h⟩ := ih.mpr fun v hv => (free_reserveOne h₁).mpr (hrest v hv)
      exact ⟨t', bind_eq_ok.mpr ⟨t₁, h₁, h⟩⟩

theorem reserve_eq_error {wanted : List (String × UInt32)} {e : Refusal}
    (h : t.reserve wanted = .error e) : ∃ name kind, e = .occupied name kind := by
  induction wanted generalizing t with
  | nil => cases h
  | cons w wanted ih =>
    rw [reserve_cons] at h
    cases h₁ : t.reserveOne w.1 w.2 with
    | error e' =>
      rw [h₁] at h
      obtain ⟨kind, he⟩ := reserveOne_eq_error h₁
      exact ⟨w.1, kind, Except.error.inj h ▸ he⟩
    | ok t₁ =>
      rw [h₁] at h
      exact ih h

theorem lookup?_reserve {wanted : List (String × UInt32)} {n : String}
    (hn : n ∉ wanted.map (·.1)) (h : t.reserve wanted = .ok t') : t'.lookup? n = t.lookup? n := by
  induction wanted generalizing t with
  | nil =>
    cases h
    rfl
  | cons w wanted ih =>
    rw [List.map_cons, List.mem_cons, not_or] at hn
    obtain ⟨t₁, h₁, h⟩ := bind_eq_ok.mp (reserve_cons ▸ h)
    rw [ih hn.2 h, lookup?_reserveOne hn.1 h₁]

/-- Distinct names all have the slots that were asked for. -/
theorem slotted_of_reserve {wanted : List (String × UInt32)} (hnodup : (wanted.map (·.1)).Nodup)
    (h : t.reserve wanted = .ok t') : ∀ w ∈ wanted, t'.Slotted w.1 w.2 := by
  induction wanted generalizing t with
  | nil => simp
  | cons w wanted ih =>
    rw [List.map_cons, List.nodup_cons] at hnodup
    obtain ⟨t₁, h₁, h⟩ := bind_eq_ok.mp (reserve_cons ▸ h)
    refine List.forall_mem_cons.mpr ⟨?_, ih hnodup.2 h⟩
    obtain ⟨d, hd, hkind, harity⟩ := slotted_of_reserveOne h₁
    refine ⟨d, ?_, hkind, harity⟩
    rw [lookup?_reserve hnodup.1 h, hd]

theorem size_reserve {wanted : List (String × UInt32)} (h : t.reserve wanted = .ok t') :
    t'.size ≤ t.size + wanted.length := by
  induction wanted generalizing t with
  | nil =>
    cases h
    exact Nat.le_refl _
  | cons w wanted ih =>
    obtain ⟨t₁, h₁, h⟩ := bind_eq_ok.mp (reserve_cons ▸ h)
    have hrest := ih h
    have hone : t₁.size ≤ t.size + 1 := by
      obtain ⟨-, rfl⟩ | ⟨d, -, -, rfl⟩ := reserveOne_eq_ok.mp h₁
      · simp [size, append]
      · simp [size, modify]
    rw [List.length_cons]
    omega

/-! ## Installation -/

theorem install_cons {p : Procedure} {procs : List Procedure} :
    t.install (p :: procs) = t.installOne p >>= fun t₁ => t₁.install procs :=
  rfl

/-- Installation changes no record. -/
theorem decls_install {procs : List Procedure} (h : t.install procs = .ok t') :
    t'.decls = t.decls := by
  refine Result.foldlM_invariant (P := fun u => u.decls = t.decls) ?_ rfl h
  intro t₁ p t₂ h₁ hdecls
  rw [← hdecls]
  obtain ⟨d, -, -, -, rfl⟩ := installOne_eq_ok.mp h₁
  simp only [decls, modify, List.map_map]
  refine List.map_congr_left fun r _ => ?_
  simp only [Function.comp_apply]
  split <;> rfl

/-- The records alone decide what a name stands for. -/
theorem lookup?_eq_find? (t : DeclTable) (name : String) :
    t.lookup? name = t.decls.find? fun d => d.name == name := by
  simp only [lookup?, row?, decls, List.find?_map]
  rfl

/-- Procedures that fit their slots can be installed. -/
theorem exists_install {procs : List Procedure} (h : ∀ p ∈ procs, t.Slotted p.name p.arity) :
    ∃ t', t.install procs = .ok t' := by
  induction procs generalizing t with
  | nil => exact ⟨t, rfl⟩
  | cons p procs ih =>
    obtain ⟨⟨d, hd, hkind, harity⟩, hrest⟩ := List.forall_mem_cons.mp h
    have hone := installOne_eq_ok.mpr ⟨d, hd, hkind, harity, rfl⟩
    generalize (t.modify p.name fun r => { r with proc := some p }) = t₁ at hone
    -- the others still fit, since the first left all records alone
    have hlookup : ∀ n, t₁.lookup? n = t.lookup? n := by
      intro n
      have hinstall : t.install [p] = .ok t₁ := by
        rw [install_cons, hone]
        rfl
      rw [lookup?_eq_find?, lookup?_eq_find?, decls_install hinstall]
    have hslots : ∀ q ∈ procs, t₁.Slotted q.name q.arity := by
      intro q hq
      obtain ⟨d', hd', hslot⟩ := hrest q hq
      exact ⟨d', (hlookup q.name).trans hd', hslot⟩
    obtain ⟨t', ht'⟩ := ih hslots
    refine ⟨t', ?_⟩
    rw [install_cons, hone]
    exact ht'

end TermVM.DeclTable
