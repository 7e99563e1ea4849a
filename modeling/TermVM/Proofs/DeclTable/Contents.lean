/-
  TermVM.Proofs.DeclTable.Contents

  A table is its records and the code under each name.

  Reserving looks at records only, and installing changes code only, so both
  sides can be computed apart.  `Gathers t ps t'` says what the procedures `ps`,
  reserved and installed in however many batches, have made of `t`: the records
  are those of reserving all of them at once, and the code of a name is the one
  given last.  A further batch adds its procedures to the list.
-/
import Mathlib.Data.List.Nodup
import TermVM.Proofs.DeclTable.Slots

namespace TermVM.DeclTable

open Relation Result

variable {t t' u u' : DeclTable}

/-! ## Positions -/

/-- Names keep their positions. -/
theorem names_prefix_of_changes (h : ReflTransGen Change t t') : t.names <+: t'.names := by
  induction h with
  | refl => exact List.prefix_refl _
  | tail _ hchange ih =>
    refine ih.trans ?_
    cases hchange with
    | added hnew hkind =>
      rw [names_append]
      exact List.prefix_append _ _
    | reservedAgain hd hkind =>
      refine ⟨[], ?_⟩
      rw [List.append_nil, names_modify]
      exact fun _ => rfl
    | installed hd hkind harity =>
      refine ⟨[], ?_⟩
      rw [List.append_nil, names_modify]
      exact fun _ => rfl

theorem map_name_at? (t : DeclTable) (index : UInt32) :
    (t.at? index).map (·.name) = t.names[index.toNat]? := by
  rw [at?, names_eq, List.getElem?_map, Option.map_map]
  rfl

/-- A position that a name stands at has this name in every later table. -/
theorem map_name_at?_of_prefix (h : t.names <+: t'.names) {index : UInt32}
    (hindex : (t.at? index).isSome = true) :
    (t'.at? index).map (·.name) = (t.at? index).map (·.name) := by
  have hlt : index.toNat < t.names.length := by
    obtain ⟨d, hd⟩ := Option.isSome_iff_exists.mp hindex
    have hname := t.map_name_at? index
    rw [hd] at hname
    exact (List.getElem?_eq_some_iff.mp hname.symm).1
  obtain ⟨rest, hrest⟩ := h
  rw [map_name_at?, map_name_at?, ← hrest, List.getElem?_append_left hlt]

/-- The index of a record leads to a position in the table, even where 32 bits are too few. -/
theorem WellFormed.isSome_at? (hwf : t.WellFormed) {name : String} {d : Decl}
    (h : t.lookup? name = some d) : (t.at? d.index).isSome = true := by
  obtain ⟨r, hr, rfl, -⟩ := row_of_lookup? h
  obtain ⟨i, hi⟩ := List.getElem?_of_mem hr
  have hlt : i < t.rows.length := (List.getElem?_eq_some_iff.mp hi).1
  have hle : (UInt32.ofNat i).toNat ≤ i := Nat.mod_le _ _
  rw [at?, hwf.index_eq i r hi, List.getElem?_eq_getElem (by omega)]
  rfl

/-! ## Records -/

theorem reserve_append (v w : List (String × UInt32)) :
    t.reserve (v ++ w) = t.reserve v >>= fun t₁ => t₁.reserve w :=
  List.foldlM_append

theorem decls_append (name : String) (arity : UInt32) (kind : DeclKind) :
    (t.append name arity kind).decls = t.decls ++ [⟨name, arity, kind, UInt32.ofNat t.size⟩] := by
  simp [decls, append]

theorem decls_setArity (name : String) (arity : UInt32) :
    (t.modify name fun r => { decl := { r.decl with arity := arity }, proc := none }).decls
      = t.decls.map fun d => if d.name == name then { d with arity := arity } else d := by
  simp only [decls, modify, List.map_map]
  refine List.map_congr_left fun r _ => ?_
  simp only [Function.comp_apply]
  split <;> rfl

theorem lookup?_congr (h : u.decls = t.decls) (name : String) : u.lookup? name = t.lookup? name := by
  rw [lookup?_eq_find?, lookup?_eq_find?, h]

theorem slotted_congr (h : u.decls = t.decls) {name : String} {arity : UInt32} :
    u.Slotted name arity ↔ t.Slotted name arity := by
  unfold Slotted
  rw [lookup?_congr h]

/-- Reserving goes by the records. -/
theorem exists_reserveOne_of_decls (h : u.decls = t.decls) {name : String} {arity : UInt32}
    (ht : t.reserveOne name arity = .ok t') :
    ∃ u', u.reserveOne name arity = .ok u' ∧ u'.decls = t'.decls := by
  have hsize : u.size = t.size := by
    simpa [decls, size] using congrArg List.length h
  obtain ⟨hnew, rfl⟩ | ⟨d, hd, hkind, rfl⟩ := reserveOne_eq_ok.mp ht
  · have hnew' : u.lookup? name = none := (lookup?_congr h name).trans hnew
    refine ⟨_, reserveOne_eq_ok.mpr (.inl ⟨hnew', rfl⟩), ?_⟩
    rw [decls_append, decls_append, h, hsize]
  · have hd' : u.lookup? name = some d := (lookup?_congr h name).trans hd
    refine ⟨_, reserveOne_eq_ok.mpr (.inr ⟨d, hd', hkind, rfl⟩), ?_⟩
    rw [decls_setArity, decls_setArity, h]

theorem exists_reserve_of_decls (h : u.decls = t.decls) {wanted : List (String × UInt32)}
    (ht : t.reserve wanted = .ok t') : ∃ u', u.reserve wanted = .ok u' ∧ u'.decls = t'.decls := by
  induction wanted generalizing t u with
  | nil =>
    cases ht
    exact ⟨u, rfl, h⟩
  | cons w wanted ih =>
    obtain ⟨t₁, ht₁, ht⟩ := bind_eq_ok.mp (reserve_cons ▸ ht)
    obtain ⟨u₁, hu₁, h₁⟩ := exists_reserveOne_of_decls h ht₁
    obtain ⟨u', hu', h'⟩ := ih h₁ ht
    exact ⟨u', reserve_cons ▸ bind_eq_ok.mpr ⟨u₁, hu₁, hu'⟩, h'⟩

/-! ## Code -/

theorem procedure?_reserveOne {name : String} {arity : UInt32}
    (h : t.reserveOne name arity = .ok t') (n : String) :
    t'.procedure? n = if n = name then none else t.procedure? n := by
  obtain ⟨hnew, rfl⟩ | ⟨d, hd, hkind, rfl⟩ := reserveOne_eq_ok.mp h
  · have hrow : t.row? name = none := Option.map_eq_none_iff.mp hnew
    by_cases hn : n = name
    · subst hn
      unfold row? at hrow
      simp [procedure?, row?, append, List.find?_append, hrow]
    · simp [procedure?, row?, append, List.find?_append, hn, Ne.symm hn]
  · rw [procedure?, procedure?, row?_modify]
    · cases hr : t.row? n with
      | none => simp
      | some r =>
        have hname : r.decl.name = n := by simpa using List.find?_some hr
        by_cases hn : n = name <;> simp [hname, hn]
    · exact fun _ => rfl

/-- A name that is reserved loses its code, and no other does. -/
theorem procedure?_reserve {wanted : List (String × UInt32)} (h : t.reserve wanted = .ok t')
    (n : String) :
    t'.procedure? n = if n ∈ wanted.map (·.1) then none else t.procedure? n := by
  induction wanted generalizing t with
  | nil =>
    cases h
    simp
  | cons w wanted ih =>
    obtain ⟨t₁, h₁, h⟩ := bind_eq_ok.mp (reserve_cons ▸ h)
    rw [ih h, procedure?_reserveOne h₁ n, List.map_cons]
    by_cases hw : n = w.1 <;> by_cases hmem : n ∈ wanted.map (·.1) <;> simp [hw, hmem]

theorem procedure?_installOne {p : Procedure} (h : t.installOne p = .ok t') (n : String) :
    t'.procedure? n = if p.name = n then some p else t.procedure? n := by
  obtain ⟨d, hd, -, -, rfl⟩ := installOne_eq_ok.mp h
  rw [procedure?, procedure?, row?_modify]
  · cases hr : t.row? n with
    | none =>
      -- the name that code was given to does stand in the table
      have hne : p.name ≠ n := by
        rintro rfl
        rw [lookup?, hr] at hd
        cases hd
      simp [hne]
    | some r =>
      have hname : r.decl.name = n := by simpa using List.find?_some hr
      by_cases hn : p.name = n
      · simp [hname, hn]
      · simp [hname, hn, Ne.symm hn]
  · exact fun _ => rfl

/-- The last of some procedures with a name. -/
def latest (ps : List Procedure) (name : String) : Option Procedure :=
  ps.reverse.find? fun p => p.name == name

theorem latest_append (ps qs : List Procedure) (name : String) :
    latest (ps ++ qs) name = (latest qs name).or (latest ps name) := by
  rw [latest, List.reverse_append, List.find?_append]
  rfl

theorem latest_eq_none_iff {ps : List Procedure} {name : String} :
    latest ps name = none ↔ name ∉ ps.map (·.name) := by
  simp [latest]

theorem latest_of_nodup {ps : List Procedure} (hnodup : (ps.map (·.name)).Nodup) {p : Procedure}
    (hp : p ∈ ps) : latest ps p.name = some p := by
  have hreverse : (ps.reverse.map (·.name)).Nodup := by
    rw [List.map_reverse]
    exact List.nodup_reverse.mpr hnodup
  exact find?_of_nodup hreverse (List.mem_reverse.mpr hp)

/-- A name has the code that was installed last, or the code it had. -/
theorem procedure?_install {ps : List Procedure} (h : t.install ps = .ok t') (n : String) :
    t'.procedure? n = (latest ps n).or (t.procedure? n) := by
  induction ps generalizing t with
  | nil =>
    cases h
    rfl
  | cons p ps ih =>
    obtain ⟨t₁, h₁, h⟩ := bind_eq_ok.mp (install_cons ▸ h)
    have hlatest : latest (p :: ps) n = (latest ps n).or (latest [p] n) := latest_append [p] ps n
    rw [ih h, procedure?_installOne h₁ n, hlatest, Option.or_assoc]
    by_cases hn : p.name = n <;> simp [latest, hn]

/-- Tables with the same records, and the same code under each name, are the same. -/
theorem eq_of_decls_of_procedures (hnodup : t.names.Nodup) (hdecls : u.decls = t.decls)
    (hcode : ∀ n, u.procedure? n = t.procedure? n) : u = t := by
  have hnames : u.names = t.names := by rw [names, names, hdecls]
  have hproc : ∀ v : DeclTable, v.names.Nodup → ∀ r ∈ v.rows, r.proc = v.procedure? r.decl.name := by
    intro v hv r hr
    rw [procedure?, row?_of_mem hv hr]
    rfl
  -- every row is made of its record and of what its name leads to
  have hrows : ∀ v : DeclTable, v.names.Nodup →
      v.rows = v.decls.map fun d => ⟨d, v.procedure? d.name⟩ := by
    intro v hv
    rw [decls, List.map_map]
    conv_lhs => rw [← List.map_id v.rows]
    refine List.map_congr_left fun r hr => ?_
    simp [← hproc v hv r hr]
  have heq : u.rows = t.rows := by
    rw [hrows u (hnames ▸ hnodup), hrows t hnodup, hdecls]
    simp only [hcode]
  exact congrArg DeclTable.mk heq

/-! ## Procedures reserved and installed in turn -/

/-- What a procedure is reserved with. -/
def header (p : Procedure) : String × UInt32 := (p.name, p.arity)

theorem map_fst_header (ps : List Procedure) : (ps.map header).map (·.1) = ps.map (·.name) := by
  rw [List.map_map]
  rfl

/-- Procedures were reserved and installed in turn: the records are those of reserving all at once,
    and each name has the code given last. -/
structure Gathers (t : DeclTable) (ps : List Procedure) (t' : DeclTable) : Prop where
  records : ∃ u, t.reserve (ps.map header) = .ok u ∧ u.decls = t'.decls
  code : ∀ n, t'.procedure? n = (latest ps n).or (t.procedure? n)

namespace Gathers

variable {ps qs : List Procedure} {t₁ : DeclTable}

theorem refl (t : DeclTable) : t.Gathers [] t where
  records := ⟨t, rfl, rfl⟩
  code _ := rfl

/-- One more batch. -/
theorem batch (h : t.Gathers ps t') (hreserve : t'.reserve (qs.map header) = .ok t₁)
    (hinstall : t₁.install qs = .ok u) : t.Gathers (ps ++ qs) u where
  records := by
    obtain ⟨v, hv, hdecls⟩ := h.records
    obtain ⟨v', hv', hdecls'⟩ := exists_reserve_of_decls hdecls hreserve
    refine ⟨v', ?_, hdecls'.trans (decls_install hinstall).symm⟩
    rw [List.map_append, reserve_append]
    exact bind_eq_ok.mpr ⟨v, hv, hv'⟩
  code n := by
    rw [procedure?_install hinstall, procedure?_reserve hreserve, map_fst_header, latest_append,
      h.code, Option.or_assoc]
    -- a name of the batch was given code by it, so what reserving drops does not show
    by_cases hn : n ∈ qs.map (·.name)
    · obtain ⟨q, hq⟩ := Option.ne_none_iff_exists'.mp fun h => latest_eq_none_iff.mp h hn
      simp [hq]
    · rw [if_neg hn]

/-- Reserving all at once, then installing all, leads to the same table if it leads to one. -/
theorem eq_of_install (h : t.Gathers ps t') (hnodup : t'.names.Nodup)
    (hreserve : t.reserve (ps.map header) = .ok u) (hinstall : u.install ps = .ok u') :
    u' = t' := by
  obtain ⟨v, hv, hdecls⟩ := h.records
  obtain rfl : u = v := Except.ok.inj (hreserve.symm.trans hv)
  refine eq_of_decls_of_procedures hnodup ((decls_install hinstall).trans hdecls) fun n => ?_
  rw [procedure?_install hinstall, procedure?_reserve hreserve, map_fst_header, h.code]
  by_cases hn : n ∈ ps.map (·.name)
  · obtain ⟨p, hp⟩ := Option.ne_none_iff_exists'.mp fun h => latest_eq_none_iff.mp h hn
    simp [hp]
  · rw [if_neg hn]

end Gathers

/-! ## Names that are reserved more than once -/

/-- Procedures of one name are of one arity. -/
def Agreeing (ps : List Procedure) : Prop :=
  ∀ p ∈ ps, ∀ q ∈ ps, p.name = q.name → p.arity = q.arity

instance (ps : List Procedure) : Decidable (Agreeing ps) :=
  inferInstanceAs (Decidable (∀ p ∈ ps, ∀ q ∈ ps, p.name = q.name → p.arity = q.arity))

/-- A name that was reserved has a slot of one of the arities it was reserved with. -/
theorem exists_slotted_of_reserve {wanted : List (String × UInt32)} (h : t.reserve wanted = .ok t')
    {name : String} (hname : name ∈ wanted.map (·.1)) :
    ∃ arity, (name, arity) ∈ wanted ∧ t'.Slotted name arity := by
  induction wanted generalizing t with
  | nil => cases hname
  | cons w wanted ih =>
    obtain ⟨t₁, h₁, h⟩ := bind_eq_ok.mp (reserve_cons ▸ h)
    by_cases hlater : name ∈ wanted.map (·.1)
    · obtain ⟨arity, hmem, hslot⟩ := ih h hlater
      exact ⟨arity, List.mem_cons_of_mem w hmem, hslot⟩
    · -- nothing comes after the reservation that `w` asks for
      obtain rfl : name = w.1 := (List.mem_cons.mp hname).resolve_right hlater
      obtain ⟨d, hd, hslot⟩ := slotted_of_reserveOne h₁
      refine ⟨w.2, List.mem_cons_self, d, ?_, hslot⟩
      rw [lookup?_reserve hlater h, hd]

theorem Slotted.arity_unique {name : String} {a b : UInt32} (ha : t.Slotted name a)
    (hb : t.Slotted name b) : a = b := by
  obtain ⟨d, hd, -, rfl⟩ := ha
  obtain ⟨d', hd', -, rfl⟩ := hb
  rw [Option.some.inj (hd.symm.trans hd')]

/-- Procedures can be installed exactly if they fit their slots. -/
theorem exists_install_iff {ps : List Procedure} :
    (∃ t', t.install ps = .ok t') ↔ ∀ p ∈ ps, t.Slotted p.name p.arity := by
  refine ⟨?_, exists_install⟩
  rintro ⟨t', h⟩
  induction ps generalizing t with
  | nil => simp
  | cons p ps ih =>
    obtain ⟨t₁, h₁, h⟩ := bind_eq_ok.mp (install_cons ▸ h)
    have hone : t.install [p] = .ok t₁ := by
      rw [install_cons, h₁]
      rfl
    have hdecls : t₁.decls = t.decls := decls_install hone
    obtain ⟨d, hd, hkind, harity, -⟩ := installOne_eq_ok.mp h₁
    refine List.forall_mem_cons.mpr ⟨⟨d, hd, hkind, harity⟩, fun q hq => ?_⟩
    exact (slotted_congr hdecls).mp (ih h q hq)

/-- Slots that were reserved for procedures all at once take them exactly if they agree. -/
theorem exists_install_iff_agreeing {ps : List Procedure} (h : t.reserve (ps.map header) = .ok u) :
    (∃ t', u.install ps = .ok t') ↔ Agreeing ps := by
  rw [exists_install_iff]
  constructor
  · intro hslots p hp q hq hname
    exact (hslots p hp).arity_unique (hname ▸ hslots q hq)
  · intro hagree p hp
    have hname : p.name ∈ (ps.map header).map (·.1) := by
      rw [map_fst_header]
      exact List.mem_map_of_mem hp
    obtain ⟨arity, hmem, hslot⟩ := exists_slotted_of_reserve h hname
    obtain ⟨q, hq, hheader⟩ := List.mem_map.mp hmem
    obtain ⟨hsame, rfl⟩ := Prod.mk.inj hheader
    rwa [hagree p hp q hq hsame.symm]

/-- Gathered procedures, reserved and installed all at once, give the table that they were gathered
    in if they agree, and none if not. -/
theorem Gathers.toOption_install {ps : List Procedure} (h : t.Gathers ps t')
    (hnodup : t'.names.Nodup) (hreserve : t.reserve (ps.map header) = .ok u) :
    (u.install ps).toOption = if Agreeing ps then some t' else none := by
  cases hinstall : u.install ps with
  | ok u' =>
    have hagree := (exists_install_iff_agreeing hreserve).mp ⟨u', hinstall⟩
    rw [if_pos hagree, h.eq_of_install hnodup hreserve hinstall]
    rfl
  | error e =>
    have hnot : ¬Agreeing ps := by
      intro hagree
      obtain ⟨u', hu'⟩ := (exists_install_iff_agreeing hreserve).mpr hagree
      cases hinstall.symm.trans hu'
    rw [if_neg hnot]
    rfl

end TermVM.DeclTable
