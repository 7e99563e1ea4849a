/-
  TermVM.Proofs.Environment

  The three parts of a declaration table agree.

  An update appends a record with its slot and its entry, changes the arity of a
  compiled record and clears its slot, or fills a slot: `Step`.  Each of these
  keeps the parts in agreement, `Coherent`, as long as every position fits into
  an index of 32 bits; and whatever the size, a name keeps the entry it has and
  the record there keeps its name, index and kind.  A coherent environment
  answers as the rows of its `view` do, and updates of the one are updates of
  the other.
-/
import Mathlib.Logic.Relation
import TermVM.Environment
import TermVM.Proofs.DeclTable.Stability

namespace TermVM.Environment

open Relation Result

variable {e e' : Environment} {name : String} {index : UInt32} {d : Decl}

/-! ## Steps -/

/-- What an update does to the three parts, one record at a time. -/
inductive Step : Environment → Environment → Prop where
  | add {e : Environment} {name : String} {arity : UInt32} {kind : DeclKind}
      (hnew : e.indexOf? name = none) (hkind : kind ∈ [.builtin, .native, .compiled]) :
      Step e (e.add name arity kind)
  | clear {e : Environment} {index arity : UInt32} {d : Decl} (hd : e.at? index = some d)
      (hkind : d.kind = .compiled) (hslot : index.toNat < e.procs.length) :
      Step e { e with decls := e.decls.set index.toNat { d with arity := arity }
                      procs := e.procs.set index.toNat none }
  | fill {e : Environment} {index : UInt32} {d : Decl} {p : Procedure}
      (hindex : e.indexOf? p.name = some index) (hd : e.at? index = some d)
      (hkind : d.kind = .compiled) (harity : d.arity = p.arity)
      (hslot : index.toNat < e.procs.length) :
      Step e { e with procs := e.procs.set index.toNat (some p) }

section

variable {α : Type} {xs ys : List α} {x : α}

theorem element_eq_ok : element xs index = .ok x ↔ xs[index.toNat]? = some x := by
  unfold element
  cases xs[index.toNat]? <;> simp

theorem replace_eq_ok :
    replace xs index x = .ok ys ↔ index.toNat < xs.length ∧ xs.set index.toNat x = ys := by
  unfold replace
  by_cases hlt : index.toNat < xs.length <;> simp [hlt]

end

theorem step_of_declare {arity : UInt32} {kind : DeclKind}
    (h : e.declare name arity kind = .ok e') : Step e e' := by
  unfold declare at h
  split at h
  case isFalse => cases h
  case isTrue hkind =>
    split at h
    case h_1 => cases h
    case h_2 hnew =>
      cases h
      refine .add hnew ?_
      rcases hkind with rfl | rfl <;> simp

theorem step_of_reserveOne {arity : UInt32} (h : e.reserveOne name arity = .ok e') : Step e e' := by
  unfold reserveOne at h
  split at h
  case h_1 hnew =>
    cases h
    exact .add hnew (by simp)
  case h_2 index hindex =>
    obtain ⟨d, hd, h⟩ := bind_eq_ok.mp h
    split at h
    case isTrue => cases h
    case isFalse hkind =>
      obtain ⟨decls, hdecls, h⟩ := bind_eq_ok.mp h
      obtain ⟨procs, hprocs, h⟩ := bind_eq_ok.mp h
      cases h
      obtain ⟨-, rfl⟩ := replace_eq_ok.mp (mapError_eq_ok.mp hdecls)
      obtain ⟨hslot, rfl⟩ := replace_eq_ok.mp (mapError_eq_ok.mp hprocs)
      exact .clear (element_eq_ok.mp (mapError_eq_ok.mp hd)) (not_not.mp hkind) hslot

theorem step_of_installOne {p : Procedure} (h : e.installOne p = .ok e') : Step e e' := by
  unfold installOne at h
  split at h
  case h_1 => cases h
  case h_2 index hindex =>
    obtain ⟨d, hd, h⟩ := bind_eq_ok.mp h
    split at h
    case isTrue => cases h
    case isFalse hkind =>
      split at h
      case isTrue => cases h
      case isFalse harity =>
        obtain ⟨procs, hprocs, h⟩ := bind_eq_ok.mp h
        cases h
        obtain ⟨hslot, rfl⟩ := replace_eq_ok.mp (mapError_eq_ok.mp hprocs)
        exact .fill hindex (element_eq_ok.mp (mapError_eq_ok.mp hd)) (not_not.mp hkind)
          (not_not.mp harity) hslot

/-- What becomes of a reservation when the name has a record. -/
theorem reserveOne_of_index {arity : UInt32} (hindex : e.indexOf? name = some index)
    (hd : e.at? index = some d) (hslot : index.toNat < e.procs.length) :
    e.reserveOne name arity = if d.kind = .compiled
      then .ok { e with decls := e.decls.set index.toNat { d with arity := arity }
                        procs := e.procs.set index.toNat none }
      else .error (.refused (.occupied name d.kind)) := by
  have hlt : index.toNat < e.decls.length := (List.getElem?_eq_some_iff.mp hd).1
  rw [reserveOne, hindex]
  dsimp only
  rw [element_eq_ok.mpr hd]
  show (if d.kind ≠ .compiled then Except.error (Failure.refused (.occupied name d.kind)) else _) = _
  rw [ite_not, replace_eq_ok.mpr ⟨hlt, rfl⟩, replace_eq_ok.mpr ⟨hslot, rfl⟩]
  rfl

/-- What becomes of a procedure when its name has a record. -/
theorem installOne_of_index {p : Procedure} (hindex : e.indexOf? p.name = some index)
    (hd : e.at? index = some d) (hslot : index.toNat < e.procs.length) :
    e.installOne p = if d.kind ≠ .compiled then .error (.refused (.notReserved p.name))
      else if d.arity ≠ p.arity then .error (.refused (.arityMismatch p.name d.arity p.arity))
      else .ok { e with procs := e.procs.set index.toNat (some p) } := by
  rw [installOne, hindex]
  dsimp only
  rw [element_eq_ok.mpr hd, replace_eq_ok.mpr ⟨hslot, rfl⟩]
  rfl

/-- The updates that succeed. -/
inductive Update : Environment → Environment → Prop where
  | declare {e e' : Environment} {name : String} {arity : UInt32} {kind : DeclKind}
      (h : e.declare name arity kind = .ok e') : Update e e'
  | reserve {e e' : Environment} {wanted : List (String × UInt32)}
      (h : e.reserve wanted = .ok e') : Update e e'
  | install {e e' : Environment} {procs : List Procedure}
      (h : e.install procs = .ok e') : Update e e'

theorem Update.steps (h : Update e e') : ReflTransGen Step e e' := by
  cases h with
  | declare h => exact .single (step_of_declare h)
  | reserve h => exact foldlM_steps h fun _ _ _ => step_of_reserveOne
  | install h => exact foldlM_steps h fun _ _ _ => step_of_installOne

/-- Further updates lead from one table to another. -/
def Derived (e e' : Environment) : Prop :=
  ReflTransGen Update e e'

/-- Updates lead to the table from the empty one. -/
def Reachable (e : Environment) : Prop :=
  Derived .empty e

theorem Derived.steps (h : e.Derived e') : ReflTransGen Step e e' := by
  induction h with
  | refl => exact .refl
  | tail _ hupdate ih => exact ih.trans hupdate.steps

theorem Step.size_le (h : Step e e') : e.size ≤ e'.size := by
  cases h <;> simp [size, Environment.add]

theorem size_le_of_steps (h : ReflTransGen Step e e') : e.size ≤ e'.size := by
  induction h with
  | refl => exact Nat.le_refl _
  | tail _ hstep ih => exact Nat.le_trans ih hstep.size_le

/-! ## Agreement -/

/-- The parts speak about the same declarations: there is a slot for each record, the record at a
    position has that position as its index, the map leads to it from its name and from no other, and
    a filled slot belongs to a compiled record. -/
structure Coherent (e : Environment) : Prop where
  slots : e.procs.length = e.decls.length
  kind_mem : ∀ d ∈ e.decls, d.kind ∈ [.builtin, .native, .compiled]
  index_eq : ∀ i d, e.decls[i]? = some d → d.index = UInt32.ofNat i
  indexed : ∀ i d, e.decls[i]? = some d → e.indexOf? d.name = some (UInt32.ofNat i)
  named : ∀ name index, e.indexOf? name = some index → ∃ d, e.at? index = some d ∧ d.name = name
  proc_fits : ∀ (i : Nat) (p : Procedure), e.procs[i]? = some (some p) →
    ∃ d, e.decls[i]? = some d ∧ d.kind = .compiled ∧ p.name = d.name ∧ p.arity = d.arity

theorem coherent_empty : Coherent .empty where
  slots := rfl
  kind_mem d h := by cases h
  index_eq i d h := by simp [empty] at h
  indexed i d h := by simp [empty] at h
  named name index h := by cases h
  proc_fits i p h := by simp [empty] at h

theorem getElem?_concat_eq_some {α : Type} {xs : List α} {x y : α} {i : Nat} :
    (xs ++ [x])[i]? = some y ↔ xs[i]? = some y ∨ i = xs.length ∧ x = y := by
  rcases Nat.lt_trichotomy i xs.length with hlt | rfl | hgt
  · rw [List.getElem?_append_left hlt]
    have hne : i ≠ xs.length := Nat.ne_of_lt hlt
    simp [hne]
  · simp
  · have hnone : xs[i]? = none := List.getElem?_eq_none (Nat.le_of_lt hgt)
    have hne : i ≠ xs.length := Nat.ne_of_gt hgt
    have hnone' : (xs ++ [x])[i]? = none :=
      List.getElem?_eq_none (by rw [List.length_append, List.length_singleton]; omega)
    simp [hnone, hnone', hne]

theorem indexOf?_add {arity : UInt32} {kind : DeclKind} (other : String) :
    (e.add name arity kind).indexOf? other
      = if other = name then some (UInt32.ofNat e.size) else e.indexOf? other := by
  simp only [add, indexOf?, List.lookup_cons]
  split <;> simp_all

theorem Coherent.add {arity : UInt32} {kind : DeclKind} (h : e.Coherent)
    (hnew : e.indexOf? name = none) (hkind : kind ∈ [.builtin, .native, .compiled])
    (hroom : e.size < 2 ^ 32) : (e.add name arity kind).Coherent where
  slots := by simp [Environment.add, h.slots]
  kind_mem d hd := by
    rcases List.mem_append.mp hd with hd | hd
    · exact h.kind_mem d hd
    · rw [List.mem_singleton.mp hd]
      exact hkind
  index_eq i d hd := by
    rcases getElem?_concat_eq_some.mp hd with hd | ⟨rfl, rfl⟩
    · exact h.index_eq i d hd
    · rfl
  indexed i d hd := by
    rw [indexOf?_add]
    rcases getElem?_concat_eq_some.mp hd with hd | ⟨rfl, rfl⟩
    · -- a record that was there before bears another name
      have hold := h.indexed i d hd
      have hne : d.name ≠ name := by
        rintro rfl
        rw [hnew] at hold
        cases hold
      rw [if_neg hne, hold]
    · exact if_pos rfl
  named other index hindex := by
    rw [indexOf?_add] at hindex
    have hnat : (UInt32.ofNat e.size).toNat = e.size := UInt32.toNat_ofNat_of_lt' hroom
    split at hindex
    case isTrue hsame =>
      obtain rfl := Option.some.inj hindex
      refine ⟨_, getElem?_concat_eq_some.mpr (.inr ⟨hnat, rfl⟩), hsame.symm⟩
    case isFalse =>
      obtain ⟨d, hd, hname⟩ := h.named other index hindex
      exact ⟨d, getElem?_concat_eq_some.mpr (.inl hd), hname⟩
  proc_fits i p hp := by
    rcases getElem?_concat_eq_some.mp hp with hp | ⟨-, hnone⟩
    · obtain ⟨d, hd, hfits⟩ := h.proc_fits i p hp
      exact ⟨d, getElem?_concat_eq_some.mpr (.inl hd), hfits⟩
    · cases hnone

section

variable {arity : UInt32} (hd : e.at? index = some d)

include hd

theorem getElem?_set_arity (i : Nat) :
    (e.decls.set index.toNat { d with arity := arity })[i]?
      = e.decls[i]?.map fun d' => if i = index.toNat then { d' with arity := arity } else d' := by
  have hd : e.decls[index.toNat]? = some d := hd
  have hlt := (List.getElem?_eq_some_iff.mp hd).1
  rw [List.getElem?_set]
  by_cases hi : index.toNat = i
  · subst hi
    rw [if_pos rfl, if_pos hlt, hd]
    simp
  · have hi' : i ≠ index.toNat := fun h => hi h.symm
    simp [hi, hi']

/-- The arity of a record can change; what else is known of it stays. -/
theorem exists_of_set_arity {i : Nat} {d' : Decl}
    (hd' : (e.decls.set index.toNat { d with arity := arity })[i]? = some d') :
    ∃ old, e.decls[i]? = some old ∧ d'.name = old.name ∧ d'.kind = old.kind ∧
      d'.index = old.index := by
  rw [getElem?_set_arity hd] at hd'
  obtain ⟨old, hold, rfl⟩ := Option.map_eq_some_iff.mp hd'
  refine ⟨old, hold, ?_⟩
  split <;> exact ⟨rfl, rfl, rfl⟩

theorem Coherent.clear (h : e.Coherent) :
    Coherent { e with decls := e.decls.set index.toNat { d with arity := arity }
                      procs := e.procs.set index.toNat none } where
  slots := by simp [h.slots]
  kind_mem d' hd' := by
    obtain ⟨i, hi⟩ := List.mem_iff_getElem?.mp hd'
    obtain ⟨old, hold, -, hkind, -⟩ := exists_of_set_arity hd hi
    rw [hkind]
    exact h.kind_mem old (List.mem_of_getElem? hold)
  index_eq i d' hd' := by
    obtain ⟨old, hold, -, -, hindex⟩ := exists_of_set_arity hd hd'
    rw [hindex]
    exact h.index_eq i old hold
  indexed i d' hd' := by
    obtain ⟨old, hold, hname, -, -⟩ := exists_of_set_arity hd hd'
    rw [hname]
    exact h.indexed i old hold
  named name index' hindex := by
    obtain ⟨old, hold, hname⟩ := h.named name index' hindex
    have hold : e.decls[index'.toNat]? = some old := hold
    refine ⟨_, (getElem?_set_arity hd index'.toNat).trans (by rw [hold]; rfl), ?_⟩
    rw [← hname]
    split <;> rfl
  proc_fits i p hp := by
    -- the slot at the index is empty now, and every other record is what it was
    replace hp : (e.procs.set index.toNat none)[i]? = some (some p) := hp
    rw [List.getElem?_set] at hp
    split at hp
    case isTrue =>
      split at hp <;> cases hp
    case isFalse hi =>
      obtain ⟨old, hold, hfits⟩ := h.proc_fits i p hp
      have hi' : i ≠ index.toNat := fun h => hi h.symm
      refine ⟨old, (getElem?_set_arity hd i).trans ?_, hfits⟩
      rw [hold, Option.map_some, if_neg hi']

end

theorem Coherent.fill {p : Procedure} (h : e.Coherent) (hindex : e.indexOf? p.name = some index)
    (hd : e.at? index = some d) (hkind : d.kind = .compiled) (harity : d.arity = p.arity) :
    Coherent { e with procs := e.procs.set index.toNat (some p) } where
  slots := by simp [h.slots]
  kind_mem := h.kind_mem
  index_eq := h.index_eq
  indexed := h.indexed
  named := h.named
  proc_fits i q hq := by
    replace hq : (e.procs.set index.toNat (some p))[i]? = some (some q) := hq
    rw [List.getElem?_set] at hq
    split at hq
    case isTrue hi =>
      subst hi
      split at hq
      · cases hq
        -- the map led to the record from its name
        obtain ⟨d', hd', hname⟩ := h.named p.name index hindex
        obtain rfl := Option.some.inj (hd'.symm.trans hd)
        exact ⟨d', hd, hkind, hname.symm, harity.symm⟩
      · cases hq
    case isFalse => exact h.proc_fits i q hq

theorem Coherent.step (h : e.Coherent) (hstep : Step e e') (hroom : e'.size ≤ 2 ^ 32) :
    e'.Coherent := by
  cases hstep with
  | add hnew hkind =>
    refine h.add hnew hkind (Nat.lt_of_succ_le ?_)
    simpa [size, Environment.add] using hroom
  | clear hd hkind hslot => exact h.clear hd
  | fill hindex hd hkind harity hslot => exact h.fill hindex hd hkind harity

/-- What is reached by steps stays coherent while positions fit into an index. -/
theorem Coherent.steps (h : e.Coherent) (hsteps : ReflTransGen Step e e')
    (hroom : e'.size ≤ 2 ^ 32) : e'.Coherent := by
  induction hsteps with
  | refl => exact h
  | tail _ hstep ih =>
    exact (ih (Nat.le_trans hstep.size_le hroom)).step hstep hroom

theorem Reachable.coherent (h : e.Reachable) (hroom : e.size ≤ 2 ^ 32) : e.Coherent :=
  coherent_empty.steps h.steps hroom

/-! ## Lookups -/

theorem lookup_of_record (hindex : e.indexOf? name = some index) (hd : e.at? index = some d) :
    e.lookup name = .ok (some d) := by
  rw [lookup, hindex]
  show (element e.decls index).map some = _
  rw [element_eq_ok.mpr hd]
  rfl

theorem Coherent.lookup_of_index (h : e.Coherent) (hindex : e.indexOf? name = some index) :
    ∃ d, e.at? index = some d ∧ d.name = name ∧ e.lookup name = .ok (some d) := by
  obtain ⟨d, hd, hname⟩ := h.named name index hindex
  exact ⟨d, hd, hname, lookup_of_record hindex hd⟩

theorem lookup_of_no_index (hindex : e.indexOf? name = none) : e.lookup name = .ok none := by
  rw [lookup, hindex]

/-- A lookup that finds a record went through the entry of the name. -/
theorem lookup_eq_some (h : e.lookup name = .ok (some d)) :
    ∃ index, e.indexOf? name = some index ∧ e.at? index = some d := by
  unfold lookup at h
  split at h
  case h_1 => cases h
  case h_2 index hindex =>
    obtain ⟨d', hd', hsame⟩ := map_eq_ok.mp h
    obtain rfl := Option.some.inj hsame
    exact ⟨index, hindex, element_eq_ok.mp hd'⟩

/-! ## Stability -/

/-- What a step leaves alone: the entry of a name, and all but the arity of the record there; the
    arity too unless the record is compiled. -/
theorem Step.keeps (hstep : Step e e') (h : e.lookup name = .ok (some d)) :
    ∃ d', e'.lookup name = .ok (some d') ∧ d'.index = d.index ∧ d'.kind = d.kind ∧
      (d.kind ≠ .compiled → d'.arity = d.arity) := by
  obtain ⟨index, hindex, hd⟩ := lookup_eq_some h
  cases hstep with
  | @add other arity kind hnew hkind =>
    have hne : name ≠ other := by
      rintro rfl
      rw [hnew] at hindex
      cases hindex
    refine ⟨d, lookup_of_record ?_ (getElem?_concat_eq_some.mpr (.inl hd)), rfl, rfl, fun _ => rfl⟩
    rw [indexOf?_add, if_neg hne, hindex]
  | @clear changed arity d₀ hd₀ hkind hslot =>
    have hd : e.decls[index.toNat]? = some d := hd
    refine ⟨_, lookup_of_record hindex
      ((getElem?_set_arity hd₀ index.toNat).trans (by rw [hd]; rfl)), ?_⟩
    split
    case isTrue hsame =>
      -- the record at the index is the compiled one
      have hcompiled : d.kind = .compiled := by
        rw [hsame] at hd
        rw [Option.some.inj (hd.symm.trans hd₀)]
        exact hkind
      exact ⟨rfl, rfl, fun hne => absurd hcompiled hne⟩
    case isFalse => exact ⟨rfl, rfl, fun _ => rfl⟩
  | fill => exact ⟨d, lookup_of_record hindex hd, rfl, rfl, fun _ => rfl⟩

theorem keeps_of_steps (hsteps : ReflTransGen Step e e') (h : e.lookup name = .ok (some d)) :
    ∃ d', e'.lookup name = .ok (some d') ∧ d'.index = d.index ∧ d'.kind = d.kind ∧
      (d.kind ≠ .compiled → d'.arity = d.arity) := by
  induction hsteps with
  | refl => exact ⟨d, h, rfl, rfl, fun _ => rfl⟩
  | tail _ hstep ih =>
    obtain ⟨d₁, hd₁, hindex₁, hkind₁, harity₁⟩ := ih
    obtain ⟨d₂, hd₂, hindex₂, hkind₂, harity₂⟩ := hstep.keeps hd₁
    refine ⟨d₂, hd₂, hindex₂.trans hindex₁, hkind₂.trans hkind₁, fun hne => ?_⟩
    exact (harity₂ (hkind₁ ▸ hne)).trans (harity₁ hne)

/-! ## Rows -/

theorem getElem?_rows_view {i : Nat} {r : DeclTable.Row} :
    e.view.rows[i]? = some r ↔ e.decls[i]? = some r.decl ∧ e.procs[i]? = some r.proc := by
  rw [view, List.getElem?_zipWith]
  obtain ⟨d, p⟩ := r
  cases e.decls[i]? <;> cases e.procs[i]? <;> simp

theorem Coherent.size_view (h : e.Coherent) : e.view.size = e.size := by
  simp [view, DeclTable.size, size, h.slots]

theorem Coherent.exists_row (h : e.Coherent) {i : Nat} (hd : e.decls[i]? = some d) :
    ∃ p, e.view.rows[i]? = some ⟨d, p⟩ := by
  have hlt : i < e.procs.length := by
    rw [h.slots]
    exact (List.getElem?_eq_some_iff.mp hd).1
  exact ⟨_, getElem?_rows_view.mpr ⟨hd, List.getElem?_eq_getElem hlt⟩⟩

theorem Coherent.slot_lt (h : e.Coherent) (hd : e.at? index = some d) :
    index.toNat < e.procs.length :=
  h.slots ▸ (List.getElem?_eq_some_iff.mp hd).1

/-- Among the rows, a name is where the map says. -/
theorem Coherent.name_eq_iff (h : e.Coherent) (hroom : e.size ≤ 2 ^ 32)
    (hindex : e.indexOf? name = some index) {i : Nat} (hd : e.decls[i]? = some d) :
    d.name = name ↔ i = index.toNat := by
  have hlt : i < 2 ^ 32 := Nat.lt_of_lt_of_le (List.getElem?_eq_some_iff.mp hd).1 hroom
  constructor
  · rintro rfl
    rw [h.indexed i d hd] at hindex
    rw [← Option.some.inj hindex, UInt32.toNat_ofNat_of_lt' hlt]
  · rintro rfl
    obtain ⟨d', hd', hname⟩ := h.named name index hindex
    rw [← Option.some.inj (hd'.symm.trans hd), hname]

/-- A search among the rows finds what the map leads to. -/
theorem Coherent.row?_view (h : e.Coherent) (hroom : e.size ≤ 2 ^ 32) :
    e.view.row? name = (e.indexOf? name).bind fun index => e.view.rows[index.toNat]? := by
  cases hindex : e.indexOf? name with
  | none =>
    refine List.find?_eq_none.mpr fun r hr => ?_
    obtain ⟨i, hi⟩ := List.mem_iff_getElem?.mp hr
    have hentry := h.indexed i r.decl (getElem?_rows_view.mp hi).1
    simp only [beq_iff_eq]
    rintro rfl
    rw [hindex] at hentry
    cases hentry
  | some index =>
    obtain ⟨d, hd, hname⟩ := h.named name index hindex
    obtain ⟨p, hrow⟩ := h.exists_row hd
    rw [Option.bind_some, hrow]
    obtain ⟨hlt, hget⟩ := List.getElem?_eq_some_iff.mp hrow
    refine List.find?_eq_some_iff_getElem.mpr ⟨by simpa using hname, index.toNat, hlt, hget, ?_⟩
    intro j hj
    have hrowj := getElem?_rows_view.mp (List.getElem?_eq_getElem (Nat.lt_trans hj hlt))
    have hother := mt (h.name_eq_iff hroom hindex hrowj.1).mp (Nat.ne_of_lt hj)
    simpa using hother

/-- A coherent environment answers lookups as its rows do. -/
theorem Coherent.lookup_eq_view (h : e.Coherent) (hroom : e.size ≤ 2 ^ 32) :
    e.lookup name = .ok (e.view.lookup? name) := by
  rw [DeclTable.lookup?, h.row?_view hroom]
  cases hindex : e.indexOf? name with
  | none => exact lookup_of_no_index hindex
  | some index =>
    obtain ⟨d, hd, -, hlookup⟩ := h.lookup_of_index hindex
    obtain ⟨p, hrow⟩ := h.exists_row hd
    rw [hlookup, Option.bind_some, hrow]
    rfl

theorem Coherent.procedure_eq_view (h : e.Coherent) (hroom : e.size ≤ 2 ^ 32) :
    e.procedure name = .ok (e.view.procedure? name) := by
  rw [DeclTable.procedure?, h.row?_view hroom, procedure]
  cases hindex : e.indexOf? name with
  | none => rfl
  | some index =>
    obtain ⟨d, hd, -⟩ := h.named name index hindex
    obtain ⟨p, hrow⟩ := h.exists_row hd
    rw [Option.bind_some, hrow]
    exact element_eq_ok.mpr (getElem?_rows_view.mp hrow).2

theorem Coherent.view_add (h : e.Coherent) (name : String) (arity : UInt32) (kind : DeclKind) :
    (e.add name arity kind).view = e.view.append name arity kind := by
  rw [DeclTable.append, h.size_view, view, Environment.add]
  exact congrArg DeclTable.mk (List.zipWith_append h.slots.symm)

/-- Changing what stands at the index of a name is changing the row that bears the name. -/
theorem Coherent.view_modify (h : e.Coherent) (hroom : e.size ≤ 2 ^ 32)
    (hindex : e.indexOf? name = some index) {decls : List Decl} {procs : List (Option Procedure)}
    {f : DeclTable.Row → DeclTable.Row}
    (hat : ∀ d p, e.decls[index.toNat]? = some d → e.procs[index.toNat]? = some p →
      decls[index.toNat]? = some (f ⟨d, p⟩).decl ∧ procs[index.toNat]? = some (f ⟨d, p⟩).proc)
    (hother : ∀ i, i ≠ index.toNat → decls[i]? = e.decls[i]? ∧ procs[i]? = e.procs[i]?) :
    view { e with decls := decls, procs := procs } = e.view.modify name f := by
  refine congrArg DeclTable.mk (List.ext_getElem? fun i => ?_)
  rw [List.getElem?_map, view, List.getElem?_zipWith, List.getElem?_zipWith]
  by_cases hi : i = index.toNat
  · subst hi
    obtain ⟨d, hd, hname⟩ := h.named name index hindex
    obtain ⟨p, hrow⟩ := h.exists_row hd
    obtain ⟨hd, hp⟩ := getElem?_rows_view.mp hrow
    obtain ⟨hd', hp'⟩ := hat d p hd hp
    have hname : d.name = name := hname
    simp [hd, hp, hd', hp', hname]
  · obtain ⟨hd', hp'⟩ := hother i hi
    rw [hd', hp']
    cases hd : e.decls[i]? with
    | none => rfl
    | some d =>
      have hne : d.name ≠ name := mt (h.name_eq_iff hroom hindex hd).mp hi
      cases e.procs[i]? <;> simp [hne]

section

variable (h : e.Coherent) (hroom : e.size ≤ 2 ^ 32)

include h hroom

theorem Coherent.lookup?_view_of_index (hindex : e.indexOf? name = some index)
    (hd : e.at? index = some d) : e.view.lookup? name = some d := by
  obtain ⟨d', hd', -, hlookup⟩ := h.lookup_of_index hindex
  obtain rfl := Option.some.inj (hd'.symm.trans hd)
  exact (Except.ok.inj (hlookup.symm.trans (h.lookup_eq_view hroom))).symm

theorem Coherent.lookup?_view_of_no_index (hindex : e.indexOf? name = none) :
    e.view.lookup? name = none :=
  (Except.ok.inj ((lookup_of_no_index hindex).symm.trans (h.lookup_eq_view hroom))).symm

/-- Declaring commutes with reading the rows. -/
theorem Coherent.map_view_declare (name : String) (arity : UInt32) (kind : DeclKind) :
    (e.declare name arity kind).map view
      = (e.view.declare name arity kind).mapError .refused := by
  unfold declare DeclTable.declare
  split
  case isFalse => rfl
  case isTrue =>
    cases hindex : e.indexOf? name with
    | none =>
      rw [h.lookup?_view_of_no_index hroom hindex]
      exact congrArg Except.ok (h.view_add name arity kind)
    | some index =>
      obtain ⟨d, hd, -⟩ := h.named name index hindex
      rw [h.lookup?_view_of_index hroom hindex hd]
      rfl

/-- Reserving commutes with reading the rows. -/
theorem Coherent.map_view_reserveOne (name : String) (arity : UInt32) :
    (e.reserveOne name arity).map view = (e.view.reserveOne name arity).mapError .refused := by
  cases hindex : e.indexOf? name with
  | none =>
    rw [reserveOne, DeclTable.reserveOne, hindex, h.lookup?_view_of_no_index hroom hindex]
    exact congrArg Except.ok (h.view_add name arity .compiled)
  | some index =>
    obtain ⟨d, hd, -⟩ := h.named name index hindex
    rw [reserveOne_of_index hindex hd (h.slot_lt hd), DeclTable.reserveOne,
      h.lookup?_view_of_index hroom hindex hd]
    dsimp only
    by_cases hkind : d.kind = .compiled
    · rw [if_pos hkind, if_pos hkind]
      refine congrArg Except.ok (h.view_modify hroom hindex (fun d' p hd' hp => ?_) fun i hi => ?_)
      · obtain rfl := Option.some.inj (hd'.symm.trans hd)
        exact ⟨List.getElem?_set_self (List.getElem?_eq_some_iff.mp hd).1,
          List.getElem?_set_self (h.slot_lt hd)⟩
      · exact ⟨List.getElem?_set_ne hi.symm, List.getElem?_set_ne hi.symm⟩
    · rw [if_neg hkind, if_neg hkind]
      rfl

/-- Installing commutes with reading the rows. -/
theorem Coherent.map_view_installOne (p : Procedure) :
    (e.installOne p).map view = (e.view.installOne p).mapError .refused := by
  cases hindex : e.indexOf? p.name with
  | none =>
    rw [installOne, DeclTable.installOne, hindex, h.lookup?_view_of_no_index hroom hindex]
    rfl
  | some index =>
    obtain ⟨d, hd, -⟩ := h.named p.name index hindex
    rw [installOne_of_index hindex hd (h.slot_lt hd), DeclTable.installOne,
      h.lookup?_view_of_index hroom hindex hd]
    dsimp only
    split
    case isTrue => rfl
    case isFalse =>
      split
      case isTrue => rfl
      case isFalse =>
        refine congrArg Except.ok (h.view_modify hroom hindex (fun d' q hd' _ => ?_) fun i hi => ?_)
        · exact ⟨hd', List.getElem?_set_self (h.slot_lt hd)⟩
        · exact ⟨rfl, List.getElem?_set_ne hi.symm⟩

end

/-- A run of updates of an environment is a run of updates of its rows. -/
theorem Coherent.foldlM_view {α : Type} {f : Environment → α → Except Failure Environment}
    {g : DeclTable → α → Except DeclTable.Refusal DeclTable}
    (hstep : ∀ e a e', f e a = .ok e' → Step e e')
    (hview : ∀ e a, e.Coherent → e.size ≤ 2 ^ 32 → (f e a).map view = (g e.view a).mapError .refused)
    {as : List α} (h : e.Coherent) (hrun : as.foldlM f e = .ok e') (hroom : e'.size ≤ 2 ^ 32) :
    as.foldlM g e.view = .ok e'.view := by
  induction as generalizing e with
  | nil =>
    cases hrun
    rfl
  | cons a as ih =>
    rw [List.foldlM_cons] at hrun ⊢
    obtain ⟨e₁, hfirst, hrest⟩ := bind_eq_ok.mp hrun
    have hsteps : ReflTransGen Step e₁ e' := foldlM_steps hrest hstep
    have hroom₁ : e₁.size ≤ 2 ^ 32 := Nat.le_trans (size_le_of_steps hsteps) hroom
    have hroom₀ : e.size ≤ 2 ^ 32 := Nat.le_trans (hstep _ _ _ hfirst).size_le hroom₁
    have hrow := hview e a h hroom₀
    rw [hfirst] at hrow
    rw [mapError_eq_ok.mp hrow.symm]
    exact ih (h.step (hstep _ _ _ hfirst) hroom₁) hrest

theorem Update.view (hupdate : Update e e') (h : e.Coherent) (hroom : e'.size ≤ 2 ^ 32)
    (hreach : e.view.Reachable) : e'.view.Reachable := by
  have hroom₀ : e.size ≤ 2 ^ 32 := Nat.le_trans (size_le_of_steps hupdate.steps) hroom
  cases hupdate with
  | @declare name arity kind hdeclare =>
    have hrow := h.map_view_declare hroom₀ name arity kind
    rw [hdeclare] at hrow
    exact hreach.declare (mapError_eq_ok.mp hrow.symm)
  | reserve hreserve =>
    exact hreach.reserve (h.foldlM_view (fun _ _ _ => step_of_reserveOne)
      (fun _ w h hroom => h.map_view_reserveOne hroom w.1 w.2) hreserve hroom)
  | install hinstall =>
    exact hreach.install (h.foldlM_view (fun _ _ _ => step_of_installOne)
      (fun _ p h hroom => h.map_view_installOne hroom p) hinstall hroom)

theorem Reachable.view (h : e.Reachable) (hroom : e.size ≤ 2 ^ 32) : e.view.Reachable := by
  induction h with
  | refl => exact .empty
  | tail hbefore hupdate ih =>
    have hroom₀ := Nat.le_trans (size_le_of_steps hupdate.steps) hroom
    exact hupdate.view (Reachable.coherent hbefore hroom₀) hroom (ih hroom₀)

/-! ## Representation -/

/-- What an environment stands for.  Its records, its code slots and its map speak about the same
    declarations, each at one position and under one name. -/
structure Represents (e : Environment) : Prop where
  slots : e.procs.length = e.decls.length
  names_nodup : (e.decls.map (·.name)).Nodup
  index_eq : ∀ (i : Nat) (d : Decl), e.decls[i]? = some d → d.index.toNat = i
  lookup_iff : ∀ (name : String) (i : Nat) (d : Decl), e.decls[i]? = some d →
    (e.lookup name = .ok (some d) ↔ d.name = name)
  /-- A lookup never leads past the end of the records. -/
  lookup_total : ∀ name, e.lookup name = .ok none ∨ ∃ d ∈ e.decls, e.lookup name = .ok (some d)
  kind_eq : ∀ d ∈ e.decls, d.kind = .builtin ∨ d.kind = .native ∨ d.kind = .compiled
  proc_fits : ∀ (i : Nat) (p : Procedure), e.procs[i]? = some (some p) →
    ∃ d, e.decls[i]? = some d ∧ d.kind = .compiled ∧ p.name = d.name ∧ p.arity = d.arity

theorem Coherent.toNat_index (h : e.Coherent) (hroom : e.size ≤ 2 ^ 32) {i : Nat}
    (hd : e.decls[i]? = some d) : (UInt32.ofNat i).toNat = i ∧ d.index.toNat = i := by
  have hlt : i < 2 ^ 32 := Nat.lt_of_lt_of_le (List.getElem?_eq_some_iff.mp hd).1 hroom
  rw [h.index_eq i d hd, and_self]
  exact UInt32.toNat_ofNat_of_lt' hlt

theorem Coherent.names_nodup (h : e.Coherent) (hroom : e.size ≤ 2 ^ 32) :
    (e.decls.map (·.name)).Nodup := by
  refine List.nodup_iff_getElem?_ne_getElem?.mpr fun i j hij hj hsame => ?_
  rw [List.length_map] at hj
  have hi := List.getElem?_eq_getElem (Nat.lt_trans hij hj)
  have hj := List.getElem?_eq_getElem hj
  rw [List.getElem?_map, List.getElem?_map, hi, hj] at hsame
  -- one name has one entry, which is the position of both
  have hname := (h.name_eq_iff hroom (h.indexed j _ hj) hi).mp (Option.some.inj hsame)
  rw [(h.toNat_index hroom hj).1] at hname
  exact Nat.ne_of_lt hij hname

theorem Coherent.represents_of_room (h : e.Coherent) (hroom : e.size ≤ 2 ^ 32) :
    e.Represents where
  slots := h.slots
  names_nodup := h.names_nodup hroom
  index_eq i d hd := (h.toNat_index hroom hd).2
  lookup_iff name i d hd := by
    constructor
    · intro hlookup
      obtain ⟨index, hindex, hd'⟩ := lookup_eq_some hlookup
      obtain ⟨d', hd'', hname⟩ := h.named name index hindex
      rw [← hname, Option.some.inj (hd'.symm.trans hd'')]
    · rintro rfl
      obtain ⟨d', hd', -, hlookup⟩ := h.lookup_of_index (h.indexed i d hd)
      rw [at?, (h.toNat_index hroom hd).1] at hd'
      rw [hlookup, Option.some.inj (hd'.symm.trans hd)]
  lookup_total name := by
    cases hindex : e.indexOf? name with
    | none => exact .inl (lookup_of_no_index hindex)
    | some index =>
      obtain ⟨d, hd, -, hlookup⟩ := h.lookup_of_index hindex
      exact .inr ⟨d, List.mem_of_getElem? hd, hlookup⟩
  kind_eq d hd := by simpa using h.kind_mem d hd
  proc_fits := h.proc_fits

/-- Every environment that updates lead to from the empty one, with repeated names in an update or
    without, is a faithful representation, and answers as the rows of a table that updates lead to.
    In every environment that further updates lead to, each of its names keeps its index and its
    kind, and a builtin or native name keeps its arity. -/
theorem Reachable.represents (h : e.Reachable) (hsize : e.size < 2 ^ 32) :
    e.Represents ∧
      (e.view.Reachable ∧ ∀ name, e.lookup name = .ok (e.view.lookup? name) ∧
        e.procedure name = .ok (e.view.procedure? name)) ∧
      ∀ e', e.Derived e' → ∀ name d, e.lookup name = .ok (some d) →
        ∃ d', e'.lookup name = .ok (some d') ∧ d'.index = d.index ∧ d'.kind = d.kind ∧
          (d.kind = .builtin ∨ d.kind = .native → d'.arity = d.arity) := by
  have hroom := Nat.le_of_lt hsize
  have hcoherent := h.coherent hroom
  refine ⟨hcoherent.represents_of_room hroom, ⟨h.view hroom, fun name =>
    ⟨hcoherent.lookup_eq_view hroom, hcoherent.procedure_eq_view hroom⟩⟩, ?_⟩
  intro e' hderived name d hd
  obtain ⟨d', hd', hindex, hkind, harity⟩ := keeps_of_steps hderived.steps hd
  refine ⟨d', hd', hindex, hkind, fun hfixed => harity ?_⟩
  rcases hfixed with hfixed | hfixed <;> rw [hfixed] <;> decide

/-- A native name, and two compiled ones of which the first was reserved twice at once and has
    code. -/
def workshop : Environment where
  decls := [⟨"add", 2, .native, 0⟩, ⟨"twice", 1, .compiled, 1⟩, ⟨"const", 2, .compiled, 2⟩]
  procs := [none, some ⟨"twice", 1, [.push 0, .ret]⟩, none]
  byName := [("const", 2), ("twice", 1), ("add", 0)]

theorem reachable_workshop : workshop.Reachable := by
  have hadd : Environment.empty.declare "add" 2 .native
      = .ok ⟨[⟨"add", 2, .native, 0⟩], [none], [("add", 0)]⟩ := rfl
  have hreserve : (⟨[⟨"add", 2, .native, 0⟩], [none], [("add", 0)]⟩ : Environment).reserve
      [("twice", 4), ("const", 2), ("twice", 1)]
      = .ok { workshop with procs := [none, none, none] } := rfl
  have hinstall : ({ workshop with procs := [none, none, none] } : Environment).install
      [⟨"twice", 1, [.ret]⟩, ⟨"twice", 1, [.push 0, .ret]⟩] = .ok workshop := rfl
  exact .tail (.tail (.single (.declare hadd)) (.reserve hreserve)) (.install hinstall)

/-- The same names after the first compiled one was reserved with another arity and a builtin was
    added. -/
theorem workshop_represents : workshop.Represents ∧ ∃ e d, workshop.Derived e ∧
    e.procedure "twice" = .ok none ∧ e.size = 4 ∧
    e.lookup "twice" = .ok (some d) ∧ d.arity = 3 ∧ d.index = 1 ∧ d.kind = .compiled := by
  obtain ⟨hrep, -, hstable⟩ := reachable_workshop.represents (by decide)
  have hreserve : workshop.reserve [("twice", 3)] = .ok
      ⟨[⟨"add", 2, .native, 0⟩, ⟨"twice", 3, .compiled, 1⟩, ⟨"const", 2, .compiled, 2⟩],
        [none, none, none], workshop.byName⟩ := rfl
  have hderived := ReflTransGen.tail (.single (Update.reserve hreserve))
    (@Update.declare _ _ "mul" 2 .builtin rfl)
  have hlookup : workshop.lookup "twice" = .ok (some ⟨"twice", 1, .compiled, 1⟩) := rfl
  obtain ⟨d, hd, hindex, hkind, -⟩ := hstable _ hderived "twice" _ hlookup
  refine ⟨hrep, _, d, hderived, rfl, rfl, hd, ?_, hindex, hkind⟩
  exact (Option.some.inj (Except.ok.inj hd)) ▸ rfl

end TermVM.Environment
