/-
  TermVM.Proofs.DeclTable.Reachable

  The tables that updates lead to.

  An update appends one record, whose index is its position, or changes a row
  in place without touching its name, kind or index.  So in every reachable
  table the record at a position has that position as its index, as far as an
  index of 32 bits can say, and is of one of the three kinds in use.  Resolving
  a name and then following the index of the record leads back to the record.
-/
import Mathlib.Algebra.Group.Nat.Defs
import TermVM.DeclTable
import TermVM.Proofs.Result

namespace TermVM.DeclTable

/-- The tables that successful updates lead to from the empty one. -/
inductive Reachable : DeclTable → Prop where
  | empty : Reachable .empty
  | declare {t t' : DeclTable} {name : String} {arity : UInt32} {kind : DeclKind}
      (h : Reachable t) (ht : t.declare name arity kind = .ok t') : Reachable t'
  | reserve {t t' : DeclTable} {wanted : List (String × UInt32)}
      (h : Reachable t) (ht : t.reserve wanted = .ok t') : Reachable t'
  | install {t t' : DeclTable} {procs : List Procedure}
      (h : Reachable t) (ht : t.install procs = .ok t') : Reachable t'

/-- What updates preserve: the record at a position has that position as its index, and its kind
    is one in use. -/
structure WellFormed (t : DeclTable) : Prop where
  index_eq : ∀ i r, t.rows[i]? = some r → r.decl.index = UInt32.ofNat i
  kind_mem : ∀ r ∈ t.rows, r.decl.kind ∈ [.builtin, .native, .compiled]

/-! ## Updates -/

theorem wellFormed_empty : WellFormed .empty where
  index_eq i r h := by simp [empty] at h
  kind_mem r h := by simp [empty] at h

theorem WellFormed.append {t : DeclTable} (h : t.WellFormed) (name : String) (arity : UInt32)
    {kind : DeclKind} (hkind : kind ∈ [.builtin, .native, .compiled]) :
    (t.append name arity kind).WellFormed where
  index_eq i r hr := by
    simp only [DeclTable.append, List.getElem?_append] at hr
    split at hr
    · exact h.index_eq i r hr
    · rw [List.getElem?_singleton] at hr
      split at hr
      · cases hr
        have hpos : i = t.size := by
          unfold size
          omega
        rw [hpos]
      · cases hr
  kind_mem r hr := by
    rcases List.mem_append.mp hr with hr | hr
    · exact h.kind_mem r hr
    · rw [List.mem_singleton.mp hr]
      exact hkind

theorem WellFormed.modify {t : DeclTable} (h : t.WellFormed) (name : String) {f : Row → Row}
    (hindex : ∀ r, (f r).decl.index = r.decl.index) (hkind : ∀ r, (f r).decl.kind = r.decl.kind) :
    (t.modify name f).WellFormed where
  index_eq i r hr := by
    simp only [DeclTable.modify, List.getElem?_map, Option.map_eq_some_iff] at hr
    obtain ⟨r₀, hr₀, rfl⟩ := hr
    split
    · rw [hindex, h.index_eq i r₀ hr₀]
    · exact h.index_eq i r₀ hr₀
  kind_mem r hr := by
    simp only [DeclTable.modify, List.mem_map] at hr
    obtain ⟨r₀, hr₀, rfl⟩ := hr
    split
    · rw [hkind]
      exact h.kind_mem r₀ hr₀
    · exact h.kind_mem r₀ hr₀

theorem WellFormed.declare {t t' : DeclTable} {name : String} {arity : UInt32} {kind : DeclKind}
    (h : t.WellFormed) (ht : t.declare name arity kind = .ok t') : t'.WellFormed := by
  unfold DeclTable.declare at ht
  split at ht
  case isFalse => cases ht
  case isTrue hkind =>
    split at ht
    · cases ht
    · cases ht
      refine h.append name arity ?_
      rcases hkind with rfl | rfl <;> simp

theorem WellFormed.reserveOne {t t' : DeclTable} {name : String} {arity : UInt32}
    (h : t.WellFormed) (ht : t.reserveOne name arity = .ok t') : t'.WellFormed := by
  unfold DeclTable.reserveOne at ht
  split at ht
  · cases ht
    exact h.append name arity (by simp)
  · split at ht
    · cases ht
      exact h.modify name (fun _ => rfl) (fun _ => rfl)
    · cases ht

theorem WellFormed.installOne {t t' : DeclTable} {p : Procedure} (h : t.WellFormed)
    (ht : t.installOne p = .ok t') : t'.WellFormed := by
  unfold DeclTable.installOne at ht
  split at ht
  · cases ht
  · split at ht
    · cases ht
    · split at ht
      · cases ht
      · cases ht
        exact h.modify p.name (fun _ => rfl) (fun _ => rfl)

theorem Reachable.wellFormed {t : DeclTable} (h : Reachable t) : t.WellFormed := by
  induction h with
  | empty => exact wellFormed_empty
  | declare h ht ih => exact ih.declare ht
  | reserve h ht ih => exact Result.foldlM_invariant (fun _ _ _ ht h => h.reserveOne ht) ih ht
  | install h ht ih => exact Result.foldlM_invariant (fun _ _ _ ht h => h.installOne ht) ih ht

/-! ## Lookups -/

variable {t : DeclTable} {name : String} {d : Decl}

theorem row_of_lookup? (h : t.lookup? name = some d) :
    ∃ r ∈ t.rows, r.decl = d ∧ d.name = name := by
  obtain ⟨r, hr, rfl⟩ := Option.map_eq_some_iff.mp h
  exact ⟨r, List.mem_of_find?_eq_some hr, rfl, by simpa using List.find?_some hr⟩

/-- In a table whose indices fit into 32 bits, the index of a record leads to the record. -/
theorem WellFormed.at?_index (hwf : t.WellFormed) (hsize : t.size ≤ 2 ^ 32)
    (h : t.lookup? name = some d) : t.at? d.index = some d := by
  obtain ⟨r, hr, rfl, -⟩ := row_of_lookup? h
  obtain ⟨i, hi⟩ := List.getElem?_of_mem hr
  have hlt : i < 2 ^ 32 := by
    have := (List.getElem?_eq_some_iff.mp hi).1
    unfold size at hsize
    omega
  rw [at?, hwf.index_eq i r hi, UInt32.toNat_ofNat_of_lt' hlt, hi]
  rfl

theorem WellFormed.kind_of_lookup? (hwf : t.WellFormed) (h : t.lookup? name = some d) :
    d.kind ∈ [.builtin, .native, .compiled] := by
  obtain ⟨r, hr, rfl, -⟩ := row_of_lookup? h
  exact hwf.kind_mem r hr

end TermVM.DeclTable
