/-
  TermVM.Proofs.DeclTable.Stability

  The rows of a table through its updates.

  Every update is a sequence of changes of three kinds (`Change`): a new name
  gets the next position, a compiled name is reserved again and loses its code,
  or code is attached to a compiled name.  All that is said about updates here
  is proved for one change and carried along sequences: names are distinct, and
  code fits the record it is attached to.
-/
import Mathlib.Logic.Relation
import TermVM.Proofs.DeclTable.Reachable

namespace TermVM.DeclTable

open Relation

variable {t t' : DeclTable}

/-! ## Changes -/

/-- One change of a table. -/
inductive Change (t : DeclTable) : DeclTable → Prop where
  /-- A name that the table does not have gets the next position. -/
  | added {name : String} {arity : UInt32} {kind : DeclKind} (hnew : t.lookup? name = none)
      (hkind : kind ∈ [.builtin, .native, .compiled]) : Change t (t.append name arity kind)
  /-- A compiled name takes an arity and loses its code. -/
  | reservedAgain {name : String} {arity : UInt32} {d : Decl} (hd : t.lookup? name = some d)
      (hkind : d.kind = .compiled) :
      Change t (t.modify name fun r => { decl := { r.decl with arity := arity }, proc := none })
  /-- A compiled name gets code of its arity. -/
  | installed {p : Procedure} {d : Decl} (hd : t.lookup? p.name = some d)
      (hkind : d.kind = .compiled) (harity : d.arity = p.arity) :
      Change t (t.modify p.name fun r => { r with proc := some p })

theorem change_of_declare {name : String} {arity : UInt32} {kind : DeclKind}
    (h : t.declare name arity kind = .ok t') : Change t t' := by
  unfold declare at h
  split at h
  case isFalse => cases h
  case isTrue hkind =>
    split at h
    · cases h
    · next hnew =>
      cases h
      refine .added hnew ?_
      rcases hkind with rfl | rfl <;> simp

/-- What reserving a name does: a new name gets the next position, a compiled one takes the arity
    and loses its code. -/
theorem reserveOne_eq_ok {name : String} {arity : UInt32} :
    t.reserveOne name arity = .ok t' ↔
      (t.lookup? name = none ∧ t' = t.append name arity .compiled) ∨
        ∃ d, t.lookup? name = some d ∧ d.kind = .compiled ∧
          t' = t.modify name fun r => { decl := { r.decl with arity := arity }, proc := none } := by
  unfold reserveOne
  cases t.lookup? name with
  | none => simp [eq_comm]
  | some d =>
    by_cases hkind : d.kind = .compiled
    · simp [hkind, eq_comm]
    · simp [hkind]

/-- What installing code does: the compiled name it is for gets it. -/
theorem installOne_eq_ok {p : Procedure} :
    t.installOne p = .ok t' ↔
      ∃ d, t.lookup? p.name = some d ∧ d.kind = .compiled ∧ d.arity = p.arity ∧
        t' = t.modify p.name fun r => { r with proc := some p } := by
  unfold installOne
  cases t.lookup? p.name with
  | none => simp
  | some d =>
    by_cases hkind : d.kind = .compiled
    · by_cases harity : d.arity = p.arity
      · simp [hkind, harity, eq_comm]
      · simp [hkind, harity]
    · simp [hkind]

theorem change_of_reserveOne {name : String} {arity : UInt32}
    (h : t.reserveOne name arity = .ok t') : Change t t' := by
  obtain ⟨hnew, rfl⟩ | ⟨d, hd, hkind, rfl⟩ := reserveOne_eq_ok.mp h
  · exact .added hnew (by simp)
  · exact .reservedAgain hd hkind

theorem change_of_installOne {p : Procedure} (h : t.installOne p = .ok t') : Change t t' := by
  obtain ⟨d, hd, hkind, harity, rfl⟩ := installOne_eq_ok.mp h
  exact .installed hd hkind harity

theorem changes_of_reserve {wanted : List (String × UInt32)} (h : t.reserve wanted = .ok t') :
    ReflTransGen Change t t' :=
  Result.foldlM_steps h fun _ _ _ => change_of_reserveOne

theorem changes_of_install {procs : List Procedure} (h : t.install procs = .ok t') :
    ReflTransGen Change t t' :=
  Result.foldlM_steps h fun _ _ _ => change_of_installOne

theorem Reachable.changes (h : Reachable t) : ReflTransGen Change .empty t := by
  induction h with
  | empty => exact .refl
  | declare _ ht ih => exact ih.tail (change_of_declare ht)
  | reserve _ ht ih => exact ih.trans (changes_of_reserve ht)
  | install _ ht ih => exact ih.trans (changes_of_install ht)

/-! ## Rows and names -/

/-- The names of a table in index order. -/
def names (t : DeclTable) : List String :=
  t.decls.map (·.name)

theorem names_eq (t : DeclTable) : t.names = t.rows.map (·.decl.name) := by
  simp [names, decls]

theorem names_append (name : String) (arity : UInt32) (kind : DeclKind) :
    (t.append name arity kind).names = t.names ++ [name] := by
  simp [names_eq, append]

/-- A change of a row that keeps its name keeps all names. -/
theorem names_modify {name : String} {f : Row → Row}
    (hf : ∀ r, (f r).decl.name = r.decl.name) : (t.modify name f).names = t.names := by
  simp only [names_eq, modify, List.map_map]
  refine List.map_congr_left fun r _ => ?_
  simp only [Function.comp_apply]
  split
  · exact hf r
  · rfl

theorem lookup?_eq_none_iff {name : String} : t.lookup? name = none ↔ name ∉ t.names := by
  simp [lookup?, row?, names_eq]

/-- A name that stands at one position only leads to the row there. -/
theorem row?_of_mem (hnodup : t.names.Nodup) {r : Row} (hr : r ∈ t.rows) :
    t.row? r.decl.name = some r := by
  rw [names_eq] at hnodup
  exact Result.find?_of_nodup hnodup hr

/-- A change of rows that keeps names is seen through lookups. -/
theorem row?_modify {name : String} {f : Row → Row} (hf : ∀ r, (f r).decl.name = r.decl.name)
    (n : String) :
    (t.modify name f).row? n = (t.row? n).map fun r => if r.decl.name == name then f r else r := by
  unfold row? modify
  rw [List.find?_map]
  congr 2
  funext r
  simp only [Function.comp_apply]
  split
  · rw [hf]
  · rfl

/-! ## Records and their code -/

/-- What changes preserve: names are distinct, and code is attached to compiled records only, with
    their name and arity. -/
structure Coherent (t : DeclTable) : Prop where
  names_nodup : t.names.Nodup
  proc_fits : ∀ r ∈ t.rows, ∀ p, r.proc = some p →
    r.decl.kind = .compiled ∧ p.name = r.decl.name ∧ p.arity = r.decl.arity

theorem coherent_empty : Coherent .empty where
  names_nodup := List.nodup_nil
  proc_fits _ hr := absurd hr List.not_mem_nil

theorem Coherent.change (h : t.Coherent) (hchange : Change t t') : t'.Coherent := by
  cases hchange with
  | @added name arity kind hnew hkind =>
    constructor
    · rw [names_append]
      have hfresh := lookup?_eq_none_iff.mp hnew
      exact List.nodup_append.mpr ⟨h.names_nodup, by simp,
        fun a ha b hb hab => hfresh (List.mem_singleton.mp hb ▸ hab ▸ ha)⟩
    · intro r hr p hp
      rcases List.mem_append.mp hr with hr | hr
      · exact h.proc_fits r hr p hp
      · -- the new row has no code
        rw [List.mem_singleton.mp hr] at hp
        cases hp
  | reservedAgain hd hkind =>
    constructor
    · rw [names_modify]
      · exact h.names_nodup
      · exact fun _ => rfl
    · intro r hr p hp
      obtain ⟨r₀, hr₀, rfl⟩ := List.mem_map.mp hr
      split at hp
      · cases hp
      · next hname =>
        rw [if_neg hname]
        exact h.proc_fits r₀ hr₀ p hp
  | @installed q d hd hkind harity =>
    constructor
    · rw [names_modify]
      · exact h.names_nodup
      · exact fun _ => rfl
    · intro r hr p hp
      obtain ⟨r₀, hr₀, rfl⟩ := List.mem_map.mp hr
      split at hp
      · next hname =>
        rw [if_pos hname]
        -- the changed row is the one whose record was compared with the code
        have hname : r₀.decl.name = q.name := by simpa using hname
        have hrow := row?_of_mem h.names_nodup hr₀
        have hdecl : r₀.decl = d := by
          rw [lookup?, ← hname, hrow] at hd
          exact Option.some.inj hd
        obtain rfl : q = p := Option.some.inj hp
        exact ⟨hdecl ▸ hkind, hname.symm, by rw [← harity, ← hdecl]⟩
      · next hname =>
        rw [if_neg hname]
        exact h.proc_fits r₀ hr₀ p hp

theorem Coherent.changes (h : t.Coherent) (hchanges : ReflTransGen Change t t') : t'.Coherent := by
  induction hchanges with
  | refl => exact h
  | tail _ hchange ih => exact ih.change hchange

theorem Reachable.coherent (h : Reachable t) : t.Coherent :=
  coherent_empty.changes h.changes

end TermVM.DeclTable
