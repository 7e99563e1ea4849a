/-
  TermVM.Proofs.Analyzers

  What a registry of case analyzers answers.

  Analyzers of distinct names are all registered, whatever their order, and the
  frozen registry answers a name with the one analyzer that bears it.  A name
  that comes twice is refused the second time.
-/
import Mathlib.Data.String.Basic
import TermVM.Analyzers
import TermVM.Proofs.Result

namespace TermVM.Analyzers

/-! ## Order -/

/-- Entries in the order of their names, none of which stands twice. -/
def Ordered (es : List Analyzer) : Prop :=
  es.Pairwise fun a b => a.name < b.name

theorem perm_insertSorted (e : Analyzer) (es : List Analyzer) :
    (insertSorted e es).Perm (e :: es) := by
  induction es with
  | nil => exact List.Perm.refl _
  | cons x es ih =>
    unfold insertSorted
    split
    · exact List.Perm.refl _
    · exact (ih.cons x).trans (List.Perm.swap e x es)

theorem Ordered.insertSorted {e : Analyzer} {es : List Analyzer} (h : Ordered es)
    (hnew : e.name ∉ es.map (·.name)) : Ordered (insertSorted e es) := by
  induction es with
  | nil => exact List.pairwise_singleton _ _
  | cons x es ih =>
    obtain ⟨hfirst, hrest⟩ := List.pairwise_cons.mp h
    rw [List.map_cons, List.mem_cons, not_or] at hnew
    unfold Analyzers.insertSorted
    split
    next hlt =>
      refine List.pairwise_cons.mpr ⟨fun y hy => ?_, h⟩
      rcases List.mem_cons.mp hy with rfl | hy
      · exact hlt
      · exact lt_trans hlt (hfirst y hy)
    next hge =>
      have hlt : x.name < e.name := lt_of_le_of_ne (not_lt.mp hge) (Ne.symm hnew.1)
      refine List.pairwise_cons.mpr ⟨fun y hy => ?_, ih hrest hnew.2⟩
      rcases List.mem_cons.mp ((perm_insertSorted e es).mem_iff.mp hy) with rfl | hy
      · exact hlt
      · exact hfirst y hy

/-! ## Answers -/

variable {t : Analyzers}

theorem lookup?_eq_none_iff {name : String} :
    t.lookup? name = none ↔ name ∉ t.entries.map (·.name) := by
  simp [lookup?]

theorem lookup?_eq_some_iff (hnodup : (t.entries.map (·.name)).Nodup) {name : String}
    {a : Analyzer} : t.lookup? name = some a ↔ a ∈ t.entries ∧ a.name = name := by
  constructor
  · intro h
    exact ⟨List.mem_of_find?_eq_some h, by simpa using List.find?_some h⟩
  · rintro ⟨ha, rfl⟩
    exact Result.find?_of_nodup hnodup ha

/-! ## Registration -/

/-- An analyzer that can be registered: it does not take over the natural numbers, and it tells
    alternatives apart. -/
def Registrable (a : Analyzer) : Prop :=
  a.name ≠ Term.natCasesOn ∧ a.alternatives ≠ 0

/-- An open registry that holds some analyzers and no others. -/
structure Enrolls (es : List Analyzer) (t : Analyzers) : Prop where
  frozen : t.frozen = false
  perm : t.entries.Perm es
  ordered : Ordered t.entries

theorem Enrolls.empty : Enrolls [] .empty :=
  ⟨rfl, List.Perm.refl _, List.Pairwise.nil⟩

theorem Enrolls.mem_names {es : List Analyzer} (h : Enrolls es t) {name : String} :
    name ∈ t.entries.map (·.name) ↔ name ∈ es.map (·.name) :=
  (h.perm.map _).mem_iff

theorem collects_register :
    Result.Collects (fun t e => register t e.name e.index e.alternatives) (·.name)
      (fun e => .duplicate e.name) Registrable Enrolls where
  add := by
    intro es t e hfits ht hnew
    have hnew : e.name ∉ t.entries.map (·.name) := fun h => hnew (ht.mem_names.mp h)
    have hok : t.register e.name e.index e.alternatives
        = .ok { t with entries := insertSorted e t.entries } := by
      simp [register, ht.frozen, hfits.1, hfits.2, lookup?_eq_none_iff.mpr hnew]
    refine ⟨_, hok, ht.frozen, ?_, ht.ordered.insertSorted hnew⟩
    exact (perm_insertSorted e _).trans
      ((ht.perm.cons e).trans (List.perm_append_singleton e es).symm)
  refuse := by
    intro es t e hfits ht hseen
    obtain ⟨a, ha⟩ : ∃ a, t.lookup? e.name = some a := by
      refine Option.ne_none_iff_exists'.mp fun hnone => ?_
      exact lookup?_eq_none_iff.mp hnone (ht.mem_names.mpr hseen)
    simp [register, ht.frozen, hfits.1, hfits.2, ha]

/-- A frozen registry that answers with some analyzers and no others, and lists them by name. -/
structure Registers (es : List Analyzer) (t : Analyzers) : Prop where
  frozen : t.frozen = true
  lookup?_iff : ∀ name a, t.lookup? name = some a ↔ a ∈ es ∧ a.name = name
  perm : t.entries.Perm es
  ordered : Ordered t.entries

/-- Analyzers of distinct names are all registered. -/
theorem ofList_of_nodup {es : List Analyzer} (hfits : ∀ e ∈ es, Registrable e)
    (hnodup : (es.map (·.name)).Nodup) : ∃ t, ofList es = .ok t ∧ Registers es t := by
  obtain ⟨t, hfold, ht⟩ := collects_register.foldlM_of_nodup hfits Enrolls.empty hnodup
  rw [List.nil_append] at ht
  have hentries : (t.entries.map (·.name)).Nodup := (ht.perm.map _).nodup_iff.mpr hnodup
  refine ⟨t.freeze, ?_, rfl, fun name a => ?_, ht.perm, ht.ordered⟩
  · rw [ofList, hfold]
    rfl
  · rw [← ht.perm.mem_iff]
    exact lookup?_eq_some_iff hentries

/-- The first analyzer whose name was there before is refused. -/
theorem ofList_of_not_nodup {es : List Analyzer} (hfits : ∀ e ∈ es, Registrable e)
    (hnodup : ¬(es.map (·.name)).Nodup) :
    ∃ before e after, es = before ++ e :: after ∧ (before.map (·.name)).Nodup ∧
      e.name ∈ before.map (·.name) ∧ ofList es = .error (.duplicate e.name) := by
  obtain ⟨before, e, after, rfl, hdistinct, he, hfold⟩ :=
    collects_register.foldlM_of_not_nodup hfits Enrolls.empty List.nodup_nil hnodup
  refine ⟨before, e, after, rfl, hdistinct, he, ?_⟩
  rw [ofList, hfold]
  rfl

end TermVM.Analyzers
