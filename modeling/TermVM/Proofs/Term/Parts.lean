/-
  TermVM.Proofs.Term.Parts

  The parts of a term.

  `children` are the terms right below a term, in the order in which they
  travel; a quotation has its content below it.  What is said about all parts
  of a term, and about its height, can be said about the term and its children
  alone, so that proofs go from the children of a term to the term and need not
  look at the lists that hold them.
-/
import TermVM.Proofs.Term.Induction

namespace TermVM.Term

variable {ν : Type}

/-- The terms right below a term. -/
def children : Term ν → List (Term ν)
  | app fn args => fn :: args
  | lam _ body => [body]
  | pi _ domain body => [domain, body]
  | letIn bindings body => bindings.map (·.2) ++ [body]
  | quote body => [body]
  | ann _ body => [body]
  | foreign _ args => args
  | _ => []

/-- Induction on terms: a property holds of a term when it holds of its children. -/
@[elab_as_elim]
theorem childInd {motive : Term ν → Prop} (step : ∀ t, (∀ u ∈ t.children, motive u) → motive t)
    (t : Term ν) : motive t := by
  induction t using Term.ind with
  | app fn args ihfn ihargs => exact step _ (List.forall_mem_cons.mpr ⟨ihfn, ihargs⟩)
  | lam binder body ih => exact step _ (List.forall_mem_singleton.mpr ih)
  | pi binder domain body ihdomain ihbody =>
    exact step _ (List.forall_mem_cons.mpr ⟨ihdomain, List.forall_mem_singleton.mpr ihbody⟩)
  | letIn bindings body ihbindings ihbody =>
    refine step _ (List.forall_mem_append.mpr ⟨?_, List.forall_mem_singleton.mpr ihbody⟩)
    exact List.forall_mem_map.mpr ihbindings
  | quote body ih => exact step _ (List.forall_mem_singleton.mpr ih)
  | ann name body ih => exact step _ (List.forall_mem_singleton.mpr ih)
  | foreign name args ih => exact step _ ih
  | _ => exact step _ (by simp [children])

/-! ## All parts -/

mutual

/-- A term and everything below it. -/
def parts : Term ν → List (Term ν)
  | app fn args => app fn args :: (fn.parts ++ partsOfArgs args)
  | lam binder body => lam binder body :: body.parts
  | pi binder domain body => pi binder domain body :: (domain.parts ++ body.parts)
  | letIn bindings body => letIn bindings body :: (partsOfBindings bindings ++ body.parts)
  | quote body => quote body :: body.parts
  | ann name body => ann name body :: body.parts
  | foreign name args => foreign name args :: partsOfArgs args
  | t => [t]

/-- The parts of a list of terms. -/
def partsOfArgs : List (Term ν) → List (Term ν)
  | [] => []
  | a :: as => a.parts ++ partsOfArgs as

/-- The parts of the values of a list of bindings. -/
def partsOfBindings : List (ν × Term ν) → List (Term ν)
  | [] => []
  | (_, v) :: bs => v.parts ++ partsOfBindings bs

end

theorem partsOfArgs_eq_flatMap (as : List (Term ν)) : partsOfArgs as = as.flatMap parts := by
  induction as with
  | nil => rfl
  | cons a as ih => rw [partsOfArgs, List.flatMap_cons, ih]

theorem partsOfBindings_eq_flatMap (bs : List (ν × Term ν)) :
    partsOfBindings bs = (bs.map (·.2)).flatMap parts := by
  induction bs with
  | nil => rfl
  | cons b bs ih => rw [partsOfBindings, List.map_cons, List.flatMap_cons, ih]

theorem parts_eq (t : Term ν) : t.parts = t :: t.children.flatMap parts := by
  cases t <;> simp [parts, children, partsOfArgs_eq_flatMap, partsOfBindings_eq_flatMap]

/-- What holds of all parts holds of the term and of all parts of its children. -/
theorem forall_parts {P : Term ν → Prop} {t : Term ν} :
    (∀ u ∈ t.parts, P u) ↔ P t ∧ ∀ c ∈ t.children, ∀ u ∈ c.parts, P u := by
  rw [parts_eq, List.forall_mem_cons, List.forall_mem_flatMap]

theorem mem_parts {t u : Term ν} : u ∈ t.parts ↔ u = t ∨ ∃ c ∈ t.children, u ∈ c.parts := by
  rw [parts_eq, List.mem_cons, List.mem_flatMap]

theorem mem_parts_self (t : Term ν) : t ∈ t.parts :=
  mem_parts.mpr (.inl rfl)

theorem mem_parts_of_child {t c u : Term ν} (hc : c ∈ t.children) (hu : u ∈ c.parts) :
    u ∈ t.parts :=
  mem_parts.mpr (.inr ⟨c, hc, hu⟩)

theorem parts_subset_of_mem {t u : Term ν} (h : u ∈ t.parts) : u.parts ⊆ t.parts := by
  induction t using childInd with
  | step t ih =>
    rcases mem_parts.mp h with rfl | ⟨c, hc, hu⟩
    · exact List.Subset.refl _
    · exact fun v hv => mem_parts_of_child hc (ih c hc hu hv)

theorem isCompleteArgs_eq_all (as : List (Term ν)) : isCompleteArgs as = as.all isComplete := by
  induction as with
  | nil => rfl
  | cons a as ih => rw [isCompleteArgs, List.all_cons, ih]

theorem isCompleteBindings_eq_all (bs : List (ν × Term ν)) :
    isCompleteBindings bs = (bs.map (·.2)).all isComplete := by
  induction bs with
  | nil => rfl
  | cons b bs ih => rw [isCompleteBindings, List.map_cons, List.all_cons, ih]

theorem isComplete_iff {t : Term ν} :
    t.isComplete = true ↔ t ≠ .absent ∧ ∀ u ∈ t.children, u.isComplete = true := by
  cases t with
  | letIn bindings body =>
    rw [isComplete, isCompleteBindings_eq_all, Bool.and_eq_true, List.all_eq_true, children,
      List.forall_mem_append, List.forall_mem_singleton]
    simp
  | _ => simp [isComplete, children, isCompleteArgs_eq_all]

/-! ## Height -/

mutual

/-- The number of nodes on the longest way down; a quotation is entered. -/
def height : Term ν → Nat
  | app fn args => max fn.height (heightOfArgs args) + 1
  | lam _ body => body.height + 1
  | pi _ domain body => max domain.height body.height + 1
  | letIn bindings body => max (heightOfBindings bindings) body.height + 1
  | quote body => body.height + 1
  | ann _ body => body.height + 1
  | foreign _ args => heightOfArgs args + 1
  | _ => 1

/-- The largest height in a list of terms. -/
def heightOfArgs : List (Term ν) → Nat
  | [] => 0
  | a :: as => max a.height (heightOfArgs as)

/-- The largest height of a bound value. -/
def heightOfBindings : List (ν × Term ν) → Nat
  | [] => 0
  | (_, v) :: bs => max v.height (heightOfBindings bs)

end

theorem heightOfArgs_le_iff {as : List (Term ν)} {n : Nat} :
    heightOfArgs as ≤ n ↔ ∀ a ∈ as, a.height ≤ n := by
  induction as with
  | nil => simp [heightOfArgs]
  | cons a as ih => rw [heightOfArgs, Nat.max_le, List.forall_mem_cons, ih]

theorem heightOfBindings_le_iff {bs : List (ν × Term ν)} {n : Nat} :
    heightOfBindings bs ≤ n ↔ ∀ v ∈ bs.map (·.2), v.height ≤ n := by
  induction bs with
  | nil => simp [heightOfBindings]
  | cons b bs ih => rw [heightOfBindings, Nat.max_le, List.map_cons, List.forall_mem_cons, ih]

theorem height_le_succ_iff {t : Term ν} {n : Nat} :
    t.height ≤ n + 1 ↔ ∀ u ∈ t.children, u.height ≤ n := by
  cases t with
  | app fn args =>
    rw [height, Nat.add_le_add_iff_right, Nat.max_le, heightOfArgs_le_iff, children,
      List.forall_mem_cons]
  | pi binder domain body =>
    rw [height, Nat.add_le_add_iff_right, Nat.max_le, children, List.forall_mem_cons,
      List.forall_mem_singleton]
  | letIn bindings body =>
    rw [height, Nat.add_le_add_iff_right, Nat.max_le, heightOfBindings_le_iff, children,
      List.forall_mem_append, List.forall_mem_singleton]
  | foreign name args => rw [height, Nat.add_le_add_iff_right, heightOfArgs_le_iff, children]
  | lam binder body | quote body | ann name body =>
    rw [height, Nat.add_le_add_iff_right, children, List.forall_mem_singleton]
  | _ => simp [height, children]

theorem height_le_of_mem_parts {t u : Term ν} (h : u ∈ t.parts) : u.height ≤ t.height := by
  induction t using childInd with
  | step t ih =>
    rcases mem_parts.mp h with rfl | ⟨c, hc, hu⟩
    · exact Nat.le_refl _
    · have hbelow : c.height ≤ t.height := height_le_succ_iff.mp (Nat.le_succ _) c hc
      exact Nat.le_trans (ih c hc hu) hbelow

theorem height_pos (t : Term ν) : 0 < t.height := by
  cases t <;> simp [height]

end TermVM.Term
