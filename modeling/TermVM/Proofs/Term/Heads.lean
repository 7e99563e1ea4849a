/-
  TermVM.Proofs.Term.Heads

  The constants that a term applies.

  Code generation asks of a constant whether it heads a case analysis only
  where the constant is applied.  Flattening makes no new application of a
  constant: the head of a collapsed chain was the head of its innermost link.
-/
import TermVM.Codegen
import TermVM.Proofs.Term.Flatten

namespace TermVM.Term

/-- The constant that a term is, if it is one. -/
def constant? : Term → Option (String × Marker)
  | const name marker => some (name, marker)
  | _ => none

mutual

/-- The constants at the heads of applications; quotations are data and are not entered. -/
def heads : Term → List (String × Marker)
  | app fn args => fn.constant?.toList ++ (fn.heads ++ headsOfArgs args)
  | lam _ body => body.heads
  | pi _ domain body => domain.heads ++ body.heads
  | letIn bindings body => headsOfBindings bindings ++ body.heads
  | ann _ body => body.heads
  | foreign _ args => headsOfArgs args
  | _ => []

/-- The constants that a list of terms applies. -/
def headsOfArgs : List Term → List (String × Marker)
  | [] => []
  | a :: as => a.heads ++ headsOfArgs as

/-- The constants that the values of bindings apply. -/
def headsOfBindings : List (String × Term) → List (String × Marker)
  | [] => []
  | (_, v) :: bs => v.heads ++ headsOfBindings bs

end

theorem headsOfArgs_eq_flatMap (as : List Term) : headsOfArgs as = as.flatMap heads := by
  induction as with
  | nil => rfl
  | cons a as ih => simp [headsOfArgs, ih]

theorem headsOfBindings_eq_flatMap (bs : List (String × Term)) :
    headsOfBindings bs = bs.flatMap (·.2.heads) := by
  induction bs with
  | nil => rfl
  | cons b bs ih => simp [headsOfBindings, ih]

theorem mem_headsOfArgs {as : List Term} {c : String × Marker} :
    c ∈ headsOfArgs as ↔ ∃ a ∈ as, c ∈ a.heads := by
  rw [headsOfArgs_eq_flatMap, List.mem_flatMap]

theorem mem_headsOfBindings {bs : List (String × Term)} {c : String × Marker} :
    c ∈ headsOfBindings bs ↔ ∃ b ∈ bs, c ∈ b.2.heads := by
  rw [headsOfBindings_eq_flatMap, List.mem_flatMap]

/-! ## Flattening -/

/-- A constant becomes a head when arguments are pending for it. -/
theorem mem_heads_withArgs {t : Term} {pending : Option (List Term)} {c : String × Marker} :
    c ∈ (t.withArgs pending).heads ↔
      (pending.isSome = true ∧ t.constant? = some c) ∨ c ∈ t.heads ∨
        c ∈ headsOfArgs (pending.getD []) := by
  cases pending with
  | none => simp [withArgs, headsOfArgs]
  | some as => simp [withArgs, heads]

theorem mem_headsOfArgs_flattenArgs {quotes : Bool} {as : List Term} {c : String × Marker}
    (h : ∀ a ∈ as, c ∈ (flattenWith quotes a none).heads → c ∈ a.heads)
    (hc : c ∈ headsOfArgs (flattenArgs quotes as)) : c ∈ headsOfArgs as := by
  rw [flattenArgs_eq_map, mem_headsOfArgs] at hc
  obtain ⟨b, hb, hc⟩ := hc
  obtain ⟨a, ha, rfl⟩ := List.mem_map.mp hb
  exact mem_headsOfArgs.mpr ⟨a, ha, h a ha hc⟩

theorem mem_headsOfBindings_flattenBindings {quotes : Bool} {bs : List (String × Term)}
    {c : String × Marker}
    (h : ∀ b ∈ bs, c ∈ (flattenWith quotes b.2 none).heads → c ∈ b.2.heads)
    (hc : c ∈ headsOfBindings (flattenBindings quotes bs)) : c ∈ headsOfBindings bs := by
  rw [flattenBindings_eq_map, mem_headsOfBindings] at hc
  obtain ⟨d, hd, hc⟩ := hc
  obtain ⟨b, hb, rfl⟩ := List.mem_map.mp hd
  exact mem_headsOfBindings.mpr ⟨b, hb, h b hb hc⟩

/-- The heads of a flattened chain are those of its links, with the innermost term if arguments
    are pending for it. -/
theorem mem_heads_flattenWith {quotes : Bool} {t : Term} {pending : Option (List Term)}
    {c : String × Marker} (hc : c ∈ (flattenWith quotes t pending).heads) :
    (pending.isSome = true ∧ t.constant? = some c) ∨ c ∈ t.heads ∨
      c ∈ headsOfArgs (pending.getD []) := by
  induction t using Term.ind generalizing pending with
  | app fn args ihfn ihargs =>
    have hargs := @mem_headsOfArgs_flattenArgs quotes args c fun a ha h => by
      simpa [headsOfArgs] using ihargs a ha h
    rw [flattenWith] at hc
    rcases ihfn hc with ⟨-, hfn⟩ | hfn | hpending
    · exact .inr (.inl (by simp [heads, hfn]))
    · exact .inr (.inl (by simp [heads, hfn]))
    · -- what is pending for the function was pending before, or are the arguments of this link
      rw [Option.getD_some, mem_headsOfArgs] at hpending
      obtain ⟨a, ha, hc⟩ := hpending
      rcases List.mem_append.mp ha with ha | ha
      · have hnew := hargs (mem_headsOfArgs.mpr ⟨a, ha, hc⟩)
        exact .inr (.inl (by simp [heads, hnew]))
      · exact .inr (.inr (mem_headsOfArgs.mpr ⟨a, ha, hc⟩))
  | lam binder body ih =>
    rw [flattenWith, mem_heads_withArgs] at hc
    refine hc.imp id (Or.imp_left fun hbody => ?_)
    simpa [headsOfArgs, heads] using ih hbody
  | pi binder domain body ihdomain ihbody =>
    rw [flattenWith, mem_heads_withArgs] at hc
    refine hc.imp id (Or.imp_left fun hparts => ?_)
    rcases List.mem_append.mp hparts with hdomain | hbody
    · have hdomain : c ∈ domain.heads := by simpa [headsOfArgs] using ihdomain hdomain
      exact List.mem_append_left _ hdomain
    · have hbody : c ∈ body.heads := by simpa [headsOfArgs] using ihbody hbody
      exact List.mem_append_right _ hbody
  | letIn bindings body ihbindings ihbody =>
    rw [flattenWith, mem_heads_withArgs] at hc
    refine hc.imp id (Or.imp_left fun hparts => ?_)
    rcases List.mem_append.mp hparts with hbindings | hbody
    · have hbindings := mem_headsOfBindings_flattenBindings (fun b hb h => by
        simpa [headsOfArgs] using ihbindings b hb h) hbindings
      exact List.mem_append_left _ hbindings
    · have hbody : c ∈ body.heads := by simpa [headsOfArgs] using ihbody hbody
      exact List.mem_append_right _ hbody
  | quote body ih =>
    rw [flattenWith, mem_heads_withArgs] at hc
    exact hc
  | ann name body ih =>
    rw [flattenWith, mem_heads_withArgs] at hc
    refine hc.imp id (Or.imp_left fun hbody => ?_)
    simpa [headsOfArgs, heads] using ih hbody
  | foreign name args ih =>
    rw [flattenWith, mem_heads_withArgs] at hc
    refine hc.imp id (Or.imp_left fun hargs => ?_)
    exact mem_headsOfArgs_flattenArgs (fun a ha h => by
      simpa [headsOfArgs] using ih a ha h) hargs
  | _ => exact mem_heads_withArgs.mp hc

theorem heads_bodyOf (t : Term) : (Codegen.bodyOf t).heads = t.heads := by
  induction t using Term.ind with
  | lam binder body ih => exact ih
  | _ => rfl

/-- Code generation meets no other heads than those of the term it was given. -/
theorem heads_flatten_bodyOf_subset (t : Term) :
    (Codegen.bodyOf t).flatten.heads ⊆ t.heads := by
  intro c hc
  have hbody := mem_heads_flattenWith hc
  simpa [headsOfArgs, heads_bodyOf] using hbody

end TermVM.Term
