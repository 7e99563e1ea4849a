/-
  TermVM.Proofs.Term.Instantiation

  Instantiation and the test for loose variables go by one scoping rule.

  Both count the binders they pass, a let binding seeing the ones in front of
  it, and both stop at quotations.  What instantiation does to a variable is
  said once, in three cases; every other construct only passes it on, at the
  depth that the construct adds.

  `instantiate_staged` makes one instantiation of two, `instantiateAt_under`
  does so where the outer variables come first, and `looseAbove_instantiate`
  says which variables one instantiation leaves.
-/
import TermVM.Proofs.Term.Flatten
import TermVM.Proofs.Term.Quotation
import TermVM.Term.Instantiate

namespace TermVM.Term

/-! ## Variables -/

section Variables

variable {subst : List Term} {k : Nat} {i j : UInt32}

/-- A variable that points past the binders looks for its replacement. -/
theorem instantiateAt_var_of_le (h : k ≤ i.toNat) : (var i).instantiateAt subst k =
    subst[i.toNat - k]?.getD (var (i - UInt32.ofNat subst.length)) := by
  rw [instantiateAt, if_neg (Nat.not_lt.mpr h)]
  cases subst[i.toNat - k]? <;> rfl

/-- A variable that is bound inside stays. -/
theorem instantiateAt_var_of_lt (h : i.toNat < k) : (var i).instantiateAt subst k = var i :=
  if_pos h

/-- A variable with a replacement is replaced. -/
theorem instantiateAt_var_of_getElem? {u : Term} (hle : k ≤ i.toNat)
    (hu : subst[i.toNat - k]? = some u) : (var i).instantiateAt subst k = u := by
  rw [instantiateAt_var_of_le hle, hu, Option.getD_some]

/-- A variable beyond the replacements is lowered by their number. -/
theorem instantiateAt_var_of_eq_add (hle : k ≤ j.toNat) (hi : i.toNat = j.toNat + subst.length) :
    (var i).instantiateAt subst k = var j := by
  have hnone : subst[i.toNat - k]? = none := List.getElem?_eq_none (by omega)
  have hlt : subst.length < UInt32.size := Nat.lt_of_le_of_lt (by omega) i.toNat_lt
  have hword : (UInt32.ofNat subst.length).toNat = subst.length := UInt32.toNat_ofNat_of_lt' hlt
  have hlowered : i - UInt32.ofNat subst.length = j := by
    rw [← UInt32.toNat_inj, UInt32.toNat_sub_of_le _ _ (UInt32.le_iff_toNat_le.mpr (by omega)),
      hword]
    omega
  rw [instantiateAt_var_of_le (by omega), hnone, Option.getD_none, hlowered]

/-- There is no other kind of variable. -/
theorem var_trichotomy (subst : List Term) (k : Nat) (i : UInt32) :
    i.toNat < k ∨ (∃ u, k ≤ i.toNat ∧ subst[i.toNat - k]? = some u) ∨
      ∃ j : UInt32, k ≤ j.toNat ∧ i.toNat = j.toNat + subst.length := by
  by_cases hbound : i.toNat < k
  · exact .inl hbound
  cases hu : subst[i.toNat - k]? with
  | some u => exact .inr (.inl ⟨u, by omega, rfl⟩)
  | none =>
    have hle := List.getElem?_eq_none_iff.mp hu
    have hj : (UInt32.ofNat (i.toNat - subst.length)).toNat = i.toNat - subst.length :=
      UInt32.toNat_ofNat_of_lt' (Nat.lt_of_le_of_lt (Nat.sub_le _ _) i.toNat_lt)
    exact .inr (.inr ⟨UInt32.ofNat (i.toNat - subst.length), by omega, by omega⟩)

end Variables

/-! ## Lists -/

theorem instantiateArgs_eq_map (subst : List Term) (k : Nat) (as : List Term) :
    instantiateArgs subst k as = as.map (instantiateAt subst k) := by
  induction as with
  | nil => rfl
  | cons a as ih => exact congrArg (a.instantiateAt subst k :: ·) ih

@[simp] theorem length_instantiateBindings (subst : List Term) (k : Nat)
    (bs : List (String × Term)) : (instantiateBindings subst k bs).length = bs.length := by
  induction bs generalizing k with
  | nil => rfl
  | cons b bs ih => exact congrArg (· + 1) (ih (k + 1))

theorem looseInArgs_eq_false {k : Nat} {as : List Term} :
    looseInArgs k as = false ↔ ∀ a ∈ as, a.looseAbove k = false := by
  induction as with
  | nil => exact iff_of_true rfl fun a ha => absurd ha List.not_mem_nil
  | cons a as ih => rw [List.forall_mem_cons, ← ih, ← Bool.or_eq_false_iff, looseInArgs]

/-! ## Terms without loose variables -/

theorem looseInBindings_mono {k k' : Nat} {bs : List (String × Term)}
    (h : ∀ b ∈ bs, ∀ k k', b.2.looseAbove k = false → k ≤ k' → b.2.looseAbove k' = false)
    (hloose : looseInBindings k bs = false) (hle : k ≤ k') : looseInBindings k' bs = false := by
  induction bs generalizing k k' with
  | nil => rfl
  | cons b bs ih =>
    rw [List.forall_mem_cons] at h
    obtain ⟨hvalue, hrest⟩ := Bool.or_eq_false_iff.mp hloose
    exact Bool.or_eq_false_iff.mpr
      ⟨h.1 k k' hvalue hle, ih h.2 hrest (Nat.succ_le_succ hle)⟩

/-- A variable that points past many binders points past fewer. -/
theorem looseAbove_mono {t : Term} {k k' : Nat} (h : t.looseAbove k = false) (hle : k ≤ k') :
    t.looseAbove k' = false := by
  induction t using Term.ind generalizing k k' with
  | var i =>
    simp only [looseAbove, decide_eq_false_iff_not] at h ⊢
    omega
  | app fn args ihfn ihargs =>
    simp only [looseAbove, Bool.or_eq_false_iff, looseInArgs_eq_false] at h ⊢
    exact ⟨ihfn h.1 hle, fun a ha => ihargs a ha (h.2 a ha) hle⟩
  | lam binder body ih => exact ih (k := k + 1) h (Nat.succ_le_succ hle)
  | pi binder domain body ihdomain ihbody =>
    simp only [looseAbove, Bool.or_eq_false_iff] at h ⊢
    exact ⟨ihdomain h.1 hle, ihbody h.2 (Nat.succ_le_succ hle)⟩
  | letIn bindings body ihbindings ihbody =>
    simp only [looseAbove, Bool.or_eq_false_iff] at h ⊢
    exact ⟨looseInBindings_mono (fun b hb k k' => ihbindings b hb) h.1 hle,
      ihbody h.2 (Nat.add_le_add_right hle _)⟩
  | ann name body ih => exact ih (k := k) h hle
  | foreign name args ih =>
    simp only [looseAbove, looseInArgs_eq_false] at h ⊢
    exact fun a ha => ih a ha (h a ha) hle
  | _ => rfl

theorem instantiateArgs_eq_self {subst : List Term} {k : Nat} {as : List Term}
    (h : ∀ a ∈ as, a.instantiateAt subst k = a) : instantiateArgs subst k as = as := by
  rw [instantiateArgs_eq_map, List.map_congr_left h, List.map_id']

theorem instantiateBindings_eq_self {subst : List Term} {k : Nat} {bs : List (String × Term)}
    (h : ∀ b ∈ bs, ∀ k, b.2.looseAbove k = false → b.2.instantiateAt subst k = b.2)
    (hloose : looseInBindings k bs = false) : instantiateBindings subst k bs = bs := by
  induction bs generalizing k with
  | nil => rfl
  | cons b bs ih =>
    rw [List.forall_mem_cons] at h
    obtain ⟨hvalue, hrest⟩ := Bool.or_eq_false_iff.mp hloose
    rw [instantiateBindings, h.1 k hvalue, ih h.2 hrest]

/-- Where no variable points past the binders there is nothing to instantiate. -/
theorem instantiateAt_eq_self {t : Term} {k : Nat} (subst : List Term)
    (h : t.looseAbove k = false) : t.instantiateAt subst k = t := by
  induction t using Term.ind generalizing k with
  | var i =>
    simp only [looseAbove, decide_eq_false_iff_not] at h
    exact instantiateAt_var_of_lt (Nat.lt_of_not_le h)
  | app fn args ihfn ihargs =>
    simp only [looseAbove, Bool.or_eq_false_iff, looseInArgs_eq_false] at h
    rw [instantiateAt, ihfn h.1, instantiateArgs_eq_self fun a ha => ihargs a ha (h.2 a ha)]
  | lam binder body ih => rw [instantiateAt, ih h]
  | pi binder domain body ihdomain ihbody =>
    simp only [looseAbove, Bool.or_eq_false_iff] at h
    rw [instantiateAt, ihdomain h.1, ihbody h.2]
  | letIn bindings body ihbindings ihbody =>
    simp only [looseAbove, Bool.or_eq_false_iff] at h
    rw [instantiateAt, instantiateBindings_eq_self (fun b hb k => ihbindings b hb) h.1,
      ihbody h.2]
  | ann name body ih => rw [instantiateAt, ih h]
  | foreign name args ih =>
    simp only [looseAbove, looseInArgs_eq_false] at h
    rw [instantiateAt, instantiateArgs_eq_self fun a ha => ih a ha (h a ha)]
  | _ => rfl

/-- A closed term is the same under any number of binders. -/
theorem instantiateAt_of_closed {t : Term} (h : t.hasLooseVars = false) (subst : List Term)
    (k : Nat) : t.instantiateAt subst k = t :=
  instantiateAt_eq_self subst (looseAbove_mono h (Nat.zero_le k))

/-! ## Two stages -/

section Stages

variable {xs ys : List Term}

theorem instantiateBindings_append {k : Nat} {bs : List (String × Term)}
    (h : ∀ b ∈ bs, ∀ k,
      (b.2.instantiateAt ys k).instantiateAt xs k = b.2.instantiateAt (ys ++ xs) k) :
    instantiateBindings xs k (instantiateBindings ys k bs)
      = instantiateBindings (ys ++ xs) k bs := by
  induction bs generalizing k with
  | nil => rfl
  | cons b bs ih =>
    rw [List.forall_mem_cons] at h
    simp only [instantiateBindings, h.1, ih h.2]

theorem instantiateArgs_append {k : Nat} {as : List Term}
    (h : ∀ a ∈ as, (a.instantiateAt ys k).instantiateAt xs k = a.instantiateAt (ys ++ xs) k) :
    instantiateArgs xs k (instantiateArgs ys k as) = instantiateArgs (ys ++ xs) k as := by
  simp only [instantiateArgs_eq_map, List.map_map]
  exact List.map_congr_left h

/-- The first replacements are out of reach of the second, and what the first leave the second count
    on from. -/
theorem instantiateAt_var_append (hys : ∀ y ∈ ys, y.hasLooseVars = false) (k : Nat) (i : UInt32) :
    ((var i).instantiateAt ys k).instantiateAt xs k = (var i).instantiateAt (ys ++ xs) k := by
  rcases var_trichotomy ys k i with hlt | ⟨y, hle, hy⟩ | ⟨j, hle, hi⟩
  · rw [instantiateAt_var_of_lt hlt, instantiateAt_var_of_lt hlt, instantiateAt_var_of_lt hlt]
  · have hy' : (ys ++ xs)[i.toNat - k]? = some y := by
      rw [List.getElem?_append_left (List.getElem?_eq_some_iff.mp hy).1, hy]
    rw [instantiateAt_var_of_getElem? hle hy, instantiateAt_var_of_getElem? hle hy',
      instantiateAt_of_closed (hys y (List.mem_of_getElem? hy))]
  · rw [instantiateAt_var_of_eq_add hle hi]
    rcases var_trichotomy xs k j with hlt | ⟨x, -, hx⟩ | ⟨l, hle', hj⟩
    · omega
    · have hx' : (ys ++ xs)[i.toNat - k]? = some x := by
        rw [List.getElem?_append_right (by omega), ← hx]
        congr 1
        omega
      rw [instantiateAt_var_of_getElem? hle hx, instantiateAt_var_of_getElem? (by omega) hx']
    · have hi' : i.toNat = l.toNat + (ys ++ xs).length := by
        rw [List.length_append]
        omega
      rw [instantiateAt_var_of_eq_add hle' hj, instantiateAt_var_of_eq_add hle' hi']

/-- Instantiating twice under the same binders is instantiating once. -/
theorem instantiateAt_append (hys : ∀ y ∈ ys, y.hasLooseVars = false) (k : Nat) (t : Term) :
    (t.instantiateAt ys k).instantiateAt xs k = t.instantiateAt (ys ++ xs) k := by
  induction t using Term.ind generalizing k with
  | var i => exact instantiateAt_var_append hys k i
  | app fn args ihfn ihargs =>
    simp only [instantiateAt, ihfn, instantiateArgs_append fun a ha => ihargs a ha k]
  | lam binder body ih => simp only [instantiateAt, ih]
  | pi binder domain body ihdomain ihbody => simp only [instantiateAt, ihdomain, ihbody]
  | letIn bindings body ihbindings ihbody =>
    simp only [instantiateAt, length_instantiateBindings, instantiateBindings_append ihbindings,
      ihbody]
  | ann name body ih => simp only [instantiateAt, ih]
  | foreign name args ih =>
    simp only [instantiateAt, instantiateArgs_append fun a ha => ih a ha k]
  | _ => rfl

end Stages

/-! ## Outer variables first -/

section Opening

variable {xs ys : List Term}

theorem instantiateBindings_under {k : Nat} {bs : List (String × Term)}
    (h : ∀ b ∈ bs, ∀ k, (b.2.instantiateAt ys (k + xs.length)).instantiateAt xs k
      = b.2.instantiateAt (xs ++ ys) k) :
    instantiateBindings xs k (instantiateBindings ys (k + xs.length) bs)
      = instantiateBindings (xs ++ ys) k bs := by
  induction bs generalizing k with
  | nil => rfl
  | cons b bs ih =>
    rw [List.forall_mem_cons] at h
    simp only [instantiateBindings, h.1, Nat.add_right_comm k xs.length 1, ih h.2]

theorem instantiateArgs_under {k : Nat} {as : List Term}
    (h : ∀ a ∈ as, (a.instantiateAt ys (k + xs.length)).instantiateAt xs k
      = a.instantiateAt (xs ++ ys) k) :
    instantiateArgs xs k (instantiateArgs ys (k + xs.length) as)
      = instantiateArgs (xs ++ ys) k as := by
  simp only [instantiateArgs_eq_map, List.map_map]
  exact List.map_congr_left h

theorem instantiateAt_var_under (hys : ∀ y ∈ ys, y.hasLooseVars = false) (k : Nat) (i : UInt32) :
    ((var i).instantiateAt ys (k + xs.length)).instantiateAt xs k
      = (var i).instantiateAt (xs ++ ys) k := by
  rcases var_trichotomy ys (k + xs.length) i with hlt | ⟨y, hle, hy⟩ | ⟨j, hle, hi⟩
  · -- the variable is one of the inner binders, or of those that are left
    rw [instantiateAt_var_of_lt hlt]
    by_cases hk : i.toNat < k
    · rw [instantiateAt_var_of_lt hk, instantiateAt_var_of_lt hk]
    · have hxs : i.toNat - k < xs.length := by omega
      rw [instantiateAt_var_of_le (by omega), instantiateAt_var_of_le (by omega),
        List.getElem?_append_left hxs, List.getElem?_eq_getElem hxs, Option.getD_some,
        Option.getD_some]
  · have hy' : (xs ++ ys)[i.toNat - k]? = some y := by
      rw [List.getElem?_append_right (by omega), ← hy]
      congr 1
      omega
    rw [instantiateAt_var_of_getElem? hle hy, instantiateAt_var_of_getElem? (by omega) hy',
      instantiateAt_of_closed (hys y (List.mem_of_getElem? hy))]
  · have hj : j.toNat = (j.toNat - xs.length) + xs.length := by omega
    have hword : (UInt32.ofNat (j.toNat - xs.length)).toNat = j.toNat - xs.length :=
      UInt32.toNat_ofNat_of_lt' (Nat.lt_of_le_of_lt (Nat.sub_le _ _) j.toNat_lt)
    rw [instantiateAt_var_of_eq_add hle hi,
      instantiateAt_var_of_eq_add (j := UInt32.ofNat (j.toNat - xs.length)) (by omega) (by omega),
      instantiateAt_var_of_eq_add (j := UInt32.ofNat (j.toNat - xs.length)) (by omega)
        (by rw [List.length_append]; omega)]

/-- Instantiating the variables beyond some binders first, and then those of the binders, is
    instantiating all of them at once. -/
theorem instantiateAt_under (hys : ∀ y ∈ ys, y.hasLooseVars = false) (k : Nat) (t : Term) :
    (t.instantiateAt ys (k + xs.length)).instantiateAt xs k = t.instantiateAt (xs ++ ys) k := by
  induction t using Term.ind generalizing k with
  | var i => exact instantiateAt_var_under hys k i
  | app fn args ihfn ihargs =>
    simp only [instantiateAt, ihfn, instantiateArgs_under fun a ha => ihargs a ha k]
  | lam binder body ih => simp only [instantiateAt, Nat.add_right_comm k xs.length 1, ih]
  | pi binder domain body ihdomain ihbody =>
    simp only [instantiateAt, ihdomain, Nat.add_right_comm k xs.length 1, ihbody]
  | letIn bindings body ihbindings ihbody =>
    simp only [instantiateAt, length_instantiateBindings, instantiateBindings_under ihbindings,
      Nat.add_right_comm k xs.length bindings.length, ihbody]
  | ann name body ih => simp only [instantiateAt, ih]
  | foreign name args ih =>
    simp only [instantiateAt, instantiateArgs_under fun a ha => ih a ha k]
  | _ => rfl

end Opening

/-! ## Shapes -/

section Shapes

variable {subst : List Term} {k : Nat}

/-- An instantiated variable is a replacement, or still a variable. -/
theorem instantiateAt_var_mem (subst : List Term) (k : Nat) (i : UInt32) :
    (var i).instantiateAt subst k ∈ subst ∨ ∃ j, (var i).instantiateAt subst k = var j := by
  rcases var_trichotomy subst k i with hlt | ⟨u, hle, hu⟩ | ⟨j, hle, hi⟩
  · exact .inr ⟨i, instantiateAt_var_of_lt hlt⟩
  · rw [instantiateAt_var_of_getElem? hle hu]
    exact .inl (List.mem_of_getElem? hu)
  · exact .inr ⟨j, instantiateAt_var_of_eq_add hle hi⟩

/-- Replacements that are no applications lengthen no chain. -/
theorem spine_instantiateAt (h : ∀ u ∈ subst, u.isApp = false) (t : Term) :
    (t.instantiateAt subst k).spine =
      (t.spine.1.instantiateAt subst k, t.spine.2.map (instantiateAt subst k)) := by
  induction t using Term.ind with
  | app fn args ihfn ihargs =>
    simp only [instantiateAt, spine, ihfn, instantiateArgs_eq_map, List.map_append]
  | var i =>
    refine spine_of_isApp ?_
    rcases instantiateAt_var_mem subst k i with hmem | ⟨j, hj⟩
    · exact h _ hmem
    · rw [hj]
      rfl
  | _ => rfl

/-- Replacements that are no lambdas bring no leading lambda. -/
theorem arity_instantiateAt (h : ∀ u ∈ subst, u.arity = 0) (k : Nat) (t : Term) :
    (t.instantiateAt subst k).arity = t.arity := by
  induction t using Term.ind generalizing k with
  | lam binder body ih => exact congrArg (· + 1) (ih (k + 1))
  | var i =>
    rcases instantiateAt_var_mem subst k i with hmem | ⟨j, hj⟩
    · exact h _ hmem
    · rw [hj]
      rfl
  | _ => rfl

end Shapes

theorem instantiateBindings_nil {k : Nat} {bs : List (String × Term)}
    (h : ∀ b ∈ bs, ∀ k, b.2.instantiateAt [] k = b.2) : instantiateBindings [] k bs = bs := by
  induction bs generalizing k with
  | nil => rfl
  | cons b bs ih =>
    rw [List.forall_mem_cons] at h
    rw [instantiateBindings, h.1, ih h.2]

/-- Instantiation by nothing. -/
@[simp] theorem instantiateAt_nil (t : Term) (k : Nat) : t.instantiateAt [] k = t := by
  induction t using Term.ind generalizing k with
  | var i =>
    by_cases hk : i.toNat < k
    · exact instantiateAt_var_of_lt hk
    · exact instantiateAt_var_of_eq_add (Nat.le_of_not_lt hk) rfl
  | app fn args ihfn ihargs =>
    rw [instantiateAt, ihfn, instantiateArgs_eq_self fun a ha => ihargs a ha k]
  | lam binder body ih => rw [instantiateAt, ih]
  | pi binder domain body ihdomain ihbody => rw [instantiateAt, ihdomain, ihbody]
  | letIn bindings body ihbindings ihbody =>
    rw [instantiateAt, instantiateBindings_nil ihbindings, ihbody]
  | ann name body ih => rw [instantiateAt, ih]
  | foreign name args ih => rw [instantiateAt, instantiateArgs_eq_self fun a ha => ih a ha k]
  | _ => rfl

/-! ## The variables that are left -/

section Left

variable {subst : List Term}

theorem looseInBindings_instantiate {k : Nat} {bs : List (String × Term)}
    (h : ∀ b ∈ bs, ∀ k,
      (b.2.instantiateAt subst k).looseAbove k = b.2.looseAbove (k + subst.length)) :
    looseInBindings k (instantiateBindings subst k bs)
      = looseInBindings (k + subst.length) bs := by
  induction bs generalizing k with
  | nil => rfl
  | cons b bs ih =>
    rw [List.forall_mem_cons] at h
    rw [instantiateBindings, looseInBindings, looseInBindings, h.1, ih h.2, Nat.add_right_comm]

theorem looseInArgs_instantiate {k : Nat} {as : List Term}
    (h : ∀ a ∈ as, (a.instantiateAt subst k).looseAbove k = a.looseAbove (k + subst.length)) :
    looseInArgs k (instantiateArgs subst k as) = looseInArgs (k + subst.length) as := by
  induction as with
  | nil => rfl
  | cons a as ih =>
    rw [List.forall_mem_cons] at h
    rw [instantiateArgs, looseInArgs, looseInArgs, h.1, ih h.2]

/-- The variables that an instantiation leaves are those beyond its replacements. -/
theorem looseAbove_instantiateAt (hclosed : ∀ u ∈ subst, u.hasLooseVars = false) (k : Nat)
    (t : Term) : (t.instantiateAt subst k).looseAbove k = t.looseAbove (k + subst.length) := by
  induction t using Term.ind generalizing k with
  | var i =>
    rcases var_trichotomy subst k i with hlt | ⟨u, hle, hu⟩ | ⟨j, hle, hi⟩
    · rw [instantiateAt_var_of_lt hlt]
      simp only [looseAbove, decide_eq_decide]
      omega
    · have hlt := (List.getElem?_eq_some_iff.mp hu).1
      have hbelow : (var i).looseAbove (k + subst.length) = false := by
        simp only [looseAbove, decide_eq_false_iff_not]
        omega
      rw [instantiateAt_var_of_getElem? hle hu, hbelow]
      exact looseAbove_mono (hclosed u (List.mem_of_getElem? hu)) (Nat.zero_le k)
    · rw [instantiateAt_var_of_eq_add hle hi]
      simp only [looseAbove, decide_eq_decide]
      omega
  | app fn args ihfn ihargs =>
    simp only [instantiateAt, looseAbove, ihfn, looseInArgs_instantiate fun a ha => ihargs a ha k]
  | lam binder body ih => rw [instantiateAt, looseAbove, looseAbove, ih, Nat.add_right_comm]
  | pi binder domain body ihdomain ihbody =>
    rw [instantiateAt, looseAbove, looseAbove, ihdomain, ihbody, Nat.add_right_comm]
  | letIn bindings body ihbindings ihbody =>
    rw [instantiateAt, looseAbove, looseAbove, length_instantiateBindings,
      looseInBindings_instantiate ihbindings, ihbody, Nat.add_right_comm]
  | ann name body ih => rw [instantiateAt, looseAbove, looseAbove, ih]
  | foreign name args ih =>
    rw [instantiateAt, looseAbove, looseAbove, looseInArgs_instantiate fun a ha => ih a ha k]
  | _ => rfl

end Left

/-! ## Quotations -/

/-- Quotations of replacements have been put in between quotations, which are otherwise as they
    were. -/
structure Inserted (subst quotations quotations' : List Term) : Prop where
  kept : quotations.Sublist quotations'
  source : ∀ q ∈ quotations', q ∈ quotations ∨ ∃ u ∈ subst, q ∈ u.quotations

namespace Inserted

variable {subst qs qs' rs rs' : List Term}

theorem refl (subst qs : List Term) : Inserted subst qs qs where
  kept := List.Sublist.refl qs
  source _ := .inl

theorem append (h₁ : Inserted subst qs qs') (h₂ : Inserted subst rs rs') :
    Inserted subst (qs ++ rs) (qs' ++ rs') where
  kept := h₁.kept.append h₂.kept
  source q hq := by
    rcases List.mem_append.mp hq with hq | hq
    · exact (h₁.source q hq).imp_left (List.mem_append_left rs)
    · exact (h₂.source q hq).imp_left (List.mem_append_right qs)

theorem args {k : Nat} {as : List Term}
    (h : ∀ a ∈ as, Inserted subst a.quotations (a.instantiateAt subst k).quotations) :
    Inserted subst (quotationsOfArgs as) (quotationsOfArgs (instantiateArgs subst k as)) := by
  induction as with
  | nil => exact .refl subst []
  | cons a as ih =>
    rw [List.forall_mem_cons] at h
    exact h.1.append (ih h.2)

theorem bindings {k : Nat} {bs : List (String × Term)}
    (h : ∀ b ∈ bs, ∀ k, Inserted subst b.2.quotations (b.2.instantiateAt subst k).quotations) :
    Inserted subst (quotationsOfBindings bs)
      (quotationsOfBindings (instantiateBindings subst k bs)) := by
  induction bs generalizing k with
  | nil => exact .refl subst []
  | cons b bs ih =>
    rw [List.forall_mem_cons] at h
    exact (h.1 k).append (ih h.2)

end Inserted

/-- Instantiation leaves quotations alone; replacements bring their own. -/
theorem inserted_instantiateAt (subst : List Term) (k : Nat) (t : Term) :
    Inserted subst t.quotations (t.instantiateAt subst k).quotations := by
  induction t using Term.ind generalizing k with
  | var i =>
    rcases var_trichotomy subst k i with hlt | ⟨u, hle, hu⟩ | ⟨j, hle, hi⟩
    · rw [instantiateAt_var_of_lt hlt]
      exact .refl subst []
    · rw [instantiateAt_var_of_getElem? hle hu]
      exact ⟨List.nil_sublist _, fun q hq => .inr ⟨u, List.mem_of_getElem? hu, hq⟩⟩
    · rw [instantiateAt_var_of_eq_add hle hi]
      exact .refl subst []
  | app fn args ihfn ihargs => exact (ihfn k).append (.args fun a ha => ihargs a ha k)
  | lam binder body ih => exact ih (k + 1)
  | pi binder domain body ihdomain ihbody => exact (ihdomain k).append (ihbody (k + 1))
  | letIn bindings body ihbindings ihbody =>
    exact (Inserted.bindings ihbindings).append (ihbody (k + bindings.length))
  | ann name body ih => exact ih k
  | foreign name args ih => exact .args fun a ha => ih a ha k
  | _ => exact .refl subst _

/-! ## Instantiation by lists -/

/-- Instantiating by closed terms and then by other terms is instantiating by all of them at once,
    under any number of binders.  Neither way touches a quotation of the term. -/
theorem instantiate_staged (t : Term) (xs ys : List Term)
    (hys : ∀ y ∈ ys, y.hasLooseVars = false) :
    (t.instantiate ys).instantiate xs = t.instantiate (xs ++ ys) ∧
      ∀ k, (t.instantiateAt ys.reverse k).instantiateAt xs.reverse k
          = t.instantiateAt (xs ++ ys).reverse k ∧
        Inserted (xs ++ ys) t.quotations
          ((t.instantiateAt ys.reverse k).instantiateAt xs.reverse k).quotations ∧
        Inserted (xs ++ ys) t.quotations (t.instantiateAt (xs ++ ys).reverse k).quotations := by
  have hstages : ∀ k, (t.instantiateAt ys.reverse k).instantiateAt xs.reverse k
      = t.instantiateAt (xs ++ ys).reverse k := by
    intro k
    rw [List.reverse_append]
    exact instantiateAt_append (fun y hy => hys y (List.mem_reverse.mp hy)) k t
  refine ⟨hstages 0, fun k => ?_⟩
  have hinserted := inserted_instantiateAt (xs ++ ys).reverse k t
  have hquotations : Inserted (xs ++ ys) t.quotations
      (t.instantiateAt (xs ++ ys).reverse k).quotations :=
    ⟨hinserted.kept, fun q hq => by simpa only [List.mem_reverse] using hinserted.source q hq⟩
  exact ⟨hstages k, by rwa [hstages k], hquotations⟩

/-- A term with variables that point past a lambda and past one or two bindings of a let, the last
    of them beyond three replacements. -/
def nestedScopes : Term :=
  .lam "x" <| .letIn [("a", .var 1), ("b", .app (.var 2) [.var 0])] <|
    .app (.var 0) [.var 3, .var 4, .var 5, .var 6, .quote (.var 3)]

theorem instantiate_staged_nestedScopes :
    (∀ y ∈ [global "r"], y.hasLooseVars = false) ∧
      (nestedScopes.instantiate [global "r"]).instantiate [global "p", .lam "z" (.var 0)]
        = .lam "x" (.letIn [("a", global "r"), ("b", .app (global "r") [.var 0])]
          (.app (.var 0) [global "r", .lam "z" (.var 0), global "p", .var 3, .quote (.var 3)])) :=
  ⟨by decide, (instantiate_staged nestedScopes [global "p", .lam "z" (.var 0)] [global "r"]
    (by decide)).1.trans (by rfl)⟩

/-- Instantiation by closed terms and the test for loose variables agree.  Under any number of
    binders the variables that are left are those beyond the replacements, a term without variables
    past the binders stays as it is, and a term that has only variables with replacements becomes
    closed. -/
theorem looseAbove_instantiate (t : Term) (subst : List Term)
    (hclosed : ∀ u ∈ subst, u.hasLooseVars = false) :
    (∀ k, (t.instantiateAt subst.reverse k).looseAbove k = t.looseAbove (k + subst.length)) ∧
      (∀ k, t.looseAbove k = false → t.instantiateAt subst.reverse k = t) ∧
      (t.looseAbove subst.length = false → (t.instantiate subst).hasLooseVars = false) := by
  have hleft : ∀ k,
      (t.instantiateAt subst.reverse k).looseAbove k = t.looseAbove (k + subst.length) := by
    intro k
    rw [looseAbove_instantiateAt (fun u hu => hclosed u (List.mem_reverse.mp hu)),
      List.length_reverse]
  refine ⟨hleft, fun k => instantiateAt_eq_self _, fun hloose => ?_⟩
  exact (hleft 0).trans (by rwa [Nat.zero_add])

theorem looseAbove_instantiate_nestedScopes :
    (∀ u ∈ [global "q", global "r"], u.hasLooseVars = false) ∧
      (nestedScopes.instantiateAt [global "r", global "q"] 0).looseAbove 0 = true ∧
      nestedScopes.looseAbove 4 = false ∧
      nestedScopes.instantiateAt [global "r", global "q"] 4 = nestedScopes ∧
      (nestedScopes.instantiate [global "o", global "p", global "q", global "r"]).hasLooseVars
        = false := by
  have htwo := looseAbove_instantiate nestedScopes [global "q", global "r"] (by decide)
  have hfour := looseAbove_instantiate nestedScopes
    [global "o", global "p", global "q", global "r"] (by decide)
  exact ⟨by decide, (htwo.1 0).trans (by decide), by decide, htwo.2.1 4 (by decide),
    hfour.2.2 (by decide)⟩

end TermVM.Term
