/-
  TermVM.Proofs.Term.Flatten

  What flattening application chains keeps: it makes no term larger, moves no
  free local, and leaves no application at the head of another.  A chain becomes
  one node with its head and all its arguments (`flatten_app`).

  Every statement is proved for a term together with the pending arguments of
  the chain it heads, which is what the recursion carries along.
-/
import TermVM.Proofs.Term.Induction

namespace TermVM.Term

/-! ## Members of lists -/

theorem flattenArgs_eq_map (quotes : Bool) (as : List Term) :
    flattenArgs quotes as = as.map (flattenWith quotes · none) := by
  induction as with
  | nil => rfl
  | cons a as ih => simp [flattenArgs, ih]

theorem flattenArgs_append (quotes : Bool) (as bs : List Term) :
    flattenArgs quotes (as ++ bs) = flattenArgs quotes as ++ flattenArgs quotes bs := by
  simp [flattenArgs_eq_map]

theorem flattenBindings_eq_map (quotes : Bool) (bs : List (String × Term)) :
    flattenBindings quotes bs = bs.map fun b => (b.1, flattenWith quotes b.2 none) := by
  induction bs with
  | nil => rfl
  | cons b bs ih => simp [flattenBindings, ih]

/-! ## Size -/

/-- The nodes that pending arguments stand for, with the node that will hold them. -/
def nodesOfPending : Option (List Term) → Nat
  | none => 0
  | some as => nodesOfArgs as + 1

theorem nodes_withArgs (t : Term) (pending : Option (List Term)) :
    (t.withArgs pending).nodes = t.nodes + nodesOfPending pending := by
  cases pending <;> simp [withArgs, nodes, nodesOfPending, Nat.add_assoc]

theorem nodesOfArgs_flattenArgs_le {quotes : Bool} {as : List Term}
    (h : ∀ a ∈ as, (flattenWith quotes a none).nodes ≤ a.nodes) :
    nodesOfArgs (flattenArgs quotes as) ≤ nodesOfArgs as := by
  induction as with
  | nil => simp [flattenArgs]
  | cons a as ih =>
    rw [List.forall_mem_cons] at h
    exact Nat.add_le_add h.1 (ih h.2)

theorem nodesOfBindings_flattenBindings_le {quotes : Bool} {bs : List (String × Term)}
    (h : ∀ b ∈ bs, (flattenWith quotes b.2 none).nodes ≤ b.2.nodes) :
    nodesOfBindings (flattenBindings quotes bs) ≤ nodesOfBindings bs := by
  induction bs with
  | nil => simp [flattenBindings]
  | cons b bs ih =>
    rw [List.forall_mem_cons] at h
    exact Nat.add_le_add h.1 (ih h.2)

theorem nodes_flattenWith_le (quotes : Bool) (t : Term) (pending : Option (List Term)) :
    (flattenWith quotes t pending).nodes ≤ t.nodes + nodesOfPending pending := by
  induction t using Term.ind generalizing pending with
  | app fn args ihfn ihargs =>
    have hargs : nodesOfArgs (flattenArgs quotes args) ≤ nodesOfArgs args :=
      nodesOfArgs_flattenArgs_le fun a ha => by simpa [nodesOfPending] using ihargs a ha none
    have hfn := ihfn (some (flattenArgs quotes args ++ pending.getD []))
    have hpending : nodesOfArgs (pending.getD []) ≤ nodesOfPending pending := by
      cases pending <;> simp [nodesOfArgs, nodesOfPending]
    simp only [nodesOfPending, nodesOfArgs_append] at hfn
    simp only [flattenWith, nodes]
    omega
  | lam binder body ih =>
    have hbody := ih none
    simp only [nodesOfPending] at hbody
    simp only [flattenWith, nodes_withArgs, nodes]
    omega
  | pi binder domain body ihdomain ihbody =>
    have hdomain := ihdomain none
    have hbody := ihbody none
    simp only [nodesOfPending] at hdomain hbody
    simp only [flattenWith, nodes_withArgs, nodes]
    omega
  | letIn bindings body ihbindings ihbody =>
    have hbindings : nodesOfBindings (flattenBindings quotes bindings) ≤ nodesOfBindings bindings :=
      nodesOfBindings_flattenBindings_le fun b hb => by
        simpa [nodesOfPending] using ihbindings b hb none
    have hbody := ihbody none
    simp only [nodesOfPending] at hbody
    simp only [flattenWith, nodes_withArgs, nodes]
    omega
  | quote body ih =>
    have hbody := ih none
    simp only [nodesOfPending] at hbody
    simp only [flattenWith, nodes_withArgs, nodes]
    split <;> omega
  | ann name body ih =>
    have hbody := ih none
    simp only [nodesOfPending] at hbody
    simp only [flattenWith, nodes_withArgs, nodes]
    omega
  | foreign name args ih =>
    have hargs : nodesOfArgs (flattenArgs quotes args) ≤ nodesOfArgs args :=
      nodesOfArgs_flattenArgs_le fun a ha => by simpa [nodesOfPending] using ih a ha none
    simp only [flattenWith, nodes_withArgs, nodes]
    omega
  | _ => simp [flattenWith, nodes_withArgs]

theorem nodes_flatten_le (t : Term) : t.flatten.nodes ≤ t.nodes := by
  simpa [flatten, nodesOfPending] using nodes_flattenWith_le false t none

/-! ## Free locals -/

theorem hasLocal_withArgs (t : Term) (pending : Option (List Term)) :
    (t.withArgs pending).hasLocal = (t.hasLocal || hasLocalInArgs (pending.getD [])) := by
  cases pending <;> simp [withArgs, hasLocal, hasLocalInArgs]

theorem hasLocalInArgs_flattenArgs {quotes : Bool} {as : List Term}
    (h : ∀ a ∈ as, (flattenWith quotes a none).hasLocal = a.hasLocal) :
    hasLocalInArgs (flattenArgs quotes as) = hasLocalInArgs as := by
  induction as with
  | nil => rfl
  | cons a as ih =>
    rw [List.forall_mem_cons] at h
    simp [flattenArgs, hasLocalInArgs, h.1, ih h.2]

theorem hasLocalInBindings_flattenBindings {quotes : Bool} {bs : List (String × Term)}
    (h : ∀ b ∈ bs, (flattenWith quotes b.2 none).hasLocal = b.2.hasLocal) :
    hasLocalInBindings (flattenBindings quotes bs) = hasLocalInBindings bs := by
  induction bs with
  | nil => rfl
  | cons b bs ih =>
    rw [List.forall_mem_cons] at h
    simp [flattenBindings, hasLocalInBindings, h.1, ih h.2]

theorem hasLocal_flattenWith (quotes : Bool) (t : Term) (pending : Option (List Term)) :
    (flattenWith quotes t pending).hasLocal =
      (t.hasLocal || hasLocalInArgs (pending.getD [])) := by
  induction t using Term.ind generalizing pending with
  | app fn args ihfn ihargs =>
    have hargs : hasLocalInArgs (flattenArgs quotes args) = hasLocalInArgs args :=
      hasLocalInArgs_flattenArgs fun a ha => by simpa [hasLocalInArgs] using ihargs a ha none
    simp [flattenWith, hasLocal, ihfn, hargs, Bool.or_assoc]
  | letIn bindings body ihbindings ihbody =>
    have hbindings :
        hasLocalInBindings (flattenBindings quotes bindings) = hasLocalInBindings bindings :=
      hasLocalInBindings_flattenBindings fun b hb => by
        simpa [hasLocalInArgs] using ihbindings b hb none
    simp [flattenWith, hasLocal_withArgs, hasLocal, ihbody, hbindings, hasLocalInArgs]
  | foreign name args ih =>
    have hargs : hasLocalInArgs (flattenArgs quotes args) = hasLocalInArgs args :=
      hasLocalInArgs_flattenArgs fun a ha => by simpa [hasLocalInArgs] using ih a ha none
    simp [flattenWith, hasLocal_withArgs, hasLocal, hargs]
  | _ => simp_all [flattenWith, hasLocal_withArgs, hasLocal, hasLocalInArgs]

theorem hasLocal_flatten (t : Term) : t.flatten.hasLocal = t.hasLocal := by
  simp [flatten, hasLocal_flattenWith, hasLocalInArgs]

/-! ## Absent parts -/

theorem isComplete_withArgs (t : Term) (pending : Option (List Term)) :
    (t.withArgs pending).isComplete = (t.isComplete && isCompleteArgs (pending.getD [])) := by
  cases pending <;> simp [withArgs, isComplete, isCompleteArgs]

theorem isCompleteArgs_flattenArgs {quotes : Bool} {as : List Term}
    (h : ∀ a ∈ as, (flattenWith quotes a none).isComplete = a.isComplete) :
    isCompleteArgs (flattenArgs quotes as) = isCompleteArgs as := by
  induction as with
  | nil => rfl
  | cons a as ih =>
    rw [List.forall_mem_cons] at h
    simp [flattenArgs, isCompleteArgs, h.1, ih h.2]

theorem isCompleteBindings_flattenBindings {quotes : Bool} {bs : List (String × Term)}
    (h : ∀ b ∈ bs, (flattenWith quotes b.2 none).isComplete = b.2.isComplete) :
    isCompleteBindings (flattenBindings quotes bs) = isCompleteBindings bs := by
  induction bs with
  | nil => rfl
  | cons b bs ih =>
    rw [List.forall_mem_cons] at h
    simp [flattenBindings, isCompleteBindings, h.1, ih h.2]

theorem isComplete_flattenWith (quotes : Bool) (t : Term) (pending : Option (List Term)) :
    (flattenWith quotes t pending).isComplete =
      (t.isComplete && isCompleteArgs (pending.getD [])) := by
  induction t using Term.ind generalizing pending with
  | app fn args ihfn ihargs =>
    have hargs : isCompleteArgs (flattenArgs quotes args) = isCompleteArgs args :=
      isCompleteArgs_flattenArgs fun a ha => by simpa [isCompleteArgs] using ihargs a ha none
    simp [flattenWith, isComplete, ihfn, hargs, Bool.and_assoc]
  | letIn bindings body ihbindings ihbody =>
    have hbindings :
        isCompleteBindings (flattenBindings quotes bindings) = isCompleteBindings bindings :=
      isCompleteBindings_flattenBindings fun b hb => by
        simpa [isCompleteArgs] using ihbindings b hb none
    simp [flattenWith, isComplete_withArgs, isComplete, ihbody, hbindings, isCompleteArgs]
  | quote body ih =>
    cases quotes <;> simp [flattenWith, isComplete_withArgs, isComplete, ih, isCompleteArgs]
  | foreign name args ih =>
    have hargs : isCompleteArgs (flattenArgs quotes args) = isCompleteArgs args :=
      isCompleteArgs_flattenArgs fun a ha => by simpa [isCompleteArgs] using ih a ha none
    simp [flattenWith, isComplete_withArgs, isComplete, hargs]
  | _ => simp_all [flattenWith, isComplete_withArgs, isComplete, isCompleteArgs]

theorem isComplete_flattenDeep (t : Term) : t.flattenDeep.isComplete = t.isComplete := by
  simp [flattenDeep, isComplete_flattenWith, isCompleteArgs]

/-! ## Flatness -/

/-- A term that is no application stays flat when it gets arguments. -/
theorem isFlat_withArgs {t : Term} {pending : Option (List Term)} (hhead : t.isApp = false)
    (ht : t.isFlat = true) (hpending : isFlatArgs (pending.getD []) = true) :
    (t.withArgs pending).isFlat = true := by
  cases pending with
  | none => exact ht
  | some as =>
    have has : isFlatArgs as = true := hpending
    simp [withArgs, isFlat, hhead, ht, has]

theorem isFlatArgs_flattenArgs {quotes : Bool} {as : List Term}
    (h : ∀ a ∈ as, (flattenWith quotes a none).isFlat = true) :
    isFlatArgs (flattenArgs quotes as) = true := by
  induction as with
  | nil => rfl
  | cons a as ih =>
    rw [List.forall_mem_cons] at h
    simp [flattenArgs, isFlatArgs, h.1, ih h.2]

theorem isFlatBindings_flattenBindings {quotes : Bool} {bs : List (String × Term)}
    (h : ∀ b ∈ bs, (flattenWith quotes b.2 none).isFlat = true) :
    isFlatBindings (flattenBindings quotes bs) = true := by
  induction bs with
  | nil => rfl
  | cons b bs ih =>
    rw [List.forall_mem_cons] at h
    simp [flattenBindings, isFlatBindings, h.1, ih h.2]

theorem isFlat_flattenWith (quotes : Bool) (t : Term) (pending : Option (List Term))
    (hpending : isFlatArgs (pending.getD []) = true) :
    (flattenWith quotes t pending).isFlat = true := by
  induction t using Term.ind generalizing pending with
  | app fn args ihfn ihargs =>
    have hargs : isFlatArgs (flattenArgs quotes args) = true :=
      isFlatArgs_flattenArgs fun a ha => ihargs a ha none rfl
    exact ihfn _ (by simp [hargs, hpending])
  | letIn bindings body ihbindings ihbody =>
    have hbindings : isFlatBindings (flattenBindings quotes bindings) = true :=
      isFlatBindings_flattenBindings fun b hb => ihbindings b hb none rfl
    exact isFlat_withArgs rfl (by simp [isFlat, hbindings, ihbody none rfl]) hpending
  | foreign name args ih =>
    have hargs : isFlatArgs (flattenArgs quotes args) = true :=
      isFlatArgs_flattenArgs fun a ha => ih a ha none rfl
    exact isFlat_withArgs rfl (by simp [isFlat, hargs]) hpending
  | lam binder body ih => exact isFlat_withArgs rfl (by simp [isFlat, ih none rfl]) hpending
  | pi binder domain body ihdomain ihbody =>
    exact isFlat_withArgs rfl (by simp [isFlat, ihdomain none rfl, ihbody none rfl]) hpending
  | ann name body ih => exact isFlat_withArgs rfl (by simp [isFlat, ih none rfl]) hpending
  | _ => exact isFlat_withArgs rfl rfl hpending

theorem isFlat_flatten (t : Term) : t.flatten.isFlat = true :=
  isFlat_flattenWith false t none rfl

/-! ## Chains -/

theorem isApp_spine (t : Term) : t.spine.1.isApp = false := by
  induction t using Term.ind with
  | app fn args ihfn ihargs => exact ihfn
  | _ => rfl

theorem spine_of_isApp {t : Term} (h : t.isApp = false) : t.spine = (t, []) := by
  cases t with
  | app fn args => cases h
  | _ => rfl

theorem hasLocal_spine (t : Term) :
    t.hasLocal = (t.spine.1.hasLocal || hasLocalInArgs t.spine.2) := by
  induction t using Term.ind with
  | app fn args ihfn ihargs => simp [hasLocal, spine, ihfn, Bool.or_assoc]
  | _ => simp [spine, hasLocalInArgs]

/-- With arguments pending, a term is collapsed into the node of its whole chain. -/
theorem flattenWith_some (quotes : Bool) (t : Term) (as : List Term) :
    flattenWith quotes t (some as) =
      .app (flattenWith quotes t.spine.1 none) (flattenArgs quotes t.spine.2 ++ as) := by
  induction t using Term.ind generalizing as with
  | app fn args ihfn ihargs =>
    simp [flattenWith, spine, ihfn, flattenArgs_append]
  | _ => rfl

theorem flatten_app (fn : Term) (args : List Term) :
    (app fn args).flatten =
      .app (app fn args).spine.1.flatten ((app fn args).spine.2.map flatten) := by
  have happ : (app fn args).flatten = fn.flattenWith false (some (flattenArgs false args)) := by
    simp [flatten, flattenWith]
  rw [happ, flattenWith_some, ← flattenArgs_append, flattenArgs_eq_map]
  rfl

theorem isApp_flatten (t : Term) : t.flatten.isApp = t.isApp := by
  cases t with
  | app fn args =>
    rw [flatten_app]
    rfl
  | _ => rfl

theorem spine_flatten (t : Term) : t.flatten.spine = (t.spine.1.flatten, t.spine.2.map flatten) := by
  by_cases h : t.isApp = true
  · cases t with
    | app fn args =>
      have hhead : (app fn args).spine.1.flatten.isApp = false := by
        rw [isApp_flatten, isApp_spine]
      rw [flatten_app, spine, spine_of_isApp hhead]
      rfl
    | _ => cases h
  · rw [Bool.not_eq_true] at h
    rw [spine_of_isApp h, spine_of_isApp (by rw [isApp_flatten, h])]
    rfl

theorem flatten_letIn (bindings : List (String × Term)) (body : Term) :
    (letIn bindings body).flatten =
      .letIn (bindings.map fun b => (b.1, b.2.flatten)) body.flatten := by
  show letIn (flattenBindings false bindings) body.flatten = _
  rw [flattenBindings_eq_map]
  rfl

theorem arity_flatten (t : Term) : t.flatten.arity = t.arity := by
  induction t using Term.ind with
  | app fn args ihfn ihargs =>
    rw [flatten_app]
    rfl
  | lam binder body ih => exact congrArg (· + 1) ih
  | _ => rfl

end TermVM.Term
