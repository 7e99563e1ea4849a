/-
  TermVM.Proofs.Term.Induction

  Induction on terms, and the measures of a term that proofs about it use.

  A term holds lists of terms, so the recursive functions on terms come in
  families, one member per kind of list.  `Term.ind` replaces the family by one
  principle whose hypotheses speak about the members of a list; the equations
  after each definition turn its list members into the library's operations on
  lists, so that proofs see only those.
-/
import TermVM.Term.Size

namespace TermVM.Term

/-- Induction on terms: a property holds of a term when it holds of its parts. -/
@[elab_as_elim]
theorem ind {ν : Type} {motive : Term ν → Prop}
    (absent : motive .absent)
    (var : ∀ i, motive (.var i))
    (sort : ∀ level, motive (.sort level))
    (mvar : ∀ name, motive (.mvar name))
    (const : ∀ name marker, motive (.const name marker))
    (fvar : ∀ id name, motive (.fvar id name))
    (app : ∀ fn args, motive fn → (∀ a ∈ args, motive a) → motive (.app fn args))
    (lam : ∀ binder body, motive body → motive (.lam binder body))
    (pi : ∀ binder domain body, motive domain → motive body → motive (.pi binder domain body))
    (letIn : ∀ bindings body, (∀ b ∈ bindings, motive b.2) → motive body →
      motive (.letIn bindings body))
    (nat : ∀ value, motive (.nat value))
    (quote : ∀ body, motive body → motive (.quote body))
    (ann : ∀ name body, motive body → motive (.ann name body))
    (foreign : ∀ name args, (∀ a ∈ args, motive a) → motive (.foreign name args))
    (t : Term ν) : motive t := by
  refine @Term.rec ν motive (fun as => ∀ a ∈ as, motive a) (fun bs => ∀ b ∈ bs, motive b.2)
    (fun b => motive b.2) absent var sort mvar const fvar app lam pi letIn nat quote ann foreign
    ?_ ?_ ?_ ?_ ?_ t
  · exact fun a ha => absurd ha List.not_mem_nil
  · exact fun a as ha has => List.forall_mem_cons.mpr ⟨ha, has⟩
  · exact fun b hb => absurd hb List.not_mem_nil
  · exact fun b bs hb hbs => List.forall_mem_cons.mpr ⟨hb, hbs⟩
  · exact fun _ _ h => h

/-! ## The size of a term -/

theorem arity_lt_nodes (t : Term) : t.arity < t.nodes := by
  induction t using Term.ind with
  | lam binder body ih => simpa [arity, nodes] using ih
  | _ => simp [arity, nodes]

theorem length_le_nodesOfArgs (as : List Term) : as.length ≤ nodesOfArgs as := by
  induction as with
  | nil => simp
  | cons a as ih =>
    have := a.nodes_pos
    simp only [List.length_cons, nodesOfArgs]
    omega

theorem length_le_nodesOfBindings (bs : List (String × Term)) :
    bs.length ≤ nodesOfBindings bs := by
  induction bs with
  | nil => simp
  | cons b bs ih =>
    have := b.2.nodes_pos
    simp only [List.length_cons, nodesOfBindings]
    omega

theorem nodes_le_of_mem {as : List Term} {a : Term} (h : a ∈ as) : a.nodes ≤ nodesOfArgs as := by
  induction as with
  | nil => cases h
  | cons b as ih =>
    rw [nodesOfArgs]
    rcases List.mem_cons.mp h with rfl | h
    · omega
    · have := ih h
      omega

theorem nodes_le_of_mem_bindings {bs : List (String × Term)} {b : String × Term} (h : b ∈ bs) :
    b.2.nodes ≤ nodesOfBindings bs := by
  induction bs with
  | nil => cases h
  | cons c bs ih =>
    rw [nodesOfBindings]
    rcases List.mem_cons.mp h with rfl | h
    · omega
    · have := ih h
      omega

/-! ## Free locals -/

mutual

/-- Whether a term mentions a free local outside quotations. -/
def hasLocal : Term → Bool
  | fvar .. => true
  | app fn args => fn.hasLocal || hasLocalInArgs args
  | lam _ body => body.hasLocal
  | pi _ domain body => domain.hasLocal || body.hasLocal
  | letIn bindings body => hasLocalInBindings bindings || body.hasLocal
  | ann _ body => body.hasLocal
  | foreign _ args => hasLocalInArgs args
  | _ => false

/-- Whether a term of a list mentions a free local. -/
def hasLocalInArgs : List Term → Bool
  | [] => false
  | a :: as => a.hasLocal || hasLocalInArgs as

/-- Whether a bound value mentions a free local. -/
def hasLocalInBindings : List (String × Term) → Bool
  | [] => false
  | (_, v) :: bs => v.hasLocal || hasLocalInBindings bs

end

theorem hasLocal_of_mem {as : List Term} {a : Term} (h : hasLocalInArgs as = false)
    (ha : a ∈ as) : a.hasLocal = false := by
  induction as with
  | nil => cases ha
  | cons b as ih =>
    obtain ⟨hfirst, hrest⟩ := Bool.or_eq_false_iff.mp h
    rcases List.mem_cons.mp ha with rfl | ha
    · exact hfirst
    · exact ih hrest ha

theorem hasLocal_of_mem_bindings {bs : List (String × Term)} {b : String × Term}
    (h : hasLocalInBindings bs = false) (hb : b ∈ bs) : b.2.hasLocal = false := by
  induction bs with
  | nil => cases hb
  | cons c bs ih =>
    obtain ⟨hfirst, hrest⟩ := Bool.or_eq_false_iff.mp h
    rcases List.mem_cons.mp hb with rfl | hb
    · exact hfirst
    · exact ih hrest hb

@[simp] theorem hasLocalInArgs_append (as bs : List Term) :
    hasLocalInArgs (as ++ bs) = (hasLocalInArgs as || hasLocalInArgs bs) := by
  induction as with
  | nil => simp [hasLocalInArgs]
  | cons a as ih => simp [hasLocalInArgs, ih, Bool.or_assoc]

/-! ## Absent parts -/

section

variable {ν : Type}

mutual

/-- Whether no part of a term is absent, quoted parts included. -/
def isComplete : Term ν → Bool
  | absent => false
  | app fn args => fn.isComplete && isCompleteArgs args
  | lam _ body => body.isComplete
  | pi _ domain body => domain.isComplete && body.isComplete
  | letIn bindings body => isCompleteBindings bindings && body.isComplete
  | quote body => body.isComplete
  | ann _ body => body.isComplete
  | foreign _ args => isCompleteArgs args
  | _ => true

/-- Whether all terms of a list are complete. -/
def isCompleteArgs : List (Term ν) → Bool
  | [] => true
  | a :: as => a.isComplete && isCompleteArgs as

/-- Whether all bound values are complete. -/
def isCompleteBindings : List (ν × Term ν) → Bool
  | [] => true
  | (_, v) :: bs => v.isComplete && isCompleteBindings bs

end

@[simp] theorem isCompleteArgs_append (as bs : List (Term ν)) :
    isCompleteArgs (as ++ bs) = (isCompleteArgs as && isCompleteArgs bs) := by
  induction as with
  | nil => simp [isCompleteArgs]
  | cons a as ih => simp [isCompleteArgs, ih, Bool.and_assoc]

end

/-! ## Flat terms -/

/-- Whether a term is an application. -/
def isApp : Term → Bool
  | app .. => true
  | _ => false

mutual

/-- Whether every application chain outside quotations is a single node. -/
def isFlat : Term → Bool
  | app fn args => !fn.isApp && fn.isFlat && isFlatArgs args
  | lam _ body => body.isFlat
  | pi _ domain body => domain.isFlat && body.isFlat
  | letIn bindings body => isFlatBindings bindings && body.isFlat
  | ann _ body => body.isFlat
  | foreign _ args => isFlatArgs args
  | _ => true

/-- Whether all terms of a list are flat. -/
def isFlatArgs : List Term → Bool
  | [] => true
  | a :: as => a.isFlat && isFlatArgs as

/-- Whether all bound values are flat. -/
def isFlatBindings : List (String × Term) → Bool
  | [] => true
  | (_, v) :: bs => v.isFlat && isFlatBindings bs

end

theorem isFlat_of_mem {as : List Term} {a : Term} (h : isFlatArgs as = true) (ha : a ∈ as) :
    a.isFlat = true := by
  induction as with
  | nil => cases ha
  | cons b as ih =>
    obtain ⟨hfirst, hrest⟩ := Bool.and_eq_true_iff.mp h
    rcases List.mem_cons.mp ha with rfl | ha
    · exact hfirst
    · exact ih hrest ha

theorem isFlat_of_mem_bindings {bs : List (String × Term)} {b : String × Term}
    (h : isFlatBindings bs = true) (hb : b ∈ bs) : b.2.isFlat = true := by
  induction bs with
  | nil => cases hb
  | cons c bs ih =>
    obtain ⟨hfirst, hrest⟩ := Bool.and_eq_true_iff.mp h
    rcases List.mem_cons.mp hb with rfl | hb
    · exact hfirst
    · exact ih hrest hb

@[simp] theorem isFlatArgs_append (as bs : List Term) :
    isFlatArgs (as ++ bs) = (isFlatArgs as && isFlatArgs bs) := by
  induction as with
  | nil => simp [isFlatArgs]
  | cons a as ih => simp [isFlatArgs, ih, Bool.and_assoc]

end TermVM.Term
