/-
  TermVM.Term.Instantiate

  Instantiation of loose variables in `vmgen`'s terms, and the test for them
  (`InstantiateRev`, `HasLooseVars`).  Quotations are left untouched by the one
  and not entered by the other: their contents are data.
-/
import TermVM.Term.Basic

namespace TermVM.Term

mutual

/-- Replaces the variables of a term that point past `depth` binders.  `subst` lists the
    replacements from the innermost variable outwards and is inserted unchanged; variables
    beyond it are lowered by its length. -/
def instantiateAt (subst : List Term) : Nat → Term → Term
  | depth, var i =>
      if i.toNat < depth then var i
      else match subst[i.toNat - depth]? with
        | some t => t
        | none => var (i - UInt32.ofNat subst.length)
  | depth, app fn args => app (instantiateAt subst depth fn) (instantiateArgs subst depth args)
  | depth, lam binder body => lam binder (instantiateAt subst (depth + 1) body)
  | depth, pi binder domain body =>
      pi binder (instantiateAt subst depth domain) (instantiateAt subst (depth + 1) body)
  | depth, letIn bindings body =>
      letIn (instantiateBindings subst depth bindings)
        (instantiateAt subst (depth + bindings.length) body)
  | depth, ann name body => ann name (instantiateAt subst depth body)
  | depth, foreign name args => foreign name (instantiateArgs subst depth args)
  | _, t => t

/-- Instantiates every term of a list at one depth. -/
def instantiateArgs (subst : List Term) : Nat → List Term → List Term
  | _, [] => []
  | depth, a :: as => instantiateAt subst depth a :: instantiateArgs subst depth as

/-- Instantiates bound values, each one binder deeper than the one before it. -/
def instantiateBindings (subst : List Term) : Nat → List (String × Term) → List (String × Term)
  | _, [] => []
  | depth, (n, v) :: bs =>
      (n, instantiateAt subst depth v) :: instantiateBindings subst (depth + 1) bs

end

/-- Replaces the loose variables of a term by `subst`, whose last element stands for the
    innermost variable. -/
def instantiate (t : Term) (subst : List Term) : Term :=
  t.instantiateAt subst.reverse 0

mutual

/-- Whether a term mentions a variable that points past `depth` binders. -/
def looseAbove : Nat → Term → Bool
  | depth, var i => depth ≤ i.toNat
  | depth, app fn args => looseAbove depth fn || looseInArgs depth args
  | depth, lam _ body => looseAbove (depth + 1) body
  | depth, pi _ domain body => looseAbove depth domain || looseAbove (depth + 1) body
  | depth, letIn bindings body =>
      looseInBindings depth bindings || looseAbove (depth + bindings.length) body
  | depth, ann _ body => looseAbove depth body
  | depth, foreign _ args => looseInArgs depth args
  | _, _ => false

/-- Whether some term of a list mentions a variable past `depth` binders. -/
def looseInArgs : Nat → List Term → Bool
  | _, [] => false
  | depth, a :: as => looseAbove depth a || looseInArgs depth as

/-- Whether some bound value mentions a variable past the binders it stands under. -/
def looseInBindings : Nat → List (String × Term) → Bool
  | _, [] => false
  | depth, (_, v) :: bs => looseAbove depth v || looseInBindings (depth + 1) bs

end

/-- Whether a term mentions a variable not bound inside it. -/
def hasLooseVars (t : Term) : Bool :=
  t.looseAbove 0

end TermVM.Term
