/-
  TermVM.Term.Size

  The size of a term.

  An application chain is larger than its parts, and a local that takes the
  place of a variable is a node like it.  So code generation that opens binders
  goes on with smaller terms.
-/
import TermVM.Term.Instantiate
import TermVM.Term.Spine

namespace TermVM.Term

mutual

/-- The number of nodes of a term, those inside quotations included. -/
def nodes : Term → Nat
  | app fn args => fn.nodes + nodesOfArgs args + 1
  | lam _ body => body.nodes + 1
  | pi _ domain body => domain.nodes + body.nodes + 1
  | letIn bindings body => nodesOfBindings bindings + body.nodes + 1
  | quote body => body.nodes + 1
  | ann _ body => body.nodes + 1
  | foreign _ args => nodesOfArgs args + 1
  | _ => 1

/-- The number of nodes of a list of terms. -/
def nodesOfArgs : List Term → Nat
  | [] => 0
  | a :: as => a.nodes + nodesOfArgs as

/-- The number of nodes of the values of a list of bindings. -/
def nodesOfBindings : List (String × Term) → Nat
  | [] => 0
  | (_, v) :: bs => v.nodes + nodesOfBindings bs

end

theorem nodes_pos (t : Term) : 0 < t.nodes := by
  cases t <;> simp [nodes]

@[simp] theorem nodesOfArgs_append (as bs : List Term) :
    nodesOfArgs (as ++ bs) = nodesOfArgs as + nodesOfArgs bs := by
  induction as with
  | nil => simp [nodesOfArgs]
  | cons a as ih => simp [nodesOfArgs, ih, Nat.add_assoc]

/-- A chain has a node for each application besides those of its head and its arguments. -/
theorem nodes_spine_le (t : Term) : t.spine.1.nodes + nodesOfArgs t.spine.2 ≤ t.nodes := by
  induction t using spine.induct with
  | case1 fn args ih =>
    simp only [spine, nodesOfArgs_append, nodes]
    omega
  | case2 t hnot => simp [spine, nodesOfArgs]

/-! ## Under instantiation -/

theorem nodes_instantiateAt_var {subst : List Term} (h : ∀ u ∈ subst, u.nodes = 1) (k : Nat)
    (i : UInt32) : ((var i).instantiateAt subst k).nodes = 1 := by
  rw [instantiateAt]
  split
  · rfl
  · split
    · rename_i u hu
      exact h u (List.mem_of_getElem? hu)
    · rfl

mutual

/-- Replacements of one node leave the number of nodes as it is. -/
theorem nodes_instantiateAt {subst : List Term} (h : ∀ u ∈ subst, u.nodes = 1) (k : Nat)
    (t : Term) : (t.instantiateAt subst k).nodes = t.nodes := by
  cases t with
  | var i => exact nodes_instantiateAt_var h k i
  | app fn args =>
    rw [instantiateAt, nodes, nodes, nodes_instantiateAt h k fn,
      nodesOfArgs_instantiateArgs h k args]
  | lam binder body => rw [instantiateAt, nodes, nodes, nodes_instantiateAt h (k + 1) body]
  | pi binder domain body =>
    rw [instantiateAt, nodes, nodes, nodes_instantiateAt h k domain,
      nodes_instantiateAt h (k + 1) body]
  | letIn bindings body =>
    rw [instantiateAt, nodes, nodes, nodesOfBindings_instantiateBindings h k bindings,
      nodes_instantiateAt h (k + bindings.length) body]
  | ann name body => rw [instantiateAt, nodes, nodes, nodes_instantiateAt h k body]
  | foreign name args => rw [instantiateAt, nodes, nodes, nodesOfArgs_instantiateArgs h k args]
  | _ => rfl

theorem nodesOfArgs_instantiateArgs {subst : List Term} (h : ∀ u ∈ subst, u.nodes = 1) (k : Nat)
    (as : List Term) : nodesOfArgs (instantiateArgs subst k as) = nodesOfArgs as := by
  cases as with
  | nil => rfl
  | cons a as =>
    rw [instantiateArgs, nodesOfArgs, nodesOfArgs, nodes_instantiateAt h k a,
      nodesOfArgs_instantiateArgs h k as]

theorem nodesOfBindings_instantiateBindings {subst : List Term} (h : ∀ u ∈ subst, u.nodes = 1)
    (k : Nat) (bs : List (String × Term)) :
    nodesOfBindings (instantiateBindings subst k bs) = nodesOfBindings bs := by
  cases bs with
  | nil => rfl
  | cons b bs =>
    rw [instantiateBindings, nodesOfBindings, nodesOfBindings, nodes_instantiateAt h k b.2,
      nodesOfBindings_instantiateBindings h (k + 1) bs]

end

end TermVM.Term
