/-
  TermVM.Term.Spine

  Application chains of `vmgen`'s terms (`Spine`, `Head`).  `f x (y z)` may
  arrive as one application node or as a chain of them; code generation and
  fingerprints look only at the head of the chain and at all arguments together.
  `flatten` puts every chain of a term into one node, so that both can recurse
  on the term itself.
-/
import TermVM.Term.Basic

namespace TermVM.Term

/-- The head of an application chain and all its arguments in order. -/
def spine : Term → Term × List Term
  | app fn args => (fn.spine.1, fn.spine.2 ++ args)
  | t => (t, [])

/-- The head of an application chain. -/
def head : Term → Term
  | app fn _ => fn.head
  | t => t

/-- A term with the pending arguments of the chain it heads, if it heads one. -/
def withArgs (t : Term) : Option (List Term) → Term
  | none => t
  | some args => app t args

mutual

/-- Collapses every application chain into a single node.  `pending` holds the collapsed
    arguments of the chain the term stands at the head of.  Quotations are data: they are
    entered only when `quotes` is set. -/
def flattenWith (quotes : Bool) : Term → Option (List Term) → Term
  | app fn args, pending =>
      flattenWith quotes fn (some (flattenArgs quotes args ++ pending.getD []))
  | lam binder body, pending => (lam binder (flattenWith quotes body none)).withArgs pending
  | pi binder domain body, pending =>
      (pi binder (flattenWith quotes domain none) (flattenWith quotes body none)).withArgs pending
  | letIn bindings body, pending =>
      (letIn (flattenBindings quotes bindings) (flattenWith quotes body none)).withArgs pending
  | quote body, pending =>
      (quote (if quotes then flattenWith quotes body none else body)).withArgs pending
  | ann name body, pending => (ann name (flattenWith quotes body none)).withArgs pending
  | foreign name args, pending => (foreign name (flattenArgs quotes args)).withArgs pending
  | t, pending => t.withArgs pending

/-- Collapses the chains of every term of a list. -/
def flattenArgs (quotes : Bool) : List Term → List Term
  | [] => []
  | a :: as => flattenWith quotes a none :: flattenArgs quotes as

/-- Collapses the chains of every bound value. -/
def flattenBindings (quotes : Bool) : List (String × Term) → List (String × Term)
  | [] => []
  | (n, v) :: bs => (n, flattenWith quotes v none) :: flattenBindings quotes bs

end

/-- Every application chain outside quotations as one node. -/
def flatten (t : Term) : Term :=
  t.flattenWith false none

/-- Every application chain, also inside quotations, as one node. -/
def flattenDeep (t : Term) : Term :=
  t.flattenWith true none

end TermVM.Term
