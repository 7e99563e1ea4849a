/-
  TermVM.Term.Basic

  The erased terms that `vmgen` compiles (`Term`).  Proofs and types are gone,
  recursors have become marked constants, and bound variables are de Bruijn
  indices counted from the innermost binder.  A term that a producer failed to
  fill in is `absent`; it can stand anywhere a term can.
-/
import TermVM.Marker

namespace TermVM

/-- An erased term.  Its names are text, except where terms are written: what is written may have any
    byte strings for names. -/
inductive Term (ν : Type := String) where
  /-- A missing term. -/
  | absent
  /-- A bound variable, counted from the innermost binder. -/
  | var (index : UInt32)
  /-- A universe; erasure removes these. -/
  | sort (level : ν)
  /-- A metavariable; elaboration removes these. -/
  | mvar (name : ν)
  /-- A global, with the marker erasure put on it. -/
  | const (name : ν) (marker : Marker)
  /-- A free local with a stable identity. -/
  | fvar (id : UInt64) (name : ν)
  /-- An application; the function may itself be an application. -/
  | app (fn : Term ν) (args : List (Term ν))
  /-- A function of one variable. -/
  | lam (binder : ν) (body : Term ν)
  /-- A dependent function type; erasure removes these. -/
  | pi (binder : ν) (domain body : Term ν)
  /-- Bindings made in order, each in sight of the earlier ones, then a body in sight of all. -/
  | letIn (bindings : List (ν × Term ν)) (body : Term ν)
  /-- An arbitrary-precision literal. -/
  | nat (value : Int)
  /-- A term kept as data for inspection at run time. -/
  | quote (body : Term ν)
  /-- A name attached to a term, without meaning at run time. -/
  | ann (name : ν) (body : Term ν)
  /-- An extension node this library does not interpret. -/
  | foreign (name : ν) (args : List (Term ν))
  deriving Repr, Inhabited

/-- The shape of a term.  Literals, quotations, annotations and foreign nodes are all extensions. -/
inductive Kind where
  | var
  | sort
  | const
  | mvar
  | fvar
  | app
  | lam
  | pi
  | letIn
  | extension
  deriving DecidableEq, Repr

namespace Kind

/-- The name of a shape in messages and listings. -/
def name : Kind → String
  | var => "Var"
  | sort => "Sort"
  | const => "Constant"
  | mvar => "Meta"
  | fvar => "Local"
  | app => "App"
  | lam => "Lambda"
  | pi => "Pi"
  | letIn => "Let"
  | extension => "Macro"

/-- The byte of a shape on the wire. -/
def toByte : Kind → UInt8
  | var => 1
  | sort => 2
  | const => 3
  | mvar => 4
  | fvar => 5
  | app => 6
  | lam => 7
  | pi => 8
  | letIn => 9
  | extension => 10

/-- The shape of a byte, if it names one. -/
def ofByte? (b : UInt8) : Option Kind :=
  match b.toNat with
  | 1 => some var
  | 2 => some sort
  | 3 => some const
  | 4 => some mvar
  | 5 => some fvar
  | 6 => some app
  | 7 => some lam
  | 8 => some pi
  | 9 => some letIn
  | 10 => some extension
  | _ => none

/-- The name of a byte that should name a shape. -/
def nameOfByte (b : UInt8) : String :=
  match ofByte? b with
  | some k => k.name
  | none => "Kind(" ++ Text.decimal b.toNat ++ ")"

end Kind

namespace Term

/-- The constant for zero, recognised without a table entry. -/
def natZero : String := "nat.zero"

/-- The eliminator of natural numbers, recognised without a table entry. -/
def natCasesOn : String := "nat.cases_on"

/-- An ordinary constant. -/
def global (name : String) : Term := .const name .none

/-- The constant that stands for a marker: its name is the marker's printed form. -/
def marked (kind : MarkerKind) (index : UInt32) : Term :=
  .const (Marker.text ⟨kind, index⟩) ⟨kind, index⟩

/-- An application, or the function itself when there is nothing to apply it to. -/
def applied (fn : Term) (args : List Term) : Term :=
  if args.isEmpty then fn else .app fn args

/-- One function per binder around a body, outermost first. -/
def lams (binders : List String) (body : Term) : Term :=
  binders.foldr .lam body

/-- The shape of a term; an absent term has none. -/
def kind? : Term → Option Kind
  | absent => none
  | var .. => some .var
  | sort .. => some .sort
  | mvar .. => some .mvar
  | const .. => some .const
  | fvar .. => some .fvar
  | app .. => some .app
  | lam .. => some .lam
  | pi .. => some .pi
  | letIn .. => some .letIn
  | nat .. => some .extension
  | quote .. => some .extension
  | ann .. => some .extension
  | foreign .. => some .extension

/-- The tag of an extension node in diagnostics. -/
def tag? : Term → Option String
  | nat .. => some "nat_value"
  | quote .. => some "quote"
  | ann .. => some "annotation"
  | foreign name _ => some name
  | _ => none

/-- The number of leading lambdas. -/
def arity : Term → Nat
  | lam _ body => body.arity + 1
  | _ => 0

/-- The index a constant carries under a marker of the given kind. -/
def markedIndex? (kind : MarkerKind) : Term → Option UInt32
  | const _ marker => if marker.kind = kind then some marker.index else none
  | _ => none

/-- Whether a term is the ordinary constant of the given name. -/
def isGlobal (name : String) : Term → Bool
  | const n marker => n == name && marker.kind == .plain
  | _ => false

mutual

/-- The constants of a term in visiting order; quotations are data and are not entered. -/
def constants : Term → List (String × Marker)
  | const name marker => [(name, marker)]
  | app fn args => fn.constants ++ constantsOfArgs args
  | lam _ body => body.constants
  | pi _ domain body => domain.constants ++ body.constants
  | letIn bindings body => constantsOfBindings bindings ++ body.constants
  | ann _ body => body.constants
  | foreign _ args => constantsOfArgs args
  | _ => []

/-- The constants of a list of terms. -/
def constantsOfArgs : List Term → List (String × Marker)
  | [] => []
  | a :: as => a.constants ++ constantsOfArgs as

/-- The constants of the values of a list of bindings. -/
def constantsOfBindings : List (String × Term) → List (String × Marker)
  | [] => []
  | (_, v) :: bs => v.constants ++ constantsOfBindings bs

end

/-! ## Equality is decidable -/

section

variable {ν : Type} [DecidableEq ν]

mutual

/-- Decides whether two terms are the same node for node. -/
def decEq : (a b : Term ν) → Decidable (a = b)
  | absent, b => by
      cases b with
      | absent => exact isTrue rfl
      | _ => exact isFalse (by simp)
  | var i, b => by
      cases b with
      | var j =>
        exact decidable_of_iff (i = j) (by simp)
      | _ => exact isFalse (by simp)
  | sort l, b => by
      cases b with
      | sort l' =>
        exact decidable_of_iff (l = l') (by simp)
      | _ => exact isFalse (by simp)
  | mvar n, b => by
      cases b with
      | mvar n' =>
        exact decidable_of_iff (n = n') (by simp)
      | _ => exact isFalse (by simp)
  | const n m, b => by
      cases b with
      | const n' m' =>
        exact decidable_of_iff (n = n' ∧ m = m') (by simp)
      | _ => exact isFalse (by simp)
  | fvar i n, b => by
      cases b with
      | fvar i' n' =>
        exact decidable_of_iff (i = i' ∧ n = n') (by simp)
      | _ => exact isFalse (by simp)
  | app f as, b => by
      cases b with
      | app f' as' =>
        have := decEq f f'
        have := decEqArgs as as'
        exact decidable_of_iff (f = f' ∧ as = as') (by simp)
      | _ => exact isFalse (by simp)
  | lam n t, b => by
      cases b with
      | lam n' t' =>
        have := decEq t t'
        exact decidable_of_iff (n = n' ∧ t = t') (by simp)
      | _ => exact isFalse (by simp)
  | pi n s t, b => by
      cases b with
      | pi n' s' t' =>
        have := decEq s s'
        have := decEq t t'
        exact decidable_of_iff (n = n' ∧ s = s' ∧ t = t') (by simp)
      | _ => exact isFalse (by simp)
  | letIn bs t, b => by
      cases b with
      | letIn bs' t' =>
        have := decEqBindings bs bs'
        have := decEq t t'
        exact decidable_of_iff (bs = bs' ∧ t = t') (by simp)
      | _ => exact isFalse (by simp)
  | nat v, b => by
      cases b with
      | nat v' =>
        exact decidable_of_iff (v = v') (by simp)
      | _ => exact isFalse (by simp)
  | quote t, b => by
      cases b with
      | quote t' =>
        have := decEq t t'
        exact decidable_of_iff (t = t') (by simp)
      | _ => exact isFalse (by simp)
  | ann n t, b => by
      cases b with
      | ann n' t' =>
        have := decEq t t'
        exact decidable_of_iff (n = n' ∧ t = t') (by simp)
      | _ => exact isFalse (by simp)
  | foreign n as, b => by
      cases b with
      | foreign n' as' =>
        have := decEqArgs as as'
        exact decidable_of_iff (n = n' ∧ as = as') (by simp)
      | _ => exact isFalse (by simp)

/-- Decides whether two lists of terms are the same. -/
def decEqArgs : (as bs : List (Term ν)) → Decidable (as = bs)
  | [], [] => isTrue rfl
  | [], _ :: _ => isFalse nofun
  | _ :: _, [] => isFalse nofun
  | a :: as, b :: bs =>
      have := decEq a b
      have := decEqArgs as bs
      decidable_of_iff (a = b ∧ as = bs) (by simp)

/-- Decides whether two lists of bindings are the same. -/
def decEqBindings : (as bs : List (ν × Term ν)) → Decidable (as = bs)
  | [], [] => isTrue rfl
  | [], _ :: _ => isFalse nofun
  | _ :: _, [] => isFalse nofun
  | (n, a) :: as, (m, b) :: bs =>
      have := decEq a b
      have := decEqBindings as bs
      decidable_of_iff ((n = m ∧ a = b) ∧ as = bs) (by simp)

end

instance : DecidableEq (Term ν) := decEq

end

end Term

/-- One named closed term of a batch. -/
structure Declaration where
  name : String
  value : Term
  deriving Repr, Inhabited, DecidableEq

end TermVM
