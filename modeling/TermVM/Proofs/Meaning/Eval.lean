/-
  TermVM.Proofs.Meaning.Eval

  What a term means.

  An interpretation gives a type of values and the primitive operations of the
  machine on them.  `eval` computes the value of a term in an environment,
  innermost binder first, by recursion on the term as it is: it knows neither
  frames nor code, and it looks at application chains only through the pending
  arguments it carries along.

  Evaluation is strict.  The arguments of a call are evaluated last to first,
  then the head; the fields of a constructor first to last.  It may end without
  a value: in a trap, at a value that does not fit the alternatives it is
  analysed by, or at a term that has no meaning.
-/
import TermVM.Codegen
import TermVM.Proofs.Result
import TermVM.Proofs.Term.Flatten

namespace TermVM.Meaning

open Codegen

/-! ## Interpretations -/

/-- How a value is taken apart. -/
inductive Dispatch where
  | destruct
  | binary
  | table
  | natural
  | analyzer (index : UInt32)
  deriving DecidableEq, Repr

/-- A type of values with the primitive operations. -/
structure Interp (V : Type) where
  cnstr : (index : UInt32) → (fields : List V) → V
  literal : Int → V
  quotation : Term → V
  proj : (index : UInt32) → V → V
  apply : (callable argument : V) → V
  call : (index : UInt32) → (args : List V) → V
  close : (index : UInt32) → (args : List V) → V
  /-- The number of the alternative that a value belongs to, and its fields. -/
  dispatch : Dispatch → V → Nat × List V

/-- Why there is no value. -/
inductive Halt where
  /-- A place that is marked unreachable was reached. -/
  | trap
  /-- A value does not fit the alternatives it is analysed by. -/
  | mismatch
  /-- What is to be done has no meaning. -/
  | stuck
  deriving DecidableEq, Repr

/-- A value, or why there is none. -/
abbrev Outcome (V : Type) := Except Halt V

namespace Interp

variable {V : Type} (I : Interp V)

/-- Applies a value to arguments, one after the other. -/
def applyAll (f : V) (args : List V) : V :=
  args.foldl I.apply f

/-- Calls a declaration with the arguments it takes and applies the result to the others; a
    declaration that takes more arguments is closed over those it has got. -/
def enter (d : Decl) (args : List V) : V :=
  if args.length < d.arity.toNat then I.close d.index args
  else I.applyAll (I.call d.index (args.take d.arity.toNat)) (args.drop d.arity.toNat)

/-- The alternative and the fields of a value.  Where there is one alternative there is no
    choice. -/
def select : Dispatch → V → Nat × List V
  | .destruct, v => (0, (I.dispatch .destruct v).2)
  | kind, v => I.dispatch kind v

end Interp

/-! ## Arguments -/

/-- What an argument can be used for: its value, or its code as an alternative that takes
    fields. -/
structure Arg (V : Type) where
  value : Outcome V
  branch : List V → Outcome V

section

variable {V : Type}

/-- Evaluates arguments last to first. -/
def lastToFirst : List (Arg V) → Outcome (List V)
  | [] => return []
  | a :: as => do
      let vs ← lastToFirst as
      let v ← a.value
      return v :: vs

/-- Evaluates arguments first to last. -/
def firstToLast : List (Arg V) → Outcome (List V)
  | [] => return []
  | a :: as => do
      let v ← a.value
      let vs ← firstToLast as
      return v :: vs

/-- What a term is wanted for. -/
inductive Use (V : Type) where
  /-- For its value, or to be applied to pending arguments. -/
  | chain (pending : Option (List (Arg V)))
  /-- As an alternative: its leading lambdas take the fields. -/
  | branch (fields : List V)

/-- A term that is no lambda takes no fields. -/
def Use.settle : Use V → (Option (List (Arg V)) → Outcome V) → Outcome V
  | .chain pending, k => k pending
  | .branch [], k => k none
  | .branch (_ :: _), _ => .error .mismatch

variable (I : Interp V)

/-- The value of a head, applied to its arguments if it has any. -/
def feed (head : Outcome V) : Option (List (Arg V)) → Outcome V
  | none => head
  | some args => do
      let vs ← lastToFirst args
      let f ← head
      return I.applyAll f vs

/-- The first argument decides which of the others is evaluated, with what fields. -/
def analyse (kind : Dispatch) : List (Arg V) → Outcome V
  | [] => .error .stuck
  | major :: alternatives => do
      let v ← major.value
      let (k, fields) := I.select kind v
      match alternatives[k]? with
      | some alternative => alternative.branch fields
      | none => .error .mismatch

/-! ## Constants -/

/-- A global that has got its arguments. -/
def callGlobal (table : DeclTable) (name : String) (args : List (Arg V)) : Outcome V :=
  match table.lookup? name with
  | none => .error .stuck
  | some d => do
      let vs ← lastToFirst args
      return I.enter d vs

/-- A constant that stands alone. -/
def bare (table : DeclTable) (name : String) (marker : Marker) : Outcome V :=
  match marker.kind with
  | .neutral => .ok (I.cnstr 0 [])
  | .unreachable => .error .trap
  | .cnstr => .ok (I.cnstr marker.index [])
  | .plain => if name = Term.natZero then .ok (I.literal 0) else callGlobal I table name []
  | _ => .error .stuck

/-- A constant at the head of an application.  Constants that erasure has marked mean what the
    marker says; of the others, the eliminators take a value apart. -/
def applied (g : Globals) (name : String) (marker : Marker) (args : List (Arg V)) : Outcome V :=
  match marker.kind with
  | .neutral => .ok (I.cnstr 0 [])
  | .unreachable => .error .trap
  | .cnstr => do return I.cnstr marker.index (← firstToLast args)
  | .proj =>
      match args with
      | [] => .error .stuck
      | subject :: extra => do
          let vs ← lastToFirst extra
          let v ← subject.value
          return I.applyAll (I.proj marker.index v) vs
  | .cases =>
      analyse I (if marker.index = 1 then .destruct else if marker.index = 2 then .binary
        else .table) args
  | .plain =>
      if name = Term.natCasesOn then analyse I .natural args
      else match g.analyzers.bind (·.lookup? name) with
        | some a => analyse I (.analyzer a.index) args
        | none => callGlobal I g.table name args
  | .other .. => .error .stuck

/-- A constant with its pending arguments. -/
def constant (g : Globals) (name : String) (marker : Marker) :
    Option (List (Arg V)) → Outcome V
  | none => bare I g.table name marker
  | some args => applied I g name marker args

/-! ## Terms -/

mutual

/-- The value of a term in an environment, for the use that is made of it. -/
def eval (g : Globals) : Term → (env : List V) → Use V → Outcome V
  | .var i, env, use =>
      use.settle (feed I (match env[i.toNat]? with
        | some v => .ok v
        | none => .error .stuck))
  | .const name marker, _, use => use.settle (constant I g name marker)
  | .nat value, _, use => use.settle (feed I (.ok (I.literal value)))
  | .quote body, _, use => use.settle (feed I (.ok (I.quotation body)))
  | .ann _ body, env, use => use.settle (feed I (eval g body env (.chain none)))
  | .letIn bindings body, env, use =>
      use.settle (feed I (do
        let inner ← evalBindings g bindings env
        eval g body inner (.chain none)))
  | .lam _ body, env, use =>
      match use with
      | .chain pending => feed I (.error .stuck) pending
      | .branch [] => .error .mismatch
      | .branch (field :: fields) => eval g body (field :: env) (.branch fields)
  | .app fn args, env, use =>
      use.settle fun pending =>
        eval g fn env (.chain (some (evalArgs g args env ++ pending.getD [])))
  | _, _, use => use.settle (feed I (.error .stuck))

/-- The arguments of an application in an environment. -/
def evalArgs (g : Globals) : List Term → (env : List V) → List (Arg V)
  | [], _ => []
  | a :: as, env =>
      ⟨eval g a env (.chain none), fun fields => eval g a env (.branch fields)⟩
        :: evalArgs g as env

/-- The environment behind the bindings of a let, each of which sees those before it. -/
def evalBindings (g : Globals) : List (String × Term) → (env : List V) → Outcome (List V)
  | [], env => return env
  | (_, v) :: bs, env => do
      let v ← eval g v env (.chain none)
      evalBindings g bs (v :: env)

end

/-! ## Flattening keeps the meaning -/

variable {g : Globals}

theorem evalArgs_eq_map (args : List Term) (env : List V) :
    evalArgs I g args env = args.map fun a =>
      ⟨eval I g a env (.chain none), fun fields => eval I g a env (.branch fields)⟩ := by
  induction args with
  | nil => rfl
  | cons a as ih => simp [evalArgs, ih]

theorem evalArgs_append (as bs : List Term) (env : List V) :
    evalArgs I g (as ++ bs) env = evalArgs I g as env ++ evalArgs I g bs env := by
  simp [evalArgs_eq_map]

/-- The use of a term that stands at the head of pending arguments. -/
def Use.below (use : Use V) (k : Use V → Outcome V) : Option (List (Arg V)) → Outcome V
  | none => k use
  | some args => use.settle fun more => k (.chain (some (args ++ more.getD [])))

theorem eval_withArgs (t : Term) (pending : Option (List Term)) (env : List V) (use : Use V) :
    eval I g (t.withArgs pending) env use =
      use.below (eval I g t env) (pending.map (evalArgs I g · env)) := by
  cases pending <;> rfl

theorem evalArgs_flattenArgs {args : List Term}
    (h : ∀ a ∈ args, ∀ env use, eval I g (Term.flattenWith false a none) env use
      = eval I g a env use) (env : List V) :
    evalArgs I g (Term.flattenArgs false args) env = evalArgs I g args env := by
  rw [evalArgs_eq_map, evalArgs_eq_map, Term.flattenArgs_eq_map, List.map_map]
  refine List.map_congr_left fun a ha => ?_
  simp [h a ha]

theorem evalBindings_flattenBindings {bindings : List (String × Term)}
    (h : ∀ b ∈ bindings, ∀ env use, eval I g (Term.flattenWith false b.2 none) env use
      = eval I g b.2 env use) (env : List V) :
    evalBindings I g (Term.flattenBindings false bindings) env = evalBindings I g bindings env := by
  induction bindings generalizing env with
  | nil => rfl
  | cons b bs ih =>
    rw [List.forall_mem_cons] at h
    simp only [Term.flattenBindings, evalBindings, h.1, ih h.2]

theorem eval_flattenWith (t : Term) (pending : Option (List Term)) (env : List V) (use : Use V) :
    eval I g (Term.flattenWith false t pending) env use =
      use.below (eval I g t env) (pending.map (evalArgs I g · env)) := by
  induction t using Term.ind generalizing pending env use with
  | app fn args ihfn ihargs =>
    have hargs := evalArgs_flattenArgs I (fun a ha => ihargs a ha none) env
    rw [Term.flattenWith, ihfn, Option.map_some, evalArgs_append, hargs]
    cases pending with
    | none => simp [Use.below, eval, evalArgs]
    | some more => simp [Use.below, Use.settle, eval]
  | lam binder body ih =>
    rw [Term.flattenWith, eval_withArgs]
    congr 1
    funext use
    rcases use with pending | _ | ⟨field, fields⟩
    · rfl
    · rfl
    · simp [eval, ih, Use.below]
  | letIn bindings body ihbindings ihbody =>
    have hbindings := evalBindings_flattenBindings I (fun b hb => ihbindings b hb none) env
    rw [Term.flattenWith, eval_withArgs]
    congr 1
    funext use
    simp [eval, hbindings, ihbody, Use.below]
  | ann name body ih =>
    rw [Term.flattenWith, eval_withArgs]
    congr 1
    funext use
    simp [eval, ih, Use.below]
  | _ => exact eval_withArgs I _ pending env use

theorem eval_flatten (t : Term) (env : List V) (use : Use V) :
    eval I g t.flatten env use = eval I g t env use :=
  eval_flattenWith I t none env use

/-! ## Alternatives -/

/-- An alternative that takes no fields is used for its value. -/
theorem eval_branch_nil {t : Term} (h : t.arity = 0) (env : List V) :
    eval I g t env (.branch []) = eval I g t env (.chain none) := by
  cases t with
  | lam binder body => simp [Term.arity] at h
  | _ => rfl

/-- The fields of an alternative become the innermost values of the environment, the last one
    first. -/
theorem eval_branch (t : Term) (env fields : List V) (h : fields.length = t.arity) :
    eval I g t env (.branch fields)
      = eval I g (bodyOf t) (fields.reverse ++ env) (.chain none) := by
  induction t using Term.ind generalizing env fields with
  | lam binder body ih =>
    obtain ⟨field, fields, rfl⟩ : ∃ field fields', fields = field :: fields' :=
      List.exists_cons_of_length_eq_add_one h
    simp only [Term.arity, List.length_cons, Nat.add_right_cancel_iff] at h
    simp [eval, bodyOf, ih _ _ h]
  | _ =>
    obtain rfl : fields = [] := List.length_eq_zero_iff.mp h
    exact eval_branch_nil I rfl env

/-- An alternative takes neither more nor fewer fields than it has leading lambdas. -/
theorem eval_branch_mismatch (t : Term) (env fields : List V) (h : fields.length ≠ t.arity) :
    eval I g t env (.branch fields) = .error .mismatch := by
  induction t using Term.ind generalizing env fields with
  | lam binder body ih =>
    cases fields with
    | nil => rfl
    | cons field fields =>
      simp only [Term.arity, List.length_cons, ne_eq, Nat.add_right_cancel_iff] at h
      exact ih (field :: env) fields h
  | _ =>
    cases fields with
    | nil => exact absurd rfl h
    | cons field fields => rfl

end

end TermVM.Meaning
