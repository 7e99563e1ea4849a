/-
  TermVM.Codegen.Opening

  `vmgen`'s expression compiler (`compileExpr`), which opens the binders it goes
  under.

  Each binder becomes a local with a new identity, `Term.instantiate` puts the
  locals in the place of the variables, and a scope gives the frame slot of
  every local.  So a variable that code generation comes upon is loose, whatever
  the scope.  An application is taken apart when it is reached.

  `TermVM.Codegen` generates the same code without changing the term: there a
  variable is a position in the scope.
-/
import TermVM.Codegen
import TermVM.Term.Size

namespace TermVM.Codegen.Opening

/-! ## Locals -/

/-- A local that stands for an opened binder. -/
structure Local where
  id : UInt64
  name : String
  deriving DecidableEq, Repr

/-- A local as a term. -/
def Local.term (l : Local) : Term :=
  .fvar l.id l.name

/-- Puts locals in the place of the loose variables of a term, the last one in that of the
    innermost variable. -/
def instantiate (t : Term) (locals : List Local) : Term :=
  t.instantiate (locals.map Local.term)

/-- A new local.  Identities are 64-bit words. -/
def freshLocal (name : String) : Gen Local := do
  return ⟨UInt64.ofNat (← fresh), name⟩

/-- Binds a local to a slot. -/
def bind (scope : Scope) (l : Local) (slot : Nat) : Scope :=
  ⟨l.id.toNat, slot⟩ :: scope

/-- Opens the leading lambdas of a term, after the ones whose locals are given.  The slot of a
    local goes by its number. -/
def openLambdas (slot : Nat → Nat) : Term → List Local → Scope → Gen (List Local × Scope)
  | .lam binder body, locals, scope => do
      let l ← freshLocal binder
      openLambdas slot body (locals ++ [l]) (bind scope l (slot locals.length))
  | _, locals, scope => return (locals, scope)

/-- Removes values below a result, if there are any. -/
def dropValues (n : Nat) : Gen Unit := do
  if 0 < n then
    let _ ← emit (.drop (UInt32.ofNat n))

theorem nodes_instantiate (t : Term) (locals : List Local) :
    (instantiate t locals).nodes = t.nodes := by
  refine Term.nodes_instantiateAt (fun u hu => ?_) 0 t
  obtain ⟨l, -, rfl⟩ := List.mem_map.mp (List.mem_reverse.mp hu)
  rfl

theorem nodes_bodyOf_le (t : Term) : (bodyOf t).nodes ≤ t.nodes := by
  induction t using bodyOf.induct with
  | case1 binder body ih =>
    rw [bodyOf, Term.nodes]
    exact Nat.le_succ_of_le ih
  | case2 t hnot => exact Nat.le_of_eq (congrArg Term.nodes (bodyOf.eq_2 t hnot))

/-! ## Expressions -/

mutual

/-- Generates the code of a term. -/
def compileExpr (g : Globals) (e : Term) (depth : Nat) (scope : Scope) : Gen Unit :=
  match e with
  | .absent => violated .absentTerm
  | .var i => violated (.looseVariable i.toNat)
  | .sort _ => violated (.nodeInBody .sort)
  | .mvar _ => violated (.nodeInBody .mvar)
  | .pi _ _ _ => violated (.nodeInBody .pi)
  | .lam _ _ => violated (.nodeInBody .lam)
  | .const name marker => compileConstant g name marker
  | .fvar id name =>
      match scope.find? fun b => b.id == id.toNat with
      | some b => do let _ ← emit (.push (UInt32.ofNat b.slot))
      | none => violated (.unboundLocal name id)
  | .nat value => do let _ ← emit (.literal value)
  | .quote body => do let _ ← emit (.quotation body)
  | .ann _ body => compileExpr g body depth scope
  | .foreign name _ => throw (.unsupportedExtension name)
  | .letIn bindings body => compileLet g bindings body 0 depth scope
  | .app fn args =>
      compileApp g (Term.app fn args).spine.1 (Term.app fn args).spine.2 depth scope
-- By the size of what is left: a term does not grow when locals are put in.  The second number
-- puts the functions in order that are called for the same terms.
termination_by (e.nodes, 1)
decreasing_by
  all_goals refine Prod.lex_def.mpr ?_
  · simp [Term.nodes]
  · simp [Term.nodes]
  · have := fn.nodes_spine_le
    simp only [Term.nodes, Term.spine, Term.nodesOfArgs_append]
    omega

/-- Binds the values of one let of a chain that has bound `count` values before. -/
def compileLet (g : Globals) (bindings : List (String × Term)) (body : Term) (count depth : Nat)
    (scope : Scope) : Gen Unit := do
  let (locals, inner) ← compileBindings g bindings [] depth scope
  continueLet g (instantiate body locals) (count + bindings.length) (depth + bindings.length) inner
termination_by (Term.nodesOfBindings bindings + body.nodes + 1, 0)
decreasing_by
  all_goals refine Prod.lex_def.mpr ?_
  · simp only
    omega
  · simp only [nodes_instantiate]
    omega

/-- Goes on with a chain of lets while there is a let, and drops all that the chain has bound after
    its body. -/
def continueLet (g : Globals) (e : Term) (count depth : Nat) (scope : Scope) : Gen Unit :=
  match e with
  | .letIn bindings body => compileLet g bindings body count depth scope
  | e => do
      compileExpr g e depth scope
      dropValues count
termination_by (e.nodes, 2)
decreasing_by
  all_goals refine Prod.lex_def.mpr ?_
  · simp [Term.nodes]
  · simp

/-- Binds the values of a let after those whose locals are given, and gives the locals of all of
    them and the scope that has them. -/
def compileBindings (g : Globals) (bindings : List (String × Term)) (locals : List Local)
    (depth : Nat) (scope : Scope) : Gen (List Local × Scope) :=
  match bindings with
  | [] => return (locals, scope)
  | (name, v) :: bs => do
      compileExpr g (instantiate v locals) depth scope
      let l ← freshLocal name
      compileBindings g bs (locals ++ [l]) (depth + 1) (bind scope l depth)
termination_by (Term.nodesOfBindings bindings, 2)
decreasing_by
  all_goals refine Prod.lex_def.mpr ?_
  · simp only [nodes_instantiate, Term.nodesOfBindings]
    omega
  · have := v.nodes_pos
    simp only [Term.nodesOfBindings]
    omega

/-- Generates the code of a head applied to arguments. -/
def compileApp (g : Globals) (head : Term) (args : List Term) (depth : Nat) (scope : Scope) :
    Gen Unit :=
  match head with
  | .const name marker =>
    match g.caseHead? name marker with
    | some head => compileAnalysis g head args depth scope
    | none =>
      match marker.kind with
      | .cnstr => do
          compileArgs g args depth scope
          let _ ← emit (.cnstr marker.index (UInt32.ofNat args.length))
      | .proj => compileProjection g marker.index args depth scope
      | .neutral => do let _ ← emit (.scnstr 0)
      | .unreachable => do let _ ← emit .unreachable
      | .plain => do
          let d ← g.resolve name
          compileArgsRev g args depth scope
          emitCall d args.length
      | _ => violated (.appliedMarker marker args.length)
  | fn => do
      compileArgsRev g args depth scope
      compileExpr g fn (depth + args.length) scope
      emitApplies args.length
termination_by (head.nodes + Term.nodesOfArgs args, 2)
decreasing_by
  all_goals refine Prod.lex_def.mpr ?_
  · simp only [Term.nodes]
    omega
  · simp only [Term.nodes]
    omega
  · simp only [Term.nodes]
    omega
  · simp only [Term.nodes]
    omega
  · have := fn.nodes_pos
    simp only
    omega
  · simp only
    omega

/-- Pushes values first to last. -/
def compileArgs (g : Globals) (args : List Term) (depth : Nat) (scope : Scope) : Gen Unit :=
  match args with
  | [] => return
  | a :: as => do
      compileExpr g a depth scope
      compileArgs g as (depth + 1) scope
termination_by (Term.nodesOfArgs args, 2)
decreasing_by
  all_goals refine Prod.lex_def.mpr ?_
  · simp only [Term.nodesOfArgs]
    omega
  · have := a.nodes_pos
    simp only [Term.nodesOfArgs]
    omega

/-- Pushes values last to first, so that the first one ends on top. -/
def compileArgsRev (g : Globals) (args : List Term) (depth : Nat) (scope : Scope) : Gen Unit :=
  match args with
  | [] => return
  | a :: as => do
      compileArgsRev g as depth scope
      compileExpr g a (depth + as.length) scope
termination_by (Term.nodesOfArgs args, 2)
decreasing_by
  all_goals refine Prod.lex_def.mpr ?_
  · have := a.nodes_pos
    simp only [Term.nodesOfArgs]
    omega
  · simp only [Term.nodesOfArgs]
    omega

/-- Projects a field out of the first argument and applies it to the others. -/
def compileProjection (g : Globals) (index : UInt32) (args : List Term) (depth : Nat)
    (scope : Scope) : Gen Unit :=
  match args with
  | [] => violated (.projectionWithoutSubject index)
  | subject :: extra => do
      compileArgsRev g extra depth scope
      compileExpr g subject (depth + extra.length) scope
      let _ ← emit (.proj index)
      emitApplies extra.length
termination_by (Term.nodesOfArgs args, 2)
decreasing_by
  all_goals refine Prod.lex_def.mpr ?_
  · have := subject.nodes_pos
    simp only [Term.nodesOfArgs]
    omega
  · simp only [Term.nodesOfArgs]
    omega

/-- Analyses the first argument by the alternatives in the others.  The number of arguments is
    compared as a 32-bit word with one more than the number of alternatives. -/
def compileAnalysis (g : Globals) (head : CaseHead) (args : List Term) (depth : Nat)
    (scope : Scope) : Gen Unit :=
  if head.alternatives = 0 then violated (.noAlternatives head.label)
  else if UInt32.ofNat args.length ≠ head.alternatives + 1 then
    violated (.argumentCount head.label (head.alternatives + 1) args.length)
  else match args with
    | [] => throw .missingSubject
    | major :: alts => do
        compileExpr g major depth scope
        let pc ← emit head.instr
        let done ← compileAlternatives g alts depth scope
        completeDispatch pc head.instr done
termination_by (Term.nodesOfArgs args, 2)
decreasing_by
  all_goals refine Prod.lex_def.mpr ?_
  · simp only [Term.nodesOfArgs]
    omega
  · have := major.nodes_pos
    simp only [Term.nodesOfArgs]
    omega

/-- Generates one alternative of a dispatch, and gives the number of its fields: its leading lambdas
    bind what the dispatch has pushed. -/
def compileAlternative (g : Globals) (alt : Term) (depth : Nat) (scope : Scope) : Gen Nat := do
  let (locals, inner) ← openLambdas (depth + ·) alt [] scope
  compileExpr g (instantiate (bodyOf alt) locals) (depth + locals.length) inner
  dropValues locals.length
  return locals.length
termination_by (alt.nodes, 2)
decreasing_by
  have := nodes_bodyOf_le alt
  refine Prod.lex_def.mpr ?_
  simp only [nodes_instantiate]
  omega

/-- Generates the alternatives of a dispatch; all but the last end in a jump. -/
def compileAlternatives (g : Globals) (alts : List Term) (depth : Nat) (scope : Scope) :
    Gen (List Alternative) :=
  match alts with
  | [] => return []
  | alt :: rest => do
      let entry ← nextPc
      let fields ← compileAlternative g alt depth scope
      let exit ← if rest.isEmpty then pure none else some <$> emit .goto
      let more ← compileAlternatives g rest depth scope
      return ⟨entry, fields, exit⟩ :: more
termination_by (Term.nodesOfArgs alts, 3)
decreasing_by
  all_goals refine Prod.lex_def.mpr ?_
  · simp only [Term.nodesOfArgs]
    omega
  · have := alt.nodes_pos
    simp only [Term.nodesOfArgs]
    omega

end

/-! ## Procedures -/

/-- Generates the code of a declaration in a frame of its own, up to the return.  The first
    parameter has the last slot. -/
def compileBody (g : Globals) (value : Term) : Gen Buffer.Handout := do
  let (locals, scope) ← openLambdas (value.arity - 1 - ·) value [] []
  compileExpr g (instantiate (bodyOf value) locals) value.arity scope
  let _ ← emit .ret
  handOut

/-- Compiles a declaration: its leading lambdas become parameters. -/
def compileProcedure (g : Globals) (name : String) (value : Term) : Except Failure Procedure := do
  let (h, s) ← (compileBody g value).run ⟨.empty, 0⟩
  return ⟨name, UInt32.ofNat value.arity, h.code s.buffer⟩

end TermVM.Codegen.Opening
