/-
  TermVM.Codegen

  `vmgen`'s code generator (`CompileProcedure`), for one closed declaration
  body.

  A frame holds the arguments, the values of enclosing lets and the fields of
  enclosing matches; `depth` counts the values in the frame when a term starts
  evaluating, and a scope gives the slot of every enclosing binder, innermost
  first.  The code of a term leaves its value on top of the frame.

  The generator of `vmgen` puts a local with a new identity in the place of
  every variable it goes under the binder of.  Here variables stay and are
  positions in the scope; every binder still takes the next of the identities 1,
  2, … so that a free local can be resolved by identity.
  `TermVM.Codegen.Opening` is the generator with its locals.

  Terms are flattened beforehand, so that an application node shows the head of
  its chain and all arguments together.
-/
import TermVM.Analyzers
import TermVM.Buffer
import TermVM.DeclTable
import TermVM.Term.Spine

namespace TermVM.Codegen

/-! ## Failures -/

/-- A term shape that must not reach code generation. -/
inductive Invariant where
  | looseVariable (index : Nat)
  | nodeInBody (kind : Kind)
  | absentTerm
  | unboundLocal (name : String) (id : UInt64)
  | bareMarker (marker : Marker)
  | appliedMarker (marker : Marker) (arguments : Nat)
  | projectionWithoutSubject (index : UInt32)
  | noAlternatives (head : String)
  | argumentCount (head : String) (expected : UInt32) (given : Nat)
  deriving DecidableEq, Repr

/-- The text of an invariant violation. -/
def Invariant.message : Invariant → String
  | looseVariable index =>
      "loose bound variable #" ++ Text.decimal index ++ " in code body"
  | nodeInBody kind => kind.name ++ " node in code body"
  | absentTerm => "unknown term type <nil>"
  | unboundLocal name id =>
      "local " ++ name ++ " (#" ++ Text.decimal id.toNat ++ ") is not bound in this frame"
  | bareMarker marker => "bare " ++ marker.text ++ " outside an application"
  | appliedMarker marker arguments =>
      marker.text ++ " applied to " ++ Text.decimal arguments ++ " arguments"
  | projectionWithoutSubject index =>
      "projection " ++ Text.decimal index.toNat ++ " without a subject"
  | noAlternatives head => "case analysis " ++ head ++ " with no alternatives"
  | argumentCount head expected given =>
      "case analysis " ++ head ++ " expects " ++ Text.decimal expected.toNat
        ++ " arguments, got " ++ Text.decimal given

/-- Why a term has no code. -/
inductive Failure where
  /-- A call target without an entry in the declaration table. -/
  | unknownConstant (name : String)
  /-- An extension node that survived erasure. -/
  | unsupportedExtension (tag : String)
  | invariant (violation : Invariant)
  | misuse (misuse : Buffer.Misuse)
  /-- A case analysis without the argument it analyses. -/
  | missingSubject
  deriving DecidableEq, Repr

/-- The report of a call target without code. -/
def unknownConstantText (name : String) : String :=
  "code generation failed, VM does not have code for '" ++ name ++ "'"

/-- The report of an extension node that survived erasure. -/
def unsupportedExtensionText (tag : String) : String :=
  "code generation failed, unexpected kind of macro has been found: '" ++ tag ++ "'"

/-! ## State -/

/-- Code under construction, and the identity the last binder took. -/
structure State where
  buffer : Buffer
  lastId : Nat
  deriving DecidableEq, Repr

/-- Code generation: a state, or a failure. -/
abbrev Gen := StateT State (Except Failure)

/-- Runs a buffer operation. -/
def onBuffer (f : Buffer → Except Buffer.Misuse Buffer) : Gen Unit := do
  let s ← get
  match f s.buffer with
  | .ok b => set { s with buffer := b }
  | .error m => throw (.misuse m)

/-- Closes the buffer and hands out its code. -/
def handOut : Gen Buffer.Handout := do
  let s ← get
  match s.buffer.handOut with
  | .ok (b, h) =>
      set { s with buffer := b }
      return h
  | .error m => throw (.misuse m)

/-- The position of the next instruction. -/
def nextPc : Gen Nat := do
  return (← get).buffer.next

/-- Emits an instruction and gives its position. -/
def emit (i : Instr) : Gen Nat := do
  let pc ← nextPc
  onBuffer (·.emit i)
  return pc

/-- Emits `n` applications. -/
def emitApplies : Nat → Gen Unit
  | 0 => return
  | n + 1 => do
      let _ ← emit .apply
      emitApplies n

/-- The identity of a new binder. -/
def fresh : Gen Nat := do
  let s ← get
  set { s with lastId := s.lastId + 1 }
  return s.lastId + 1

/-- Stops at an invariant violation. -/
def violated {α : Type} (i : Invariant) : Gen α :=
  throw (.invariant i)

/-- An enclosing binder: its identity and the frame slot of its value. -/
structure Binding where
  id : Nat
  slot : Nat
  deriving DecidableEq, Repr

/-- The enclosing binders, innermost first. -/
abbrev Scope := List Binding

/-- What code generation resolves global names in. -/
structure Globals where
  table : DeclTable
  analyzers : Option Analyzers
  deriving DecidableEq, Repr

/-! ## Case analyses -/

/-- The head of a case analysis. -/
inductive CaseHead where
  /-- Erasure's own marker, with the number of alternatives. -/
  | marked (alternatives : UInt32)
  /-- The eliminator of natural numbers. -/
  | natural
  /-- An eliminator that the runtime analyses natively. -/
  | native (analyzer : Analyzer)
  deriving DecidableEq, Repr

namespace CaseHead

/-- The number of alternatives a head announces. -/
def alternatives : CaseHead → UInt32
  | marked n => n
  | natural => 2
  | native a => a.alternatives

/-- The name of a head in messages. -/
def label : CaseHead → String
  | marked n => Marker.text ⟨.cases, n⟩
  | natural => Term.natCasesOn
  | native a => a.name

/-- The instruction that dispatches on the analysed value. -/
def instr : CaseHead → Instr
  | marked n =>
      if n = 1 then .destruct
      else if n = 2 then .dispatch .cases2 0 2
      else .dispatch .casesN 0 n.toNat
  | natural => .dispatch .natCases 0 2
  | native a => .dispatch .builtinCases a.index a.alternatives.toNat

end CaseHead

/-- The case analysis a constant heads, if it heads one. -/
def Globals.caseHead? (g : Globals) (name : String) (marker : Marker) : Option CaseHead :=
  match marker.kind with
  | .cases => some (.marked marker.index)
  | .plain =>
      if name = Term.natCasesOn then some .natural
      else (g.analyzers.bind (·.lookup? name)).map .native
  | _ => none

/-- One compiled alternative: where it starts, how many fields it binds, and the jump that ends
    it unless it is the last. -/
structure Alternative where
  entry : Nat
  fields : Nat
  exit : Option Nat
  deriving DecidableEq, Repr

/-- Sets the targets of the instruction at `pc`, from slot `index` on. -/
def patchTargets (pc : Nat) : (index : Nat) → List Nat → Gen Unit
  | _, [] => return
  | index, target :: targets => do
      onBuffer (·.patch pc index target)
      patchTargets pc (index + 1) targets

/-- Lets every jump of a list go to one target. -/
def patchJumps (target : Nat) : List Nat → Gen Unit
  | [] => return
  | pc :: pcs => do
      onBuffer (·.patch pc 0 target)
      patchJumps target pcs

/-- Completes a dispatch emitted at `pc`: its field counts, its targets, and the jumps from the
    ends of the alternatives to the join point, which is the next position. -/
def completeDispatch (pc : Nat) (i : Instr) (alts : List Alternative) : Gen Unit := do
  onBuffer (·.setFields pc (alts.map fun a => UInt32.ofNat a.fields))
  if i.op.branches then patchTargets pc 0 (alts.map (·.entry))
  patchJumps (← nextPc) (alts.filterMap (·.exit))

/-! ## Leaves and calls -/

/-- Emits a call of a declaration whose arguments have been pushed: a partial application when
    there are too few of them, else a call whose result is applied to the rest. -/
def emitCall (d : Decl) (arguments : Nat) : Gen Unit := do
  if arguments < d.arity.toNat then
    let _ ← emit (.closure d.index (UInt32.ofNat arguments))
  else
    let m := match d.kind with
      | .builtin => Mnemonic.invokeBuiltin
      | .native => Mnemonic.invokeNative
      | _ => Mnemonic.invokeGlobal
    let _ ← emit (.invoke m d.index)
    emitApplies (arguments - d.arity.toNat)

/-- The declaration of a global. -/
def Globals.resolve (g : Globals) (name : String) : Gen Decl :=
  match g.table.lookup? name with
  | some d => return d
  | none => throw (.unknownConstant name)

/-- The code of a constant that stands alone. -/
def compileConstant (g : Globals) (name : String) (marker : Marker) : Gen Unit :=
  match marker.kind with
  | .neutral => do let _ ← emit (.scnstr 0)
  | .unreachable => do let _ ← emit .unreachable
  | .cnstr => do let _ ← emit (.scnstr marker.index)
  | .plain =>
      if name = Term.natZero then do let _ ← emit (.literal 0)
      else do emitCall (← g.resolve name) 0
  | _ => violated (.bareMarker marker)

/-- What surrounds a term whose code is generated. -/
inductive Role where
  /-- Its value is wanted as it is. -/
  | value
  /-- It is what remains of an alternative after `fields` lambdas, whose fields are dropped
      after it. -/
  | alternative (fields : Nat)
  /-- It is the body of a let chain of `bound` values, which are dropped after it. -/
  | letBody (bound : Nat)
  deriving DecidableEq, Repr

/-- Removes the values below a result that its surroundings had bound, and gives their number. -/
def Role.leave : Role → Gen Nat
  | value => return 0
  | alternative n | letBody n => do
      if 0 < n then
        let _ ← emit (.drop (UInt32.ofNat n))
      return n

/-! ## Terms -/

mutual

/-- Generates the code of a flattened term, and gives the number of values its surroundings had
    bound.  The leading lambdas of an alternative bind the fields that the dispatch pushed; lets
    that follow each other directly form one chain. -/
def compileTerm (g : Globals) : Term → Role → (depth : Nat) → Scope → Gen Nat
  | .absent, _, _, _ => violated .absentTerm
  | .var i, role, _, scope =>
      match scope[i.toNat]? with
      | some b => do
          let _ ← emit (.push (UInt32.ofNat b.slot))
          role.leave
      | none => violated (.looseVariable (i.toNat - scope.length))
  | .fvar id name, role, _, scope =>
      match scope.find? fun b => b.id == id.toNat with
      | some b => do
          let _ ← emit (.push (UInt32.ofNat b.slot))
          role.leave
      | none => violated (.unboundLocal name id)
  | .const name marker, role, _, _ => do
      compileConstant g name marker
      role.leave
  | .sort _, _, _, _ => violated (.nodeInBody .sort)
  | .mvar _, _, _, _ => violated (.nodeInBody .mvar)
  | .pi _ _ _, _, _, _ => violated (.nodeInBody .pi)
  | .lam _ body, role, depth, scope =>
      match role with
      | .alternative n => do
          let id ← fresh
          compileTerm g body (.alternative (n + 1)) (depth + 1) (⟨id, depth⟩ :: scope)
      | _ => violated (.nodeInBody .lam)
  | .letIn bindings body, role, depth, scope => do
      let inner ← compileBindings g bindings depth scope
      match role with
      | .letBody n =>
          compileTerm g body (.letBody (n + bindings.length)) (depth + bindings.length) inner
      | _ => do
          let _ ← compileTerm g body (.letBody bindings.length) (depth + bindings.length) inner
          role.leave
  | .nat value, role, _, _ => do
      let _ ← emit (.literal value)
      role.leave
  | .quote body, role, _, _ => do
      let _ ← emit (.quotation body)
      role.leave
  | .ann _ body, role, depth, scope => do
      let _ ← compileTerm g body .value depth scope
      role.leave
  | .foreign name _, _, _, _ => throw (.unsupportedExtension name)
  | .app fn args, role, depth, scope => do
      match fn with
      | .const name marker =>
        match g.caseHead? name marker with
        | some head => compileAnalysis g head args depth scope
        | none =>
          match marker.kind with
          | .cnstr => do
              compileArgs g args depth scope
              let _ ← emit (.cnstr marker.index (UInt32.ofNat args.length))
          | .proj => compileProjection g marker.index args depth scope
          | .neutral => do let _ ← emit (.scnstr 0)
          | .unreachable => do let _ ← emit .unreachable
          | .plain => do
              let d ← g.resolve name
              compileArgsRev g args depth scope
              emitCall d args.length
          | _ => violated (.appliedMarker marker args.length)
      | _ => do
          compileArgsRev g args depth scope
          let _ ← compileTerm g fn .value (depth + args.length) scope
          emitApplies args.length
      role.leave

/-- Pushes values first to last. -/
def compileArgs (g : Globals) : List Term → (depth : Nat) → Scope → Gen Unit
  | [], _, _ => return
  | a :: as, depth, scope => do
      let _ ← compileTerm g a .value depth scope
      compileArgs g as (depth + 1) scope

/-- Pushes values last to first, so that the first one ends on top. -/
def compileArgsRev (g : Globals) : List Term → (depth : Nat) → Scope → Gen Unit
  | [], _, _ => return
  | a :: as, depth, scope => do
      compileArgsRev g as depth scope
      let _ ← compileTerm g a .value (depth + as.length) scope

/-- Binds the values of a let to consecutive slots, and gives the scope that sees all of them. -/
def compileBindings (g : Globals) : List (String × Term) → (depth : Nat) → Scope → Gen Scope
  | [], _, scope => return scope
  | (_, v) :: bs, depth, scope => do
      let _ ← compileTerm g v .value depth scope
      let id ← fresh
      compileBindings g bs (depth + 1) (⟨id, depth⟩ :: scope)

/-- Projects a field out of the first argument and applies it to the others. -/
def compileProjection (g : Globals) (index : UInt32) : List Term → (depth : Nat) → Scope → Gen Unit
  | [], _, _ => violated (.projectionWithoutSubject index)
  | subject :: extra, depth, scope => do
      compileArgsRev g extra depth scope
      let _ ← compileTerm g subject .value (depth + extra.length) scope
      let _ ← emit (.proj index)
      emitApplies extra.length

/-- Analyses the first argument by the alternatives in the others.  The number of arguments is
    compared as a 32-bit word with one more than the number of alternatives. -/
def compileAnalysis (g : Globals) (head : CaseHead) (args : List Term) (depth : Nat)
    (scope : Scope) : Gen Unit :=
  if head.alternatives = 0 then violated (.noAlternatives head.label)
  else if UInt32.ofNat args.length ≠ head.alternatives + 1 then
    violated (.argumentCount head.label (head.alternatives + 1) args.length)
  else match args with
    | [] => throw .missingSubject
    | major :: alts => do
        let _ ← compileTerm g major .value depth scope
        let pc ← emit head.instr
        let done ← compileAlternatives g alts depth scope
        completeDispatch pc head.instr done

/-- Generates the alternatives of a dispatch; all but the last end in a jump. -/
def compileAlternatives (g : Globals) : List Term → (depth : Nat) → Scope → Gen (List Alternative)
  | [], _, _ => return []
  | alt :: rest, depth, scope => do
      let entry ← nextPc
      let fields ← compileTerm g alt (.alternative 0) depth scope
      let exit ← if rest.isEmpty then pure none else some <$> emit .goto
      let more ← compileAlternatives g rest depth scope
      return ⟨entry, fields, exit⟩ :: more

end

/-! ## Procedures -/

/-- What remains of a term under its leading lambdas. -/
def bodyOf : Term → Term
  | .lam _ body => bodyOf body
  | t => t

/-- The scope of a procedure body: the innermost parameter is in slot 0. -/
def parameters (arity : Nat) : Scope :=
  (List.range arity).map fun k => ⟨arity - k, k⟩

/-- Generates the code of a body in a frame of its own, up to the return. -/
def compileBody (g : Globals) (t : Term) : Gen Buffer.Handout := do
  let _ ← compileTerm g (bodyOf t).flatten .value t.arity (parameters t.arity)
  let _ ← emit .ret
  handOut

/-- Compiles a declaration: its leading lambdas become parameters. -/
def compileProcedure (g : Globals) (name : String) (value : Term) : Except Failure Procedure := do
  let (h, s) ← (compileBody g value).run ⟨.empty, value.arity⟩
  return ⟨name, UInt32.ofNat value.arity, h.code s.buffer⟩

end TermVM.Codegen
