/-
  TermVM.Proofs.Outline.Basic

  Code with its control structure kept.

  An outline is code before positions are known: straight-line instructions, in
  sequence, and dispatches that hold the outlines of their alternatives.
  `layout` writes an outline out from a given position; every target it writes
  follows from the sizes of the parts, so nothing is patched.

  A plan draws the outline of a term.  It resolves names and slots as code
  generation does and fails where it fails, but knows neither positions nor a
  buffer.  That code generation emits the layout of the planned outline is
  shown in `TermVM.Proofs.Outline.Emission`; later proofs look at plans only.
-/
import TermVM.Codegen
import TermVM.Proofs.Result

namespace TermVM

open Codegen

/-- Code with its control structure kept.  An alternative of a dispatch has the number of fields
    it binds and the code that ends with its result. -/
inductive Outline where
  | nil
  | op (i : Instr)
  | seq (first second : Outline)
  | dispatch (head : CaseHead) (alternatives : List (Nat × Outline))

namespace Outline

/-- Induction on outlines: a property holds of a dispatch when it holds of its alternatives. -/
@[elab_as_elim]
theorem ind {motive : Outline → Prop}
    (nil : motive .nil)
    (op : ∀ i, motive (.op i))
    (seq : ∀ first second, motive first → motive second → motive (.seq first second))
    (dispatch : ∀ head alternatives, (∀ a ∈ alternatives, motive a.2) →
      motive (.dispatch head alternatives))
    (o : Outline) : motive o := by
  refine @Outline.rec motive (fun as => ∀ a ∈ as, motive a.2) (fun a => motive a.2)
    nil op seq dispatch ?_ ?_ ?_ o
  · exact fun a ha => absurd ha List.not_mem_nil
  · exact fun a as ha has => List.forall_mem_cons.mpr ⟨ha, has⟩
  · exact fun _ _ h => h

/-! ## Layout -/

/-- The number of jumps between an alternative and those that follow it. -/
def jumps {α : Type} (rest : List α) : Nat :=
  if rest.isEmpty then 0 else 1

mutual

/-- The number of instructions of an outline. -/
def size : Outline → Nat
  | nil => 0
  | op _ => 1
  | seq first second => first.size + second.size
  | dispatch _ alternatives => 1 + sizeOfAlternatives alternatives

/-- The number of instructions of alternatives, with the jumps between them. -/
def sizeOfAlternatives : List (Nat × Outline) → Nat
  | [] => 0
  | (_, o) :: rest => o.size + jumps rest + sizeOfAlternatives rest

end

/-- Where alternatives laid out from `start` begin, what they bind, and where they end in a
    jump. -/
def records : (start : Nat) → List (Nat × Outline) → List Alternative
  | _, [] => []
  | start, (fields, o) :: rest =>
      ⟨start, fields, if rest.isEmpty then none else some (start + o.size)⟩
        :: records (start + o.size + jumps rest) rest

/-- A dispatch with its field counts and targets filled in. -/
def filled (i : Instr) (alternatives : List Alternative) : Instr :=
  { i with
    fields := alternatives.map fun a => UInt32.ofNat a.fields
    targets := if i.op.branches then alternatives.map fun a => UInt32.ofNat a.entry else i.targets }

/-- A jump to a position. -/
def jumpTo (target : Nat) : Instr :=
  { Instr.goto with targets := [UInt32.ofNat target] }

mutual

/-- The instructions of an outline laid out from a position. -/
def layout : (start : Nat) → Outline → Code
  | _, nil => []
  | _, op i => [i]
  | start, seq first second => first.layout start ++ second.layout (start + first.size)
  | start, dispatch head alternatives =>
      filled head.instr (records (start + 1) alternatives)
        :: layoutAlternatives (start + 1 + sizeOfAlternatives alternatives) (start + 1) alternatives

/-- The instructions of alternatives laid out from a position, all but the last ending in a jump
    to `join`. -/
def layoutAlternatives (join : Nat) : (start : Nat) → List (Nat × Outline) → Code
  | _, [] => []
  | start, (_, o) :: rest =>
      o.layout start ++ (List.replicate (jumps rest) (jumpTo join)
        ++ layoutAlternatives join (start + o.size + jumps rest) rest)

end

theorem length_layoutAlternatives {join start : Nat} {alts : List (Nat × Outline)}
    (h : ∀ a ∈ alts, ∀ start, (a.2.layout start).length = a.2.size) :
    (layoutAlternatives join start alts).length = sizeOfAlternatives alts := by
  induction alts generalizing start with
  | nil => rfl
  | cons a alts ih =>
    rw [List.forall_mem_cons] at h
    simp only [layoutAlternatives, sizeOfAlternatives, List.length_append, List.length_replicate,
      h.1, ih h.2]
    omega

@[simp] theorem length_layout (start : Nat) (o : Outline) : (o.layout start).length = o.size := by
  induction o using Outline.ind generalizing start with
  | nil => rfl
  | op i => rfl
  | seq first second ihfirst ihsecond => simp [layout, size, ihfirst, ihsecond]
  | dispatch head alternatives ih =>
    simp only [layout, size, List.length_cons, length_layoutAlternatives ih]
    omega

@[simp] theorem length_records (start : Nat) (alts : List (Nat × Outline)) :
    (records start alts).length = alts.length := by
  induction alts generalizing start with
  | nil => rfl
  | cons a alts ih => simp [records, ih]

/-! ## Blocks of code -/

/-- Code has a block at a position. -/
def Embeds (code : Code) (start : Nat) (block : Code) : Prop :=
  ∀ k i, block[k]? = some i → code[start + k]? = some i

theorem embeds_self (block behind : Code) : Embeds (block ++ behind) 0 block := by
  intro k i hi
  rw [Nat.zero_add, List.getElem?_append_left (List.getElem?_eq_some_iff.mp hi).1, hi]

theorem embeds_append {code block block' : Code} {start : Nat} :
    Embeds code start (block ++ block') ↔
      Embeds code start block ∧ Embeds code (start + block.length) block' := by
  constructor
  · refine fun h => ⟨fun k i hi => h k i ?_, fun k i hi => ?_⟩
    · rw [List.getElem?_append_left (List.getElem?_eq_some_iff.mp hi).1, hi]
    · rw [Nat.add_assoc]
      exact h _ i (by rw [List.getElem?_append_right (Nat.le_add_right ..),
        Nat.add_sub_cancel_left, hi])
  · rintro ⟨h, h'⟩ k i hi
    rcases Nat.lt_or_ge k block.length with hk | hk
    · exact h k i (by rw [← hi, List.getElem?_append_left hk])
    · have := h' (k - block.length) i (by rw [← hi, List.getElem?_append_right hk])
      rwa [Nat.add_assoc, Nat.add_sub_cancel' hk] at this

theorem embeds_cons {code block : Code} {start : Nat} {i : Instr} :
    Embeds code start (i :: block) ↔ code[start]? = some i ∧ Embeds code (start + 1) block := by
  rw [← List.singleton_append, embeds_append]
  constructor
  · exact fun h => ⟨h.1 0 i rfl, h.2⟩
  · refine fun h => ⟨fun k j hj => ?_, h.2⟩
    cases k with
    | zero =>
      cases hj
      exact h.1
    | succ k => simp at hj

end Outline

/-! ## Plans -/

namespace Codegen

/-- What a plan comes to: a value, an outline, and the identity the last binder took. -/
structure Drawing (α : Type) where
  value : α
  outline : Outline
  lastId : Nat

/-- A plan takes the identity of the last binder and draws an outline, or fails. -/
def Plan (α : Type) : Type :=
  (lastId : Nat) → Except Failure (Drawing α)

namespace Plan

/-- Draws nothing. -/
def done {α : Type} (a : α) : Plan α :=
  fun id => .ok ⟨a, .nil, id⟩

/-- Draws one plan after the other. -/
def andThen {α β : Type} (p : Plan α) (f : α → Plan β) : Plan β :=
  fun id => do
    let first ← p id
    let second ← f first.value first.lastId
    return ⟨second.value, .seq first.outline second.outline, second.lastId⟩

instance : Monad Plan where
  pure := done
  bind := andThen

/-- A sequence comes to something when both of its parts do. -/
theorem bind_eq_ok {α β : Type} {p : Plan α} {f : α → Plan β} {id : Nat} {d : Drawing β} :
    (p >>= f) id = .ok d ↔ ∃ first, p id = .ok first ∧
      ∃ second, f first.value first.lastId = .ok second ∧
        ⟨second.value, .seq first.outline second.outline, second.lastId⟩ = d := by
  show (p id >>= fun first => f first.value first.lastId >>= fun second =>
    Except.ok ⟨second.value, .seq first.outline second.outline, second.lastId⟩) = .ok d ↔ _
  simp only [Result.bind_eq_ok, Except.ok.injEq]

/-- Draws an instruction. -/
def op (i : Instr) : Plan Unit :=
  fun id => .ok ⟨(), .op i, id⟩

/-- The identity of a new binder. -/
def fresh : Plan Nat :=
  fun id => .ok ⟨id + 1, .nil, id + 1⟩

/-- Fails. -/
def fail {α : Type} (f : Failure) : Plan α :=
  fun _ => .error f

/-- Draws `n` applications. -/
def applies : Nat → Plan Unit
  | 0 => return
  | n + 1 => do
      op .apply
      applies n

/-- Draws a dispatch over alternatives whose number is the one the head announces. -/
def dispatch (head : CaseHead) (alternatives : Nat → Except Failure (List (Nat × Outline) × Nat)) :
    Plan Unit :=
  fun id => do
    let (alts, id) ← alternatives id
    if alts.length = head.alternatives.toNat then .ok ⟨(), .dispatch head alts, id⟩
    else .error (.misuse (.fieldCount 0 head.alternatives.toNat alts.length))

end Plan

/-- Draws a call of a declaration whose arguments have been drawn. -/
def planCall (d : Decl) (arguments : Nat) : Plan Unit :=
  if arguments < d.arity.toNat then Plan.op (.closure d.index (UInt32.ofNat arguments))
  else do
    let m := match d.kind with
      | .builtin => Mnemonic.invokeBuiltin
      | .native => Mnemonic.invokeNative
      | _ => Mnemonic.invokeGlobal
    Plan.op (.invoke m d.index)
    Plan.applies (arguments - d.arity.toNat)

/-- The declaration of a global. -/
def Globals.planResolve (g : Globals) (name : String) : Plan Decl :=
  match g.table.lookup? name with
  | some d => return d
  | none => Plan.fail (.unknownConstant name)

/-- Draws a constant that stands alone. -/
def planConstant (g : Globals) (name : String) (marker : Marker) : Plan Unit :=
  match marker.kind with
  | .neutral => Plan.op (.scnstr 0)
  | .unreachable => Plan.op .unreachable
  | .cnstr => Plan.op (.scnstr marker.index)
  | .plain =>
      if name = Term.natZero then Plan.op (.literal 0)
      else do planCall (← g.planResolve name) 0
  | _ => Plan.fail (.invariant (.bareMarker marker))

/-- Draws the removal of what the surroundings of a term had bound, and gives its number. -/
def Role.plan : Role → Plan Nat
  | value => return 0
  | alternative n | letBody n => do
      if 0 < n then Plan.op (.drop (UInt32.ofNat n))
      return n

/-- What stands at the head of an application. -/
inductive Head where
  | analysis (head : CaseHead)
  | cnstr (index : UInt32)
  | proj (index : UInt32)
  | neutral
  | unreachable
  | declared (name : String)
  /-- A marked constant that cannot be applied. -/
  | unusable (marker : Marker)
  /-- Any other term: its value is applied. -/
  | computed

/-- The head that a term makes. -/
def Globals.head (g : Globals) : Term → Head
  | .const name marker =>
      match g.caseHead? name marker with
      | some head => .analysis head
      | none =>
        match marker.kind with
        | .cnstr => .cnstr marker.index
        | .proj => .proj marker.index
        | .neutral => .neutral
        | .unreachable => .unreachable
        | .plain => .declared name
        | _ => .unusable marker
  | _ => .computed

mutual

/-- Draws a flattened term, and gives the number of values its surroundings had bound. -/
def planTerm (g : Globals) : Term → Role → (depth : Nat) → Scope → Plan Nat
  | .absent, _, _, _ => Plan.fail (.invariant .absentTerm)
  | .var i, role, _, scope =>
      match scope[i.toNat]? with
      | some b => do
          Plan.op (.push (UInt32.ofNat b.slot))
          role.plan
      | none => Plan.fail (.invariant (.looseVariable (i.toNat - scope.length)))
  | .fvar id name, role, _, scope =>
      match scope.find? fun b => b.id == id.toNat with
      | some b => do
          Plan.op (.push (UInt32.ofNat b.slot))
          role.plan
      | none => Plan.fail (.invariant (.unboundLocal name id))
  | .const name marker, role, _, _ => do
      planConstant g name marker
      role.plan
  | .sort _, _, _, _ => Plan.fail (.invariant (.nodeInBody .sort))
  | .mvar _, _, _, _ => Plan.fail (.invariant (.nodeInBody .mvar))
  | .pi _ _ _, _, _, _ => Plan.fail (.invariant (.nodeInBody .pi))
  | .lam _ body, role, depth, scope =>
      match role with
      | .alternative n => do
          let id ← Plan.fresh
          planTerm g body (.alternative (n + 1)) (depth + 1) (⟨id, depth⟩ :: scope)
      | _ => Plan.fail (.invariant (.nodeInBody .lam))
  | .letIn bindings body, role, depth, scope => do
      let inner ← planBindings g bindings depth scope
      match role with
      | .letBody n =>
          planTerm g body (.letBody (n + bindings.length)) (depth + bindings.length) inner
      | _ => do
          let _ ← planTerm g body (.letBody bindings.length) (depth + bindings.length) inner
          role.plan
  | .nat value, role, _, _ => do
      Plan.op (.literal value)
      role.plan
  | .quote body, role, _, _ => do
      Plan.op (.quotation body)
      role.plan
  | .ann _ body, role, depth, scope => do
      let _ ← planTerm g body .value depth scope
      role.plan
  | .foreign name _, _, _, _ => Plan.fail (.unsupportedExtension name)
  | .app fn args, role, depth, scope =>
      (match g.head fn with
        | .analysis head => planAnalysis g head args depth scope
        | .cnstr index => do
            planArgs g args depth scope
            Plan.op (.cnstr index (UInt32.ofNat args.length))
        | .proj index => planProjection g index args depth scope
        | .neutral => Plan.op (.scnstr 0)
        | .unreachable => Plan.op .unreachable
        | .declared name => do
            let d ← g.planResolve name
            planArgsRev g args depth scope
            planCall d args.length
        | .unusable marker => Plan.fail (.invariant (.appliedMarker marker args.length))
        | .computed => do
            planArgsRev g args depth scope
            let _ ← planTerm g fn .value (depth + args.length) scope
            Plan.applies args.length) >>= fun _ => role.plan

/-- Draws values first to last. -/
def planArgs (g : Globals) : List Term → (depth : Nat) → Scope → Plan Unit
  | [], _, _ => return
  | a :: as, depth, scope => do
      let _ ← planTerm g a .value depth scope
      planArgs g as (depth + 1) scope

/-- Draws values last to first. -/
def planArgsRev (g : Globals) : List Term → (depth : Nat) → Scope → Plan Unit
  | [], _, _ => return
  | a :: as, depth, scope => do
      planArgsRev g as depth scope
      let _ ← planTerm g a .value (depth + as.length) scope

/-- Draws the values of a let, and gives the scope that sees all of them. -/
def planBindings (g : Globals) : List (String × Term) → (depth : Nat) → Scope → Plan Scope
  | [], _, scope => return scope
  | (_, v) :: bs, depth, scope => do
      let _ ← planTerm g v .value depth scope
      let id ← Plan.fresh
      planBindings g bs (depth + 1) (⟨id, depth⟩ :: scope)

/-- Draws the projection of a field out of the first argument, applied to the others. -/
def planProjection (g : Globals) (index : UInt32) : List Term → (depth : Nat) → Scope → Plan Unit
  | [], _, _ => Plan.fail (.invariant (.projectionWithoutSubject index))
  | subject :: extra, depth, scope => do
      planArgsRev g extra depth scope
      let _ ← planTerm g subject .value (depth + extra.length) scope
      Plan.op (.proj index)
      Plan.applies extra.length

/-- Draws the analysis of the first argument by the alternatives in the others. -/
def planAnalysis (g : Globals) (head : CaseHead) (args : List Term) (depth : Nat)
    (scope : Scope) : Plan Unit :=
  if head.alternatives = 0 then Plan.fail (.invariant (.noAlternatives head.label))
  else if UInt32.ofNat args.length ≠ head.alternatives + 1 then
    Plan.fail (.invariant (.argumentCount head.label (head.alternatives + 1) args.length))
  else match args with
    | [] => Plan.fail .missingSubject
    | major :: alts => do
        let _ ← planTerm g major .value depth scope
        Plan.dispatch head (planAlternatives g alts depth scope)

/-- Draws the alternatives of a dispatch, each with the number of fields it binds. -/
def planAlternatives (g : Globals) : List Term → (depth : Nat) → Scope → (lastId : Nat) →
    Except Failure (List (Nat × Outline) × Nat)
  | [], _, _, id => return ([], id)
  | alt :: rest, depth, scope, id => do
      let first ← planTerm g alt (.alternative 0) depth scope id
      let (more, id) ← planAlternatives g rest depth scope first.lastId
      return ((first.value, first.outline) :: more, id)

end

end Codegen

end TermVM
