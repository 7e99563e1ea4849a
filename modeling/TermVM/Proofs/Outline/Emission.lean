/-
  TermVM.Proofs.Outline.Emission

  Code generation emits the layout of the planned outline.

  `Emits m p` compares a piece of code generation with a plan: on any buffer
  that is open, both fail alike, or the buffer grows by exactly the layout of
  the drawn outline from the position it had.  The relation composes along
  sequences, so each construct of the generator is one short step; only a
  dispatch, whose placeholders stay pending while its alternatives are emitted,
  needs the bookkeeping of `TermVM.Proofs.Outline.Patching`.

  `compileProcedure_eq_ok_iff` is the form that later proofs start from.
-/
import TermVM.Proofs.Outline.Patching
import TermVM.Proofs.Term.Induction

namespace TermVM.Codegen

open Outline

/-- Two failures are alike when they are the same, or both a misuse of the buffer: a plan does not
    know the position that the report of a misuse names. -/
inductive Alike : Failure → Failure → Prop where
  | same (f : Failure) : Alike f f
  | misuse (m m' : Buffer.Misuse) : Alike (.misuse m) (.misuse m')

/-- What code generation came to on a buffer is what a plan came to: they failed alike, or the
    buffer grew by the layout of the outline. -/
def Realizes {α : Type} (b : Buffer) (r : Except Failure (α × State)) :
    Except Failure (Drawing α) → Prop
  | .error f => ∃ f', r = .error f' ∧ Alike f f'
  | .ok d => ∃ b', r = .ok (d.value, ⟨b', d.lastId⟩) ∧ b.Grows (d.outline.layout b.next) [] b'

/-- A piece of code generation does what a plan draws. -/
def Emits {α : Type} (m : Gen α) (p : Plan α) : Prop :=
  ∀ b id, b.Open → Realizes b (m ⟨b, id⟩) (p id)

namespace Emits

variable {α β : Type}

theorem pure (a : α) : Emits (Pure.pure a) (Pure.pure a) := by
  intro b id hb
  exact ⟨b, rfl, Buffer.Grows.refl hb⟩

theorem throw (f : Failure) : Emits (MonadExcept.throw f : Gen α) (Plan.fail f) := by
  intro b id hb
  exact ⟨f, rfl, Alike.same f⟩

theorem fresh : Emits Codegen.fresh Plan.fresh := by
  intro b id hb
  exact ⟨b, rfl, Buffer.Grows.refl hb⟩

theorem bind {m : Gen α} {p : Plan α} {f : α → Gen β} {q : α → Plan β} (hm : Emits m p)
    (hf : ∀ a, Emits (f a) (q a)) : Emits (m >>= f) (p >>= q) := by
  intro b id hb
  have hm := hm b id hb
  show Realizes b _ (p id >>= fun first => q first.value first.lastId >>= fun second =>
    Except.ok ⟨second.value, .seq first.outline second.outline, second.lastId⟩)
  cases hp : p id with
  | error e =>
    rw [hp] at hm
    obtain ⟨e', he', halike⟩ := hm
    exact ⟨e', run_bind_error he', halike⟩
  | ok first =>
    rw [hp] at hm
    obtain ⟨b₁, hrun, hgrow⟩ := hm
    have hf := hf first.value b₁ first.lastId hgrow.isOpen
    rw [Result.ok_bind]
    cases hq : q first.value first.lastId with
    | error e =>
      rw [hq] at hf
      obtain ⟨e', he', halike⟩ := hf
      exact ⟨e', (run_bind_ok hrun).trans he', halike⟩
    | ok second =>
      rw [hq] at hf
      obtain ⟨b₂, hrun', hgrow'⟩ := hf
      refine ⟨b₂, (run_bind_ok hrun).trans hrun', ?_⟩
      -- the second block starts where the first one ends
      have hnext := hgrow.next_eq
      rw [length_layout] at hnext
      rw [hnext] at hgrow'
      exact hgrow.trans hgrow'

end Emits

theorem emit_ok {b : Buffer} {i : Instr} (id : Nat) (hb : b.Open) :
    ∃ b', emit i ⟨b, id⟩ = .ok (b.next, ⟨b', id⟩) ∧
      b.Grows [i] (Buffer.placeholders b.next i) b' ∧ b'.fielded = b.fielded := by
  obtain ⟨b', hemit, hgrow⟩ := Buffer.emit_grows hb i
  refine ⟨b', ?_, hgrow⟩
  show (onBuffer (·.emit i) >>= fun _ => Pure.pure b.next : Gen Nat) ⟨b, id⟩ = _
  rw [run_bind_ok (onBuffer_ok hemit)]
  rfl

theorem run_nextPc (b : Buffer) (id : Nat) : nextPc ⟨b, id⟩ = .ok (b.next, ⟨b, id⟩) := rfl

/-- Emission of an instruction without placeholders. -/
theorem Emits.emit {i : Instr} (hi : i.op.branches = false) :
    Emits (Codegen.emit i >>= fun _ => Pure.pure ()) (Plan.op i) := by
  intro b id hb
  obtain ⟨b', hrun, hgrow, -⟩ := @emit_ok b i id hb
  refine ⟨b', run_bind_ok hrun, ?_⟩
  simpa [Buffer.placeholders, hi, layout] using hgrow

/-- Emission of an instruction without placeholders, before something else. -/
theorem Emits.emit_then {β : Type} {i : Instr} {m : Gen β} {p : Plan β}
    (hi : i.op.branches = false) (hm : Emits m p) :
    Emits (Codegen.emit i >>= fun _ => m) (Plan.op i >>= fun _ => p) := by
  have hassoc : (Codegen.emit i >>= fun _ => m)
      = ((Codegen.emit i >>= fun _ => Pure.pure ()) >>= fun _ => m) := by
    simp
  rw [hassoc]
  exact (Emits.emit hi).bind fun _ => hm

theorem Emits.applies (n : Nat) : Emits (emitApplies n) (Plan.applies n) := by
  induction n with
  | zero => exact Emits.pure ()
  | succ n ih => exact Emits.emit_then rfl ih

/-! ## Leaves and calls -/

theorem emits_call (d : Decl) (arguments : Nat) :
    Emits (emitCall d arguments) (planCall d arguments) := by
  unfold emitCall planCall
  by_cases h : arguments < d.arity.toNat
  · rw [if_pos h, if_pos h]
    exact Emits.emit rfl
  · rw [if_neg h, if_neg h]
    cases d.kind <;> exact Emits.emit_then rfl (Emits.applies _)

theorem emits_resolve (g : Globals) (name : String) :
    Emits (g.resolve name) (g.planResolve name) := by
  unfold Globals.resolve Globals.planResolve
  cases g.table.lookup? name with
  | none => exact Emits.throw _
  | some d => exact Emits.pure d

theorem emits_constant (g : Globals) (name : String) (marker : Marker) :
    Emits (compileConstant g name marker) (planConstant g name marker) := by
  unfold compileConstant planConstant
  cases marker.kind with
  | neutral => exact Emits.emit rfl
  | unreachable => exact Emits.emit rfl
  | cnstr => exact Emits.emit rfl
  | plain =>
    by_cases h : name = Term.natZero
    · simp only [h, if_true]
      exact Emits.emit rfl
    · simp only [h, if_false]
      exact (emits_resolve g name).bind fun d => emits_call d 0
  | proj => exact Emits.throw _
  | cases => exact Emits.throw _
  | other code h => exact Emits.throw _

theorem emits_leave (role : Role) : Emits role.leave role.plan := by
  cases role with
  | value => exact Emits.pure 0
  | alternative n =>
    by_cases h : 0 < n
    · simp only [Role.leave, Role.plan, h, if_true]
      exact Emits.emit_then rfl (Emits.pure n)
    · simp only [Role.leave, Role.plan, h, if_false]
      exact Emits.pure n
  | letBody n =>
    by_cases h : 0 < n
    · simp only [Role.leave, Role.plan, h, if_true]
      exact Emits.emit_then rfl (Emits.pure n)
    · simp only [Role.leave, Role.plan, h, if_false]
      exact Emits.pure n

/-! ## Lists of terms -/

/-- Code generation for a term does what its plan draws, in whatever surroundings. -/
def TermEmits (g : Globals) (t : Term) : Prop :=
  ∀ role depth scope, Emits (compileTerm g t role depth scope) (planTerm g t role depth scope)

section Lists

variable {g : Globals}

theorem emits_args {args : List Term} (h : ∀ a ∈ args, TermEmits g a) (depth : Nat)
    (scope : Scope) : Emits (compileArgs g args depth scope) (planArgs g args depth scope) := by
  induction args generalizing depth with
  | nil => exact Emits.pure ()
  | cons a as ih =>
    rw [List.forall_mem_cons] at h
    exact (h.1 .value depth scope).bind fun _ => ih h.2 (depth + 1)

theorem emits_argsRev {args : List Term} (h : ∀ a ∈ args, TermEmits g a) (depth : Nat)
    (scope : Scope) :
    Emits (compileArgsRev g args depth scope) (planArgsRev g args depth scope) := by
  induction args generalizing depth with
  | nil => exact Emits.pure ()
  | cons a as ih =>
    rw [List.forall_mem_cons] at h
    exact (ih h.2 depth).bind fun _ => (h.1 .value _ scope).bind fun _ => Emits.pure ()

theorem emits_bindings {bindings : List (String × Term)} (h : ∀ b ∈ bindings, TermEmits g b.2)
    (depth : Nat) (scope : Scope) :
    Emits (compileBindings g bindings depth scope) (planBindings g bindings depth scope) := by
  induction bindings generalizing depth scope with
  | nil => exact Emits.pure scope
  | cons b bs ih =>
    rw [List.forall_mem_cons] at h
    exact (h.1 .value depth scope).bind fun _ => Emits.fresh.bind fun _ => ih h.2 _ _

theorem emits_projection {index : UInt32} {args : List Term} (h : ∀ a ∈ args, TermEmits g a)
    (depth : Nat) (scope : Scope) :
    Emits (compileProjection g index args depth scope)
      (planProjection g index args depth scope) := by
  cases args with
  | nil => exact Emits.throw _
  | cons subject extra =>
    rw [List.forall_mem_cons] at h
    exact (emits_argsRev h.2 depth scope).bind fun _ => (h.1 .value _ scope).bind fun _ =>
      Emits.emit_then rfl (Emits.applies _)

/-! ## Dispatches -/

theorem length_planAlternatives {alts : List Term} {depth : Nat} {scope : Scope} {id id' : Nat}
    {os : List (Nat × Outline)}
    (h : planAlternatives g alts depth scope id = .ok (os, id')) : os.length = alts.length := by
  induction alts generalizing id os with
  | nil =>
    cases h
    rfl
  | cons alt rest ih =>
    obtain ⟨first, -, h⟩ := Result.bind_eq_ok.mp h
    obtain ⟨⟨more, id₂⟩, hmore, h⟩ := Result.bind_eq_ok.mp h
    cases h
    simp [ih hmore]

/-- What came of the alternatives of a dispatch is what was planned, with the jumps at their ends
    still pending. -/
def RealizesAlternatives (b : Buffer) (r : Except Failure (List Alternative × State)) :
    Except Failure (List (Nat × Outline) × Nat) → Prop
  | .error f => ∃ f', r = .error f' ∧ Alike f f'
  | .ok (os, id) => ∃ b', r = .ok (records b.next os, ⟨b', id⟩) ∧
      b.Grows (layoutAlternatives 0 b.next os) (exitSlots b.next os) b'

/-- The jump behind an alternative, unless it is the last one. -/
theorem exitJump_ok {α : Type} {b : Buffer} (hb : b.Open) (id : Nat) (rest : List α) :
    ∃ b', (if rest.isEmpty then Pure.pure none else some <$> emit .goto : Gen (Option Nat)) ⟨b, id⟩
        = .ok (if rest.isEmpty then none else some b.next, ⟨b', id⟩) ∧
      b.Grows (List.replicate (jumps rest) (jumpTo 0))
        (if rest.isEmpty then [] else [⟨b.next, 0⟩]) b' := by
  cases rest with
  | nil => exact ⟨b, rfl, Buffer.Grows.refl hb⟩
  | cons a as =>
    obtain ⟨b', hrun, hgrow, -⟩ := @emit_ok b .goto id hb
    refine ⟨b', ?_, hgrow⟩
    show (some <$> emit .goto : Gen (Option Nat)) ⟨b, id⟩ = _
    rw [map_eq_pure_bind, run_bind_ok hrun]
    rfl

/-- The pending jumps of alternatives are the one behind the first and those of the rest. -/
theorem exitSlots_cons (start fields : Nat) (o : Outline) (rest : List (Nat × Outline)) :
    exitSlots start ((fields, o) :: rest) =
      (if rest.isEmpty then [] else [⟨(start + o.size : Nat), 0⟩])
        ++ exitSlots (start + o.size + jumps rest) rest := by
  cases rest <;> simp [exitSlots, records]

theorem emits_alternatives {alts : List Term} (h : ∀ a ∈ alts, TermEmits g a) (depth : Nat)
    (scope : Scope) {b : Buffer} {id : Nat} (hb : b.Open) :
    RealizesAlternatives b (compileAlternatives g alts depth scope ⟨b, id⟩)
      (planAlternatives g alts depth scope id) := by
  induction alts generalizing b id with
  | nil => exact ⟨b, rfl, Buffer.Grows.refl hb⟩
  | cons alt rest ih =>
    rw [List.forall_mem_cons] at h
    have hfirst := h.1 (.alternative 0) depth scope b id hb
    rw [planAlternatives]
    cases hp : planTerm g alt (.alternative 0) depth scope id with
    | error e =>
      rw [hp] at hfirst
      obtain ⟨e', he', halike⟩ := hfirst
      refine ⟨e', ?_, halike⟩
      rw [compileAlternatives, run_bind_ok (run_nextPc b id)]
      exact run_bind_error he'
    | ok first =>
      rw [hp] at hfirst
      obtain ⟨b₁, hrun, hgrow⟩ := hfirst
      obtain ⟨b₂, hjump, hgrow₂⟩ := exitJump_ok hgrow.isOpen first.lastId rest
      have hnext : b₁.next = b.next + first.outline.size := by
        rw [hgrow.next_eq, length_layout]
      have hnext₂ : b₂.next = b.next + first.outline.size + jumps rest := by
        rw [hgrow₂.next_eq, List.length_replicate, hnext]
      -- what follows the jump, whether there is one or not
      have hstep : (compileAlternatives g (alt :: rest) depth scope) ⟨b, id⟩ =
          (compileAlternatives g rest depth scope >>= fun more => Pure.pure
            (⟨b.next, first.value, if rest.isEmpty then none else some b₁.next⟩ :: more))
            ⟨b₂, first.lastId⟩ := by
        rw [compileAlternatives, run_bind_ok (run_nextPc b id), run_bind_ok hrun]
        cases rest with
        | nil => exact run_bind_ok hjump
        | cons a as => exact run_bind_ok hjump
      have hrest := @ih h.2 b₂ first.lastId hgrow₂.isOpen
      rw [hstep, Result.ok_bind]
      cases hq : planAlternatives g rest depth scope first.lastId with
      | error e =>
        rw [hq] at hrest
        obtain ⟨e', he', halike⟩ := hrest
        exact ⟨e', run_bind_error he', halike⟩
      | ok more =>
        obtain ⟨os, id'⟩ := more
        rw [hq] at hrest
        obtain ⟨b₃, hrun₃, hgrow₃⟩ := hrest
        have hempty : rest.isEmpty = os.isEmpty := by
          have hlen := length_planAlternatives hq
          cases os <;> cases rest <;> simp_all
        have hjumps : jumps rest = jumps os := by simp only [jumps, hempty]
        rw [hnext₂, hjumps] at hgrow₃ hrun₃
        rw [hjumps, hempty, hnext] at hgrow₂
        refine ⟨b₃, ?_, ?_⟩
        · rw [run_bind_ok hrun₃, hempty, hnext]
          rfl
        · rw [exitSlots_cons]
          exact hgrow.trans (hgrow₂.trans hgrow₃)

/-- A dispatch, its alternatives behind it, and the completion of its placeholders. -/
theorem emits_dispatch {head : CaseHead} {alts : List Term} (h : ∀ a ∈ alts, TermEmits g a)
    (depth : Nat) (scope : Scope) :
    Emits (emit head.instr >>= fun pc => compileAlternatives g alts depth scope >>= fun done =>
        completeDispatch pc head.instr done)
      (Plan.dispatch head (planAlternatives g alts depth scope)) := by
  intro b id hb
  obtain ⟨b₁, hemit, hgrow₁, hfielded₁⟩ := @emit_ok b head.instr id hb
  have hnext₁ : b₁.next = b.next + 1 := by
    rw [hgrow₁.next_eq]
    rfl
  have halts := @emits_alternatives g alts h depth scope b₁ id hgrow₁.isOpen
  rw [run_bind_ok hemit]
  unfold Plan.dispatch
  cases hp : planAlternatives g alts depth scope id with
  | error e =>
    rw [hp] at halts
    obtain ⟨e', he', halike⟩ := halts
    exact ⟨e', run_bind_error he', halike⟩
  | ok drawn =>
    obtain ⟨os, id'⟩ := drawn
    rw [hp] at halts
    obtain ⟨b₂, hrun, hgrow₂⟩ := halts
    rw [hnext₁] at hrun hgrow₂
    rw [run_bind_ok hrun, Result.ok_bind]
    show Realizes b _ (if os.length = head.alternatives.toNat then .ok ⟨(), .dispatch head os, id'⟩
      else .error (.misuse (.fieldCount 0 head.alternatives.toNat os.length)))
    have hgrow := hgrow₁.trans hgrow₂
    -- nothing behind the dispatch has touched its field counts
    have hfresh : (b.next : Int) ∉ b₂.fielded := by
      intro hmem
      rcases hgrow₂.fielded_new _ hmem with hold | hnew
      · have := hb.fielded_lt _ (hfielded₁ ▸ hold)
        omega
      · omega
    by_cases hlen : os.length = head.alternatives.toNat
    · obtain ⟨b₃, hdone, hgrow₃⟩ := completeDispatch_grows id' hgrow hfresh hlen
      rw [if_pos hlen]
      exact ⟨b₃, hdone, hgrow₃⟩
    · obtain ⟨m, hm⟩ := completeDispatch_error id' hgrow hfresh hlen
      rw [if_neg hlen]
      exact ⟨_, hm, Alike.misuse _ _⟩

theorem emits_analysis {head : CaseHead} {args : List Term} (h : ∀ a ∈ args, TermEmits g a)
    (depth : Nat) (scope : Scope) :
    Emits (compileAnalysis g head args depth scope) (planAnalysis g head args depth scope) := by
  unfold compileAnalysis planAnalysis
  by_cases hzero : head.alternatives = 0
  · rw [if_pos hzero, if_pos hzero]
    exact Emits.throw _
  · rw [if_neg hzero, if_neg hzero]
    by_cases hcount : UInt32.ofNat args.length ≠ head.alternatives + 1
    · rw [if_pos hcount, if_pos hcount]
      exact Emits.throw _
    · rw [if_neg hcount, if_neg hcount]
      cases args with
      | nil => exact Emits.throw _
      | cons major alts =>
        rw [List.forall_mem_cons] at h
        exact (h.1 .value depth scope).bind fun _ => emits_dispatch h.2 depth scope

end Lists

/-! ## Terms -/

/-- The code of an application follows what stands at its head. -/
theorem compileTerm_app {g : Globals} (fn : Term) (args : List Term) (role : Role) (depth : Nat)
    (scope : Scope) :
    compileTerm g (.app fn args) role depth scope =
      (match g.head fn with
        | .analysis head => compileAnalysis g head args depth scope
        | .cnstr index => do
            compileArgs g args depth scope
            let _ ← emit (.cnstr index (UInt32.ofNat args.length))
        | .proj index => compileProjection g index args depth scope
        | .neutral => do let _ ← emit (.scnstr 0)
        | .unreachable => do let _ ← emit .unreachable
        | .declared name => do
            let d ← g.resolve name
            compileArgsRev g args depth scope
            emitCall d args.length
        | .unusable marker => violated (.appliedMarker marker args.length)
        | .computed => do
            compileArgsRev g args depth scope
            let _ ← compileTerm g fn .value (depth + args.length) scope
            emitApplies args.length) >>= fun _ => role.leave := by
  conv_lhs => unfold compileTerm
  cases fn with
  | const name marker =>
    simp only [Globals.head]
    cases g.caseHead? name marker with
    | some head => simp
    | none => cases marker.kind <;> simp
  | _ => simp [Globals.head]

/-- A term that does not go on with what its surroundings bind has the code of its value, and they
    leave. -/
theorem compileTerm_leave {g : Globals} {t : Term} {role : Role}
    (hlam : ∀ n, role = .alternative n → t.arity = 0)
    (hlet : ∀ n, role = .letBody n → ∀ bs b, t ≠ .letIn bs b) (depth : Nat) (scope : Scope) :
    compileTerm g t role depth scope =
      compileTerm g t .value depth scope >>= fun _ => role.leave := by
  cases t with
  | app fn args => simp [compileTerm_app, Role.leave]
  | var i =>
    simp only [compileTerm]
    cases scope[i.toNat]? with
    | none => rfl
    | some b => simp [Role.leave]
  | fvar id name =>
    simp only [compileTerm]
    cases scope.find? fun b => b.id == id.toNat with
    | none => rfl
    | some b => simp [Role.leave]
  | const name marker | nat value | quote body | ann name body => simp [compileTerm, Role.leave]
  | lam binder body =>
    cases role with
    | alternative n => cases hlam n rfl
    | _ => rfl
  | letIn bindings body =>
    cases role with
    | letBody n => exact absurd rfl (hlet n rfl bindings body)
    | _ => simp [compileTerm, Role.leave]
  | _ => rfl

theorem emits_app {g : Globals} {fn : Term} {args : List Term} (hfn : TermEmits g fn)
    (hargs : ∀ a ∈ args, TermEmits g a) : TermEmits g (.app fn args) := by
  intro role depth scope
  rw [compileTerm_app, planTerm]
  refine Emits.bind ?_ fun _ => emits_leave role
  cases g.head fn with
  | analysis head => exact emits_analysis hargs depth scope
  | cnstr index => exact (emits_args hargs depth scope).bind fun _ => Emits.emit rfl
  | proj index => exact emits_projection hargs depth scope
  | neutral => exact Emits.emit rfl
  | unreachable => exact Emits.emit rfl
  | declared name =>
    exact (emits_resolve g name).bind fun d =>
      (emits_argsRev hargs depth scope).bind fun _ => emits_call d _
  | unusable marker => exact Emits.throw _
  | computed =>
    exact (emits_argsRev hargs depth scope).bind fun _ =>
      (hfn .value _ scope).bind fun _ => Emits.applies _

theorem emits_term (g : Globals) (t : Term) : TermEmits g t := by
  induction t using Term.ind with
  | absent => exact fun role depth scope => Emits.throw _
  | var i =>
    intro role depth scope
    simp only [compileTerm, planTerm]
    cases scope[i.toNat]? with
    | none => exact Emits.throw _
    | some b => exact Emits.emit_then rfl (emits_leave role)
  | fvar id name =>
    intro role depth scope
    simp only [compileTerm, planTerm]
    cases scope.find? fun b => b.id == id.toNat with
    | none => exact Emits.throw _
    | some b => exact Emits.emit_then rfl (emits_leave role)
  | const name marker =>
    exact fun role depth scope => (emits_constant g name marker).bind fun _ => emits_leave role
  | sort level => exact fun role depth scope => Emits.throw _
  | mvar name => exact fun role depth scope => Emits.throw _
  | pi binder domain body => exact fun role depth scope => Emits.throw _
  | lam binder body ih =>
    intro role depth scope
    cases role with
    | alternative n => exact Emits.fresh.bind fun id => ih _ _ _
    | value => exact Emits.throw _
    | letBody n => exact Emits.throw _
  | letIn bindings body ihbindings ihbody =>
    intro role depth scope
    simp only [compileTerm, planTerm]
    refine (emits_bindings ihbindings depth scope).bind fun inner => ?_
    cases role with
    | letBody n => exact ihbody _ _ _
    | value => exact (ihbody _ _ _).bind fun _ => emits_leave _
    | alternative n => exact (ihbody _ _ _).bind fun _ => emits_leave _
  | nat value => exact fun role depth scope => Emits.emit_then rfl (emits_leave role)
  | quote body ih => exact fun role depth scope => Emits.emit_then rfl (emits_leave role)
  | ann name body ih =>
    exact fun role depth scope => (ih .value depth scope).bind fun _ => emits_leave role
  | foreign name args ih => exact fun role depth scope => Emits.throw _
  | app fn args ihfn ihargs => exact emits_app ihfn ihargs

/-! ## Procedures -/

/-- The plan of a procedure's body. -/
def planBody (g : Globals) (t : Term) : Except Failure (Drawing Nat) :=
  planTerm g (bodyOf t).flatten .value t.arity (parameters t.arity) t.arity

theorem nodes_bodyOf (t : Term) : (bodyOf t).nodes + t.arity = t.nodes := by
  induction t using Term.ind with
  | lam binder body ih =>
    simp only [bodyOf, Term.arity, Term.nodes]
    omega
  | _ => rfl

/-- A planned body, and nothing else, becomes a procedure: the layout of its outline and a
    return. -/
theorem compileProcedure_eq_ok_iff {g : Globals} {name : String} {t : Term} {p : Procedure} :
    compileProcedure g name t = .ok p ↔
      ∃ d, planBody g t = .ok d ∧
        p = ⟨name, UInt32.ofNat t.arity, d.outline.layout 0 ++ [.ret]⟩ := by
  have hterm := emits_term g (bodyOf t).flatten .value t.arity (parameters t.arity)
    .empty t.arity Buffer.open_empty
  change Realizes Buffer.empty _ (planBody g t) at hterm
  unfold compileProcedure compileBody
  cases hplan : planBody g t with
  | error f =>
    rw [hplan] at hterm
    obtain ⟨f', hf', -⟩ := hterm
    rw [StateT.run, run_bind_error hf']
    simp
  | ok d =>
    rw [hplan] at hterm
    obtain ⟨b, hrun, hgrow⟩ := hterm
    obtain ⟨b', hemit, hgrow', -⟩ := @emit_ok b .ret d.lastId hgrow.isOpen
    have hgrown := hgrow.trans hgrow'
    -- a return brings no placeholder, so that none is left
    have hpending : b'.pending = [] := hgrown.pending_eq
    have hcode : b'.code.toList = d.outline.layout 0 ++ [.ret] := hgrown.code_eq
    have hfinal : b'.finalize = .ok { b' with finalized := true } := by
      simp [Buffer.finalize, hpending]
    obtain ⟨w, hout, hw⟩ := @handOut_ok ⟨b', d.lastId⟩ _ hfinal
    rw [StateT.run, run_bind_ok hrun, run_bind_ok hemit, hout]
    simp only [Result.ok_bind, Result.pure_eq, hw, hcode]
    grind

/-- A procedure is missing where the plan of its body fails, for the same reason. -/
theorem compileProcedure_eq_error {g : Globals} {name : String} {t : Term} {f : Failure}
    (h : compileProcedure g name t = .error f) :
    ∃ f', planBody g t = .error f' ∧ Alike f' f := by
  have hterm := emits_term g (bodyOf t).flatten .value t.arity (parameters t.arity)
    .empty t.arity Buffer.open_empty
  change Realizes Buffer.empty _ (planBody g t) at hterm
  cases hplan : planBody g t with
  | ok d =>
    have hp := compileProcedure_eq_ok_iff.mpr ⟨d, hplan, @rfl _ (⟨name, _, _⟩ : Procedure)⟩
    rw [h] at hp
    cases hp
  | error f' =>
    rw [hplan] at hterm
    obtain ⟨f'', hrun, halike⟩ := hterm
    unfold compileProcedure compileBody at h
    rw [StateT.run, run_bind_error hrun, Result.error_bind] at h
    obtain rfl : f'' = f := Except.error.inj h
    exact ⟨f', rfl, halike⟩

theorem header_of_compileProcedure {g : Globals} {name : String} {t : Term} {p : Procedure}
    (hp : compileProcedure g name t = .ok p) : p.name = name ∧ p.arity = UInt32.ofNat t.arity := by
  obtain ⟨d, -, rfl⟩ := compileProcedure_eq_ok_iff.mp hp
  exact ⟨rfl, rfl⟩

end TermVM.Codegen
