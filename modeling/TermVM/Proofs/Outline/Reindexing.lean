/-
  TermVM.Proofs.Outline.Reindexing

  Generated code and the indices of the declarations it refers to.

  Code generation looks declarations up by name and writes their indices into
  calls and partial applications; it does nothing else with an index, and never
  depends on a name being absent.  So where a term compiles, it compiles against
  any globals that know the same names, and the code differs by the change of
  indices only: `compileProcedure_reindex`.

  In particular every index in generated code is the index of a declaration
  that was looked up: `exists_lookup_of_refers`.
-/
import TermVM.Proofs.Outline.Emission
import TermVM.Proofs.Outline.Mapping

namespace TermVM

open Codegen

/-! ## Indices in code -/

namespace Instr

/-- The first operand of an instruction is the index of a declaration. -/
def refers (i : Instr) : Bool :=
  i.op = .named .invokeGlobal || i.op = .named .invokeBuiltin || i.op = .named .invokeNative
    || i.op = .named .closure

/-- An instruction with the declaration index in it changed. -/
def reindex (ρ : UInt32 → UInt32) (i : Instr) : Instr :=
  if i.refers then { i with a := ρ i.a } else i

theorem reindex_of_not_refers {ρ : UInt32 → UInt32} {i : Instr} (h : i.refers = false) :
    i.reindex ρ = i := by
  simp [reindex, h]

theorem reindex_id : reindex id = id := by
  funext i
  simp [reindex]

theorem reindex_invoke (ρ : UInt32 → UInt32) {m : Mnemonic}
    (hm : m = .invokeGlobal ∨ m = .invokeBuiltin ∨ m = .invokeNative) (index : UInt32) :
    (invoke m index).reindex ρ = invoke m (ρ index) := by
  rcases hm with rfl | rfl | rfl <;> rfl

theorem branches_of_refers {i : Instr} (h : i.refers = true) : i.op.branches = false := by
  simp only [refers, Bool.or_eq_true, decide_eq_true_eq] at h
  rcases h with ((h | h) | h) | h <;> rw [h] <;> rfl

/-- An instruction that is left as it is has its index left as it is. -/
theorem eq_of_reindex_eq {ρ : UInt32 → UInt32} {i : Instr} (hrefers : i.refers = true)
    (h : i.reindex ρ = i) : ρ i.a = i.a := by
  rw [reindex, if_pos hrefers] at h
  exact congrArg Instr.a h

end Instr

/-- A dispatch refers to no declaration. -/
theorem Codegen.CaseHead.refers_instr (head : CaseHead) : head.instr.refers = false := by
  rcases head.instr_cases with h | ⟨m, a, n, hm, h⟩
  · rw [h]
    rfl
  · refine Bool.eq_false_iff.mpr fun hrefers => ?_
    have hbranches := Instr.branches_of_refers hrefers
    rw [h] at hbranches
    exact Bool.false_ne_true (hbranches.symm.trans hm)

theorem Outline.steady_reindex (ρ : UInt32 → UInt32) : Steady (Instr.reindex ρ) where
  jump _ := rfl
  filled head _ := Instr.reindex_of_not_refers head.refers_instr

/-- A record with its index changed. -/
def Decl.reindex (ρ : UInt32 → UInt32) (d : Decl) : Decl :=
  { d with index := ρ d.index }

namespace Codegen

/-! ## Plans that follow each other -/

/-- A drawing with the declaration indices in it changed. -/
def Drawing.reindex {α : Type} (ρ : UInt32 → UInt32) (d : Drawing α) : Drawing α :=
  { d with outline := d.outline.map (Instr.reindex ρ) }

/-- What the first plan draws, the second draws with the indices changed.  Where the first fails,
    the second may do anything. -/
def Redraws {α : Type} (ρ : UInt32 → UInt32) (p q : Plan α) : Prop :=
  ∀ id d, p id = .ok d → q id = .ok (d.reindex ρ)

namespace Redraws

variable {α β : Type} {ρ : UInt32 → UInt32}

theorem pure (a : α) : Redraws ρ (Pure.pure a) (Pure.pure a) := by
  rintro id d ⟨⟩
  rfl

theorem fail {f : Failure} {q : Plan α} : Redraws ρ (Plan.fail f) q := by
  rintro id d ⟨⟩

theorem fresh : Redraws ρ Plan.fresh Plan.fresh := by
  rintro id d ⟨⟩
  rfl

theorem op (i : Instr) : Redraws ρ (Plan.op i) (Plan.op (i.reindex ρ)) := by
  rintro id d ⟨⟩
  rfl

theorem bind {p q : Plan α} {f f' : α → Plan β} (hp : Redraws ρ p q)
    (hf : ∀ a, Redraws ρ (f a) (f' a)) : Redraws ρ (p >>= f) (q >>= f') := by
  intro id d hd
  obtain ⟨first, hfirst, second, hsecond, rfl⟩ := Plan.bind_eq_ok.mp hd
  have hthen := hf first.value first.lastId second hsecond
  exact Plan.bind_eq_ok.mpr ⟨_, hp id first hfirst, _, hthen, rfl⟩

theorem applies (n : Nat) : Redraws ρ (Plan.applies n) (Plan.applies n) := by
  induction n with
  | zero => exact Redraws.pure ()
  | succ n ih => exact (Redraws.op .apply).bind fun _ => ih

theorem dispatch (head : CaseHead)
    {alts alts' : Nat → Except Failure (List (Nat × Outline) × Nat)}
    (h : ∀ id os id', alts id = .ok (os, id') →
      alts' id = .ok (Outline.mapAlternatives (Instr.reindex ρ) os, id')) :
    Redraws ρ (Plan.dispatch head alts) (Plan.dispatch head alts') := by
  intro id d hd
  obtain ⟨⟨os, id'⟩, hos, hd⟩ := Result.bind_eq_ok.mp hd
  refine Result.bind_eq_ok.mpr ⟨_, h id os id' hos, ?_⟩
  dsimp only at hd ⊢
  rw [Outline.length_mapAlternatives]
  split at hd
  next hcount =>
    cases hd
    rw [if_pos hcount]
    rfl
  next => cases hd

end Redraws

/-! ## Leaves and calls -/

/-- The second globals know every name that the first do, by a changed index, and have the same
    analyzers. -/
structure Globals.Reindexes (ρ : UInt32 → UInt32) (g g' : Globals) : Prop where
  analyzers_eq : g'.analyzers = g.analyzers
  lookup_eq : ∀ name d, g.table.lookup? name = some d →
    g'.table.lookup? name = some (d.reindex ρ)

section

variable {ρ : UInt32 → UInt32}

theorem redraws_leave (role : Role) : Redraws ρ role.plan role.plan := by
  have hleave : ∀ n, Redraws ρ (do if 0 < n then Plan.op (.drop (UInt32.ofNat n))
                                   return n)
      (do if 0 < n then Plan.op (.drop (UInt32.ofNat n))
          return n) := by
    intro n
    by_cases hpos : 0 < n
    · simp only [hpos, if_true]
      exact (Redraws.op (.drop (UInt32.ofNat n))).bind fun _ => Redraws.pure n
    · simp only [hpos, if_false]
      exact Redraws.pure n
  cases role with
  | value => exact Redraws.pure 0
  | alternative n => exact hleave n
  | letBody n => exact hleave n

/-- The index of a declaration matters to a call only as the operand that it becomes. -/
theorem redraws_call (d : Decl) (arguments : Nat) :
    Redraws ρ (planCall d arguments) (planCall (d.reindex ρ) arguments) := by
  have hclosure := @Redraws.op ρ (.closure d.index (UInt32.ofNat arguments))
  have hinvoke : ∀ m, m = .invokeGlobal ∨ m = .invokeBuiltin ∨ m = .invokeNative →
      Redraws ρ (Plan.op (.invoke m d.index)) (Plan.op (.invoke m (ρ d.index))) := by
    intro m hm
    rw [← Instr.reindex_invoke ρ hm]
    exact Redraws.op _
  unfold planCall
  show Redraws ρ _ (if arguments < d.arity.toNat then _ else _)
  split
  · exact hclosure
  · refine Redraws.bind (hinvoke _ ?_) fun _ => Redraws.applies _
    cases d.kind <;> simp

variable {g g' : Globals} (h : g.Reindexes ρ g')

include h

/-- Whatever is done with a declaration that was found, may be done with the one found instead. -/
theorem redraws_resolve {α : Type} (name : String) {f f' : Decl → Plan α}
    (hf : ∀ d, Redraws ρ (f d) (f' (d.reindex ρ))) :
    Redraws ρ (g.planResolve name >>= f) (g'.planResolve name >>= f') := by
  intro id d hd
  obtain ⟨first, hfirst, second, hsecond, rfl⟩ := Plan.bind_eq_ok.mp hd
  unfold Globals.planResolve at hfirst
  cases hlookup : g.table.lookup? name with
  | none =>
    rw [hlookup] at hfirst
    cases hfirst
  | some decl =>
    rw [hlookup] at hfirst
    cases hfirst
    have hfound : g'.planResolve name = Pure.pure (decl.reindex ρ) := by
      rw [Globals.planResolve, h.lookup_eq name decl hlookup]
    rw [hfound]
    exact Plan.bind_eq_ok.mpr ⟨⟨decl.reindex ρ, .nil, id⟩, rfl, _, hf decl id second hsecond, rfl⟩

theorem redraws_constant (name : String) (marker : Marker) :
    Redraws ρ (planConstant g name marker) (planConstant g' name marker) := by
  unfold planConstant
  cases marker.kind with
  | neutral => exact Redraws.op (.scnstr 0)
  | unreachable => exact Redraws.op .unreachable
  | cnstr => exact Redraws.op (.scnstr marker.index)
  | plain =>
    by_cases hzero : name = Term.natZero
    · simp only [hzero, if_true]
      exact Redraws.op (.literal 0)
    · simp only [hzero, if_false]
      exact redraws_resolve h name fun d => redraws_call d 0
  | proj => exact Redraws.fail
  | cases => exact Redraws.fail
  | other code reserved => exact Redraws.fail

/-- What a term makes of the head of an application depends on the analyzers only. -/
theorem head_reindex (fn : Term) : g'.head fn = g.head fn := by
  cases fn with
  | const name marker => simp only [Globals.head, Globals.caseHead?, h.analyzers_eq]
  | _ => rfl

end

/-! ## Terms -/

/-- The plan of a term against the first globals is followed by its plan against the second. -/
def TermRedraws (ρ : UInt32 → UInt32) (g g' : Globals) (t : Term) : Prop :=
  ∀ role depth scope, Redraws ρ (planTerm g t role depth scope) (planTerm g' t role depth scope)

section Lists

variable {ρ : UInt32 → UInt32} {g g' : Globals} {args : List Term}
  (hargs : ∀ a ∈ args, TermRedraws ρ g g' a)

include hargs

theorem redraws_args (depth : Nat) (scope : Scope) :
    Redraws ρ (planArgs g args depth scope) (planArgs g' args depth scope) := by
  induction args generalizing depth with
  | nil => exact Redraws.pure ()
  | cons a as ih =>
    rw [List.forall_mem_cons] at hargs
    exact (hargs.1 .value depth scope).bind fun _ => ih hargs.2 (depth + 1)

theorem redraws_argsRev (depth : Nat) (scope : Scope) :
    Redraws ρ (planArgsRev g args depth scope) (planArgsRev g' args depth scope) := by
  induction args with
  | nil => exact Redraws.pure ()
  | cons a as ih =>
    rw [List.forall_mem_cons] at hargs
    exact (ih hargs.2).bind fun _ => (hargs.1 .value (depth + as.length) scope).bind fun _ =>
      Redraws.pure ()

theorem redraws_projection (index : UInt32) (depth : Nat) (scope : Scope) :
    Redraws ρ (planProjection g index args depth scope)
      (planProjection g' index args depth scope) := by
  cases args with
  | nil => exact Redraws.fail
  | cons subject extra =>
    rw [List.forall_mem_cons] at hargs
    exact (redraws_argsRev hargs.2 depth scope).bind fun _ =>
      (hargs.1 .value (depth + extra.length) scope).bind fun _ =>
        (Redraws.op (.proj index)).bind fun _ => Redraws.applies extra.length

theorem planAlternatives_reindex {depth : Nat} {scope : Scope} {id id' : Nat}
    {os : List (Nat × Outline)} (hos : planAlternatives g args depth scope id = .ok (os, id')) :
    planAlternatives g' args depth scope id
      = .ok (Outline.mapAlternatives (Instr.reindex ρ) os, id') := by
  induction args generalizing id id' os with
  | nil =>
    cases hos
    rfl
  | cons alt rest ih =>
    rw [List.forall_mem_cons] at hargs
    obtain ⟨first, hfirst, hos⟩ := Result.bind_eq_ok.mp hos
    obtain ⟨⟨more, id₂⟩, hmore, hos⟩ := Result.bind_eq_ok.mp hos
    cases hos
    rw [planAlternatives, hargs.1 (.alternative 0) depth scope id first hfirst, Result.ok_bind]
    show (planAlternatives g' rest depth scope first.lastId >>= _) = _
    rw [ih hargs.2 hmore]
    rfl

theorem redraws_analysis (head : CaseHead) (depth : Nat) (scope : Scope) :
    Redraws ρ (planAnalysis g head args depth scope) (planAnalysis g' head args depth scope) := by
  unfold planAnalysis
  split
  · exact Redraws.fail
  · split
    · exact Redraws.fail
    · cases args with
      | nil => exact Redraws.fail
      | cons major alts =>
        rw [List.forall_mem_cons] at hargs
        exact (hargs.1 .value depth scope).bind fun _ =>
          Redraws.dispatch head fun id os id' hos => planAlternatives_reindex hargs.2 hos

end Lists

section

variable {ρ : UInt32 → UInt32} {g g' : Globals}

theorem redraws_bindings {bindings : List (String × Term)}
    (hbindings : ∀ b ∈ bindings, TermRedraws ρ g g' b.2) (depth : Nat) (scope : Scope) :
    Redraws ρ (planBindings g bindings depth scope) (planBindings g' bindings depth scope) := by
  induction bindings generalizing depth scope with
  | nil => exact Redraws.pure scope
  | cons b bs ih =>
    rw [List.forall_mem_cons] at hbindings
    exact (hbindings.1 .value depth scope).bind fun _ => Redraws.fresh.bind fun id =>
      ih hbindings.2 (depth + 1) (⟨id, depth⟩ :: scope)

theorem redraws_let {bindings : List (String × Term)} {body : Term}
    (hbindings : ∀ b ∈ bindings, TermRedraws ρ g g' b.2) (hbody : TermRedraws ρ g g' body) :
    TermRedraws ρ g g' (.letIn bindings body) := by
  intro role depth scope
  have hvalues := redraws_bindings hbindings depth scope
  have hclosed := fun inner =>
    (hbody (.letBody bindings.length) (depth + bindings.length) inner).bind
      fun _ => redraws_leave role
  rw [planTerm, planTerm]
  cases role with
  | value => exact hvalues.bind hclosed
  | alternative n => exact hvalues.bind hclosed
  | letBody n => exact hvalues.bind fun inner => hbody _ _ inner

theorem redraws_app (h : g.Reindexes ρ g') {fn : Term} {args : List Term}
    (hfn : TermRedraws ρ g g' fn) (hargs : ∀ a ∈ args, TermRedraws ρ g g' a) :
    TermRedraws ρ g g' (.app fn args) := by
  intro role depth scope
  rw [planTerm, planTerm, head_reindex h]
  refine Redraws.bind ?_ fun _ => redraws_leave role
  cases g.head fn with
  | analysis head => exact redraws_analysis hargs head depth scope
  | cnstr index =>
    exact (redraws_args hargs depth scope).bind fun _ =>
      Redraws.op (.cnstr index (UInt32.ofNat args.length))
  | proj index => exact redraws_projection hargs index depth scope
  | neutral => exact Redraws.op (.scnstr 0)
  | unreachable => exact Redraws.op .unreachable
  | declared name =>
    exact redraws_resolve h name fun d => (redraws_argsRev hargs depth scope).bind fun _ =>
      redraws_call d args.length
  | unusable marker => exact Redraws.fail
  | computed =>
    exact (redraws_argsRev hargs depth scope).bind fun _ =>
      (hfn .value (depth + args.length) scope).bind fun _ => Redraws.applies args.length

theorem redraws_term (h : g.Reindexes ρ g') (t : Term) : TermRedraws ρ g g' t := by
  induction t using Term.ind with
  | app fn args ihfn ihargs => exact redraws_app h ihfn ihargs
  | letIn bindings body ihbindings ihbody => exact redraws_let ihbindings ihbody
  | absent => exact fun role depth scope => Redraws.fail
  | sort level => exact fun role depth scope => Redraws.fail
  | mvar name => exact fun role depth scope => Redraws.fail
  | pi binder domain body => exact fun role depth scope => Redraws.fail
  | foreign name args => exact fun role depth scope => Redraws.fail
  | var i =>
    intro role depth scope
    rw [planTerm, planTerm]
    cases scope[i.toNat]? with
    | none => exact Redraws.fail
    | some b => exact (Redraws.op (.push (UInt32.ofNat b.slot))).bind fun _ => redraws_leave role
  | fvar id name =>
    intro role depth scope
    rw [planTerm, planTerm]
    cases scope.find? fun b => b.id == id.toNat with
    | none => exact Redraws.fail
    | some b => exact (Redraws.op (.push (UInt32.ofNat b.slot))).bind fun _ => redraws_leave role
  | const name marker =>
    exact fun role depth scope =>
      (redraws_constant h name marker).bind fun _ => redraws_leave role
  | nat value =>
    exact fun role depth scope => (Redraws.op (.literal value)).bind fun _ => redraws_leave role
  | quote body =>
    exact fun role depth scope => (Redraws.op (.quotation body)).bind fun _ => redraws_leave role
  | ann name body ih =>
    exact fun role depth scope => (ih .value depth scope).bind fun _ => redraws_leave role
  | lam binder body ih =>
    intro role depth scope
    cases role with
    | value => exact Redraws.fail
    | letBody n => exact Redraws.fail
    | alternative n =>
      exact Redraws.fresh.bind fun id =>
        ih (.alternative (n + 1)) (depth + 1) (⟨id, depth⟩ :: scope)

/-! ## Procedures -/

variable {name : String} {t : Term} {p : Procedure}

/-- Where a term compiles, it compiles against any globals that know the same names, to code that
    differs by the change of indices only. -/
theorem compileProcedure_reindex (h : g.Reindexes ρ g') (hp : compileProcedure g name t = .ok p) :
    compileProcedure g' name t = .ok { p with code := p.code.map (Instr.reindex ρ) } := by
  obtain ⟨d, hd, rfl⟩ := compileProcedure_eq_ok_iff.mp hp
  have hbody : planBody g' t = .ok (d.reindex ρ) :=
    redraws_term h (bodyOf t).flatten .value t.arity (parameters t.arity) t.arity d hd
  refine compileProcedure_eq_ok_iff.mpr ⟨d.reindex ρ, hbody, ?_⟩
  have hlayout := Outline.layout_map (Outline.steady_reindex ρ) 0 d.outline
  simp only [List.map_append, ← hlayout]
  rfl

/-- Every index in generated code is the index of a declaration of the table. -/
theorem exists_lookup_of_refers (hp : compileProcedure g name t = .ok p) {i : Instr}
    (hi : i ∈ p.code) (hrefers : i.refers = true) :
    ∃ n d, g.table.lookup? n = some d ∧ d.index = i.a := by
  classical
  -- a change of all other indices leaves the code as it is
  let known (index : UInt32) : Prop := ∃ n d, g.table.lookup? n = some d ∧ d.index = index
  let ρ (index : UInt32) : UInt32 := if known index then index else index + 1
  have hself : g.Reindexes ρ g := by
    refine ⟨rfl, fun n d hd => ?_⟩
    have hindex : ρ d.index = d.index := if_pos ⟨n, d, hd, rfl⟩
    rw [hd, Decl.reindex, hindex]
  have hcode : p.code.map (Instr.reindex ρ) = p.code := by
    have hagain := compileProcedure_reindex hself hp
    rw [hp] at hagain
    exact congrArg Procedure.code (Except.ok.inj hagain).symm
  have hfixed : i.reindex ρ = i := List.map_inj_left.mp (hcode.trans p.code.map_id.symm) i hi
  have hindex : ρ i.a = i.a := Instr.eq_of_reindex_eq hrefers hfixed
  by_contra hunknown
  have hmoved : ρ i.a = i.a + 1 := if_neg hunknown
  rw [hmoved] at hindex
  simp at hindex

end

end Codegen

end TermVM
