/-
  TermVM.Proofs.Outline.Mirror

  Code generation looks at a term only up to its normal form, and at the
  globals only where the term names them.

  `Mirrors p q` says that two plans draw the same outline but for quoted terms,
  which the second draws in normal form, or that both fail.  `mirrors_term`
  carries this over every flat term: its plan is mirrored by the plan of its
  normal form, against any globals that agree on the constants it mentions.
-/
import TermVM.Proofs.Outline.Emission
import TermVM.Proofs.Outline.Mapping
import TermVM.Proofs.Term.Normal

namespace TermVM

open Codegen Result

/-! ## Outlines with normal quotations -/

/-- An instruction with its quoted term in normal form. -/
def Instr.normal (i : Instr) : Instr :=
  { i with expr := i.expr.normalData }

/-- A dispatch quotes nothing. -/
theorem Codegen.CaseHead.expr_instr (head : CaseHead) : head.instr.expr = .absent := by
  rcases head.instr_cases with h | ⟨m, a, n, -, h⟩
  · rw [h]
    rfl
  · rw [h]
    rfl

namespace Outline

mutual

/-- An outline with its quoted terms in normal form. -/
def normal : Outline → Outline
  | nil => nil
  | op i => op i.normal
  | seq first second => seq first.normal second.normal
  | dispatch head alternatives => dispatch head (normalAlternatives alternatives)

/-- Alternatives with their quoted terms in normal form. -/
def normalAlternatives : List (Nat × Outline) → List (Nat × Outline)
  | [] => []
  | (fields, o) :: rest => (fields, o.normal) :: normalAlternatives rest

end

theorem normalAlternatives_eq_map {alts : List (Nat × Outline)}
    (h : ∀ a ∈ alts, a.2.normal = a.2.map Instr.normal) :
    normalAlternatives alts = mapAlternatives Instr.normal alts := by
  induction alts with
  | nil => rfl
  | cons a alts ih =>
    rw [List.forall_mem_cons] at h
    rw [normalAlternatives, mapAlternatives, h.1, ih h.2]

theorem normal_eq_map (o : Outline) : o.normal = o.map Instr.normal := by
  induction o using Outline.ind with
  | nil => rfl
  | op i => rfl
  | seq first second ihfirst ihsecond => rw [normal, map, ihfirst, ihsecond]
  | dispatch head alternatives ih => rw [normal, map, normalAlternatives_eq_map ih]

theorem length_normalAlternatives (alts : List (Nat × Outline)) :
    (normalAlternatives alts).length = alts.length := by
  rw [normalAlternatives_eq_map fun a _ => a.2.normal_eq_map, length_mapAlternatives]

/-- Jumps and dispatches quote nothing. -/
theorem steady_normal : Steady Instr.normal where
  jump target := rfl
  filled head alts := by
    simp only [Instr.normal, filled, head.expr_instr]
    rfl

/-- Quoted terms do not matter to where instructions stand. -/
theorem layout_normal (start : Nat) (o : Outline) :
    o.normal.layout start = (o.layout start).map Instr.normal := by
  rw [normal_eq_map, layout_map steady_normal]

end Outline

/-! ## Plans that mirror each other -/

namespace Codegen

/-- A drawing with its quoted terms in normal form. -/
def Drawing.normal {α : Type} (d : Drawing α) : Drawing α :=
  { d with outline := d.outline.normal }

/-- The second plan draws what the first does, with quoted terms in normal form. -/
def Mirrors {α : Type} (p q : Plan α) : Prop :=
  ∀ id, Parallel Drawing.normal (p id) (q id)

namespace Mirrors

variable {α β : Type}

theorem pure (a : α) : Mirrors (Pure.pure a) (Pure.pure a) :=
  fun _ => rfl

theorem fail {f f' : Failure} : Mirrors (Plan.fail f : Plan α) (Plan.fail f') :=
  fun _ => rfl

theorem fresh : Mirrors Plan.fresh Plan.fresh :=
  fun _ => rfl

theorem op (i : Instr) : Mirrors (Plan.op i) (Plan.op i.normal) :=
  fun _ => rfl

theorem bind {p q : Plan α} {f f' : α → Plan β} (hp : Mirrors p q)
    (hf : ∀ a, Mirrors (f a) (f' a)) : Mirrors (p >>= f) (q >>= f') := by
  intro id
  refine (hp id).bind fun first => ?_
  exact (hf first.value first.lastId).bind fun second => rfl

theorem applies (n : Nat) : Mirrors (Plan.applies n) (Plan.applies n) := by
  induction n with
  | zero => exact Mirrors.pure ()
  | succ n ih => exact (Mirrors.op .apply).bind fun _ => ih

theorem dispatch (head : CaseHead)
    {alts alts' : Nat → Except Failure (List (Nat × Outline) × Nat)}
    (h : ∀ id, Parallel (fun r => (Outline.normalAlternatives r.1, r.2)) (alts id) (alts' id)) :
    Mirrors (Plan.dispatch head alts) (Plan.dispatch head alts') := by
  intro id
  refine (h id).bind fun r => ?_
  dsimp only
  rw [Outline.length_normalAlternatives]
  split <;> rfl

end Mirrors

/-! ## Leaves and calls -/

/-- Two globals have the same record and the same analyzer for a name. -/
structure Globals.SameAt (g g' : Globals) (name : String) : Prop where
  decl_eq : g.table.lookup? name = g'.table.lookup? name
  analyzer_eq : g.analyzers.bind (·.lookup? name) = g'.analyzers.bind (·.lookup? name)

/-- Two globals are the same at every ordinary constant of a list. -/
def Globals.Agree (g g' : Globals) (constants : List (String × Marker)) : Prop :=
  ∀ c ∈ constants, c.2.kind = .plain → g.SameAt g' c.1

theorem Globals.Agree.mono {g g' : Globals} {cs ds : List (String × Marker)} (h : g.Agree g' ds)
    (hsub : cs ⊆ ds) : g.Agree g' cs :=
  fun c hc => h c (hsub hc)

theorem mirrors_leave (role : Role) : Mirrors role.plan role.plan := by
  have hleave : ∀ n, Mirrors (do if 0 < n then Plan.op (.drop (UInt32.ofNat n))
                                 return n)
      (do if 0 < n then Plan.op (.drop (UInt32.ofNat n))
          return n) := by
    intro n
    by_cases hpos : 0 < n
    · simp only [hpos, if_true]
      exact (Mirrors.op (.drop (UInt32.ofNat n))).bind fun _ => Mirrors.pure n
    · simp only [hpos, if_false]
      exact Mirrors.pure n
  cases role with
  | value => exact Mirrors.pure 0
  | alternative n => exact hleave n
  | letBody n => exact hleave n

theorem mirrors_call (d : Decl) (arguments : Nat) :
    Mirrors (planCall d arguments) (planCall d arguments) := by
  unfold planCall
  split
  · exact Mirrors.op (.closure d.index (UInt32.ofNat arguments))
  · exact (Mirrors.op (.invoke _ d.index)).bind fun _ => Mirrors.applies _

theorem mirrors_resolve {g g' : Globals} {name : String} (h : g.SameAt g' name) :
    Mirrors (g.planResolve name) (g'.planResolve name) := by
  unfold Globals.planResolve
  rw [h.decl_eq]
  cases g'.table.lookup? name with
  | none => exact Mirrors.fail
  | some d => exact Mirrors.pure d

theorem mirrors_constant {g g' : Globals} {name : String} {marker : Marker}
    (h : marker.kind = .plain → g.SameAt g' name) :
    Mirrors (planConstant g name marker) (planConstant g' name marker) := by
  unfold planConstant
  cases hkind : marker.kind with
  | neutral => exact Mirrors.op (.scnstr 0)
  | unreachable => exact Mirrors.op .unreachable
  | cnstr => exact Mirrors.op (.scnstr marker.index)
  | plain =>
    by_cases hzero : name = Term.natZero
    · simp only [hzero, if_true]
      exact Mirrors.op (.literal 0)
    · simp only [hzero, if_false]
      exact (mirrors_resolve (h hkind)).bind fun d => mirrors_call d 0
  | proj => exact Mirrors.fail
  | cases => exact Mirrors.fail
  | other code reserved => exact Mirrors.fail

/-- Globals that agree on a term make the same head of it and of its normal form. -/
theorem head_normal {g g' : Globals} {fn : Term} (hfn : fn.isApp = false)
    (h : g.Agree g' fn.constants) : g'.head fn.normal = g.head fn := by
  cases fn with
  | app fn args => cases hfn
  | const name marker =>
    have hcase : g'.caseHead? name marker = g.caseHead? name marker := by
      unfold Globals.caseHead?
      cases hkind : marker.kind with
      | plain =>
        have hsame := h (name, marker) (List.mem_singleton.mpr rfl) hkind
        simp only [hsame.analyzer_eq]
      | _ => rfl
    show g'.head (.const name marker) = g.head (.const name marker)
    simp only [Globals.head, hcase]
  | _ => rfl

theorem sameAt_of_declared {g g' : Globals} {fn : Term} {name : String}
    (h : g.Agree g' fn.constants) (hhead : g.head fn = .declared name) : g.SameAt g' name := by
  cases fn with
  | const n marker =>
    unfold Globals.head at hhead
    cases hcase : g.caseHead? n marker with
    | some head => simp [hcase] at hhead
    | none =>
      cases hkind : marker.kind with
      | plain =>
        obtain rfl : n = name := by simpa [hcase, hkind] using hhead
        exact h (n, marker) (List.mem_singleton.mpr rfl) hkind
      | _ => simp [hcase, hkind] at hhead
  | _ => cases hhead

/-! ## Terms -/

/-- The plan of a term is mirrored by the plan of its normal form. -/
def TermMirrors (g g' : Globals) (t : Term) : Prop :=
  ∀ role depth scope,
    Mirrors (planTerm g t role depth scope) (planTerm g' t.normal role depth scope)

section Lists

variable {g g' : Globals} {args : List Term} (h : ∀ a ∈ args, TermMirrors g g' a)

include h

theorem mirrors_args (depth : Nat) (scope : Scope) :
    Mirrors (planArgs g args depth scope) (planArgs g' (args.map Term.normal) depth scope) := by
  induction args generalizing depth with
  | nil => exact Mirrors.pure ()
  | cons a as ih =>
    rw [List.forall_mem_cons] at h
    exact (h.1 .value depth scope).bind fun _ => ih h.2 (depth + 1)

theorem mirrors_argsRev (depth : Nat) (scope : Scope) :
    Mirrors (planArgsRev g args depth scope)
      (planArgsRev g' (args.map Term.normal) depth scope) := by
  induction args with
  | nil => exact Mirrors.pure ()
  | cons a as ih =>
    rw [List.forall_mem_cons] at h
    rw [List.map_cons, planArgsRev, planArgsRev, List.length_map]
    exact (ih h.2).bind fun _ => (h.1 .value (depth + as.length) scope).bind fun _ =>
      Mirrors.pure ()

theorem mirrors_projection (index : UInt32) (depth : Nat) (scope : Scope) :
    Mirrors (planProjection g index args depth scope)
      (planProjection g' index (args.map Term.normal) depth scope) := by
  cases args with
  | nil => exact Mirrors.fail
  | cons subject extra =>
    rw [List.forall_mem_cons] at h
    rw [List.map_cons, planProjection, planProjection, List.length_map]
    exact (mirrors_argsRev h.2 depth scope).bind fun _ =>
      (h.1 .value (depth + extra.length) scope).bind fun _ =>
        (Mirrors.op (.proj index)).bind fun _ => Mirrors.applies extra.length

theorem parallel_alternatives (depth : Nat) (scope : Scope) (id : Nat) :
    Parallel (fun r => (Outline.normalAlternatives r.1, r.2))
      (planAlternatives g args depth scope id)
      (planAlternatives g' (args.map Term.normal) depth scope id) := by
  induction args generalizing id with
  | nil => rfl
  | cons alt rest ih =>
    rw [List.forall_mem_cons] at h
    refine (h.1 (.alternative 0) depth scope id).bind fun first => ?_
    exact (ih h.2 first.lastId).bind fun r => rfl

theorem mirrors_analysis (head : CaseHead) (depth : Nat) (scope : Scope) :
    Mirrors (planAnalysis g head args depth scope)
      (planAnalysis g' head (args.map Term.normal) depth scope) := by
  unfold planAnalysis
  rw [List.length_map]
  split
  · exact Mirrors.fail
  · split
    · exact Mirrors.fail
    · cases args with
      | nil => exact Mirrors.fail
      | cons major alts =>
        rw [List.forall_mem_cons] at h
        exact (h.1 .value depth scope).bind fun _ =>
          Mirrors.dispatch head (parallel_alternatives h.2 depth scope)

end Lists

theorem mirrors_bindings {g g' : Globals} {bindings : List (String × Term)}
    (h : ∀ b ∈ bindings, TermMirrors g g' b.2) (depth : Nat) (scope : Scope) :
    Mirrors (planBindings g bindings depth scope)
      (planBindings g' (bindings.map fun b => ("", b.2.normal)) depth scope) := by
  induction bindings generalizing depth scope with
  | nil => exact Mirrors.pure scope
  | cons b bs ih =>
    rw [List.forall_mem_cons] at h
    exact (h.1 .value depth scope).bind fun _ => Mirrors.fresh.bind fun id =>
      ih h.2 (depth + 1) (⟨id, depth⟩ :: scope)

theorem mirrors_let {g g' : Globals} {bindings : List (String × Term)} {body : Term}
    (hbindings : ∀ b ∈ bindings, TermMirrors g g' b.2) (hbody : TermMirrors g g' body) :
    TermMirrors g g' (.letIn bindings body) := by
  intro role depth scope
  have hvalues := mirrors_bindings hbindings depth scope
  have hclosed := fun inner =>
    (hbody (.letBody bindings.length) (depth + bindings.length) inner).bind
      fun _ => mirrors_leave role
  rw [Term.normal_letIn, planTerm, planTerm, List.length_map]
  cases role with
  | value => exact hvalues.bind hclosed
  | alternative n => exact hvalues.bind hclosed
  | letBody n => exact hvalues.bind fun inner => hbody _ _ inner

theorem mirrors_app {g g' : Globals} {fn : Term} {args : List Term} (happ : fn.isApp = false)
    (hagree : g.Agree g' fn.constants) (hfn : TermMirrors g g' fn)
    (hargs : ∀ a ∈ args, TermMirrors g g' a) : TermMirrors g g' (.app fn args) := by
  intro role depth scope
  rw [Term.normal_app happ, planTerm, planTerm, head_normal happ hagree, List.length_map]
  refine Mirrors.bind ?_ fun _ => mirrors_leave role
  cases hhead : g.head fn with
  | analysis head => exact mirrors_analysis hargs head depth scope
  | cnstr index =>
    exact (mirrors_args hargs depth scope).bind fun _ =>
      Mirrors.op (.cnstr index (UInt32.ofNat args.length))
  | proj index => exact mirrors_projection hargs index depth scope
  | neutral => exact Mirrors.op (.scnstr 0)
  | unreachable => exact Mirrors.op .unreachable
  | declared name =>
    have hsame : g.SameAt g' name := sameAt_of_declared hagree hhead
    exact (mirrors_resolve hsame).bind fun d => (mirrors_argsRev hargs depth scope).bind fun _ =>
      mirrors_call d args.length
  | unusable marker => exact Mirrors.fail
  | computed =>
    exact (mirrors_argsRev hargs depth scope).bind fun _ =>
      (hfn .value (depth + args.length) scope).bind fun _ => Mirrors.applies args.length

theorem mirrors_term {g g' : Globals} (t : Term) (hflat : t.isFlat = true)
    (hagree : g.Agree g' t.constants) : TermMirrors g g' t := by
  induction t using Term.ind with
  | app fn args ihfn ihargs =>
    simp only [Term.isFlat, Bool.and_eq_true, Bool.not_eq_true'] at hflat
    have hfn : g.Agree g' fn.constants := hagree.mono (List.subset_append_left ..)
    have hargs : g.Agree g' (Term.constantsOfArgs args) :=
      hagree.mono (List.subset_append_right ..)
    exact mirrors_app hflat.1.1 hfn (ihfn hflat.1.2 hfn) fun a ha =>
      ihargs a ha (Term.isFlat_of_mem hflat.2 ha) (hargs.mono (Term.constants_subset_of_mem ha))
  | letIn bindings body ihbindings ihbody =>
    simp only [Term.isFlat, Bool.and_eq_true] at hflat
    have hbindings : g.Agree g' (Term.constantsOfBindings bindings) :=
      hagree.mono (List.subset_append_left ..)
    refine mirrors_let (fun b hb => ihbindings b hb (Term.isFlat_of_mem_bindings hflat.1 hb) ?_)
      (ihbody hflat.2 (hagree.mono (List.subset_append_right ..)))
    exact hbindings.mono (Term.constants_subset_of_mem_bindings hb)
  | absent => exact fun role depth scope => Mirrors.fail
  | sort level => exact fun role depth scope => Mirrors.fail
  | mvar name => exact fun role depth scope => Mirrors.fail
  | pi binder domain body => exact fun role depth scope => Mirrors.fail
  | foreign name args => exact fun role depth scope => Mirrors.fail
  | var i =>
    intro role depth scope
    show Mirrors _ (planTerm g' (.var i) role depth scope)
    rw [planTerm, planTerm]
    cases scope[i.toNat]? with
    | none => exact Mirrors.fail
    | some b => exact (Mirrors.op (.push (UInt32.ofNat b.slot))).bind fun _ => mirrors_leave role
  | fvar id name =>
    intro role depth scope
    show Mirrors _ (planTerm g' (.fvar id "") role depth scope)
    rw [planTerm, planTerm]
    cases scope.find? fun b => b.id == id.toNat with
    | none => exact Mirrors.fail
    | some b => exact (Mirrors.op (.push (UInt32.ofNat b.slot))).bind fun _ => mirrors_leave role
  | const name marker =>
    have hsame := hagree (name, marker) (List.mem_singleton.mpr rfl)
    exact fun role depth scope => (mirrors_constant hsame).bind fun _ => mirrors_leave role
  | nat value =>
    exact fun role depth scope => (Mirrors.op (.literal value)).bind fun _ => mirrors_leave role
  | quote body =>
    exact fun role depth scope => (Mirrors.op (.quotation body)).bind fun _ => mirrors_leave role
  | ann name body ih =>
    exact fun role depth scope => (ih hflat hagree .value depth scope).bind fun _ =>
      mirrors_leave role
  | lam binder body ih =>
    intro role depth scope
    cases role with
    | value => exact Mirrors.fail
    | letBody n => exact Mirrors.fail
    | alternative n =>
      exact Mirrors.fresh.bind fun id =>
        ih hflat hagree (.alternative (n + 1)) (depth + 1) (⟨id, depth⟩ :: scope)

/-! ## Procedures -/

/-- Terms with the same normal form, against globals that agree on the constants of the first, are
    planned alike. -/
theorem parallel_body {g g' : Globals} {s t : Term} (hnormal : s.normal = t.normal)
    (hagree : g.Agree g' s.constants) :
    ∃ plan, Parallel Drawing.normal (planBody g s) plan ∧
      Parallel Drawing.normal (planBody g' t) plan := by
  have harity := Term.arity_eq_of_normal_eq hnormal
  have hbody : (bodyOf s).flatten.normal = (bodyOf t).flatten.normal := by
    rw [Term.normal_flatten, Term.normal_flatten, ← Term.bodyOf_normal, hnormal,
      Term.bodyOf_normal]
  have hs := @mirrors_term g g' (bodyOf s).flatten (Term.isFlat_flatten _)
    (by simpa using hagree)
  have ht := @mirrors_term g' g' (bodyOf t).flatten (Term.isFlat_flatten _)
    fun _ _ _ => ⟨rfl, rfl⟩
  refine ⟨planTerm g' (bodyOf s).flatten.normal .value s.arity (parameters s.arity) s.arity,
    hs .value s.arity (parameters s.arity) s.arity, ?_⟩
  rw [hbody, harity]
  exact ht .value t.arity (parameters t.arity) t.arity

/-- Where one of two such terms compiles, the other compiles to the same code but for quoted terms,
    which have the same normal forms. -/
theorem exists_compileProcedure_of_normal_eq {g g' : Globals} {s t : Term} {name : String}
    {p : Procedure} (hnormal : s.normal = t.normal) (hagree : g.Agree g' s.constants)
    (hp : compileProcedure g name s = .ok p) (name' : String) :
    ∃ q, compileProcedure g' name' t = .ok q ∧ q.arity = p.arity ∧
      q.code.map Instr.normal = p.code.map Instr.normal := by
  obtain ⟨plan, hplan, hplan'⟩ := parallel_body hnormal hagree
  obtain ⟨d, hd, rfl⟩ := compileProcedure_eq_ok_iff.mp hp
  obtain ⟨d', hd', heq⟩ := hplan'.eq_ok_iff.mp (hplan.eq_ok_iff.mpr ⟨d, hd, rfl⟩)
  have houtline : d'.outline.normal = d.outline.normal := congrArg Drawing.outline heq
  refine ⟨_, compileProcedure_eq_ok_iff.mpr ⟨d', hd', rfl⟩, ?_, ?_⟩
  · exact congrArg UInt32.ofNat (Term.arity_eq_of_normal_eq hnormal).symm
  · simp only [List.map_append, ← Outline.layout_normal, houtline]

end Codegen

end TermVM
