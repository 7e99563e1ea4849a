/-
  TermVM.Proofs.Grammar.Acceptance

  Which terms code generation accepts.

  Code generation fails for one of two reasons: a term is not in the grammar of
  `TermVM.Proofs.Grammar.Basic`, or a free local has an identity that no binder
  in sight took.  The grammar is about shapes and needs no numbers.  The second
  is about numbers only, and `TermVM.Proofs.Grammar.Tour` has them.

  `Follows` says that a plan succeeds exactly when a condition holds and every
  local of a tour is bound.  It composes along sequences, so that each construct
  is one short step, and `follows_term` is about every flat term.

  Main statements: without free locals, a procedure is accepted exactly when its
  body is in the grammar; with them, exactly when in addition each of them has
  the identity of a binder around it.  Binders take the identities 1, 2, … and
  free locals may have any, so that a local may well be bound by accident.
-/
import TermVM.Proofs.Grammar.Basic
import TermVM.Proofs.Grammar.Tour

namespace TermVM

/-! ## Computations that succeed exactly under a condition -/

/-- A computation succeeds exactly under a condition, and then with a result of some kind. -/
structure Result.Exact {ε α : Type} (x : Except ε α) (C : Prop) (P : α → Prop) : Prop where
  exists_ok : C → ∃ a, x = .ok a
  of_ok : ∀ a, x = .ok a → C ∧ P a

namespace Result.Exact

variable {ε α β : Type} {x : Except ε α} {C D : Prop} {P : α → Prop}

theorem ok {a : α} (hC : C) (hP : P a) : Exact (.ok a : Except ε α) C P where
  exists_ok _ := ⟨a, rfl⟩
  of_ok b hb := by
    obtain rfl := Except.ok.inj hb
    exact ⟨hC, hP⟩

theorem error {e : ε} (hC : ¬C) : Exact (.error e : Except ε α) C P where
  exists_ok h := absurd h hC
  of_ok a ha := by cases ha

theorem bind {f : α → Except ε β} {Q : β → Prop} (h : Exact x C P)
    (hf : ∀ a, P a → Exact (f a) D Q) : Exact (x >>= f) (C ∧ D) Q where
  exists_ok := by
    rintro ⟨hC, hD⟩
    obtain ⟨a, ha⟩ := h.exists_ok hC
    obtain ⟨b, hb⟩ := (hf a (h.of_ok a ha).2).exists_ok hD
    exact ⟨b, bind_eq_ok.mpr ⟨a, ha, hb⟩⟩
  of_ok b hb := by
    obtain ⟨a, ha, hb⟩ := bind_eq_ok.mp hb
    obtain ⟨hC, hP⟩ := h.of_ok a ha
    obtain ⟨hD, hQ⟩ := (hf a hP).of_ok b hb
    exact ⟨⟨hC, hD⟩, hQ⟩

theorem congr {Q : α → Prop} (h : Exact x C P) (hcond : C ↔ D) (hval : ∀ a, P a → Q a) :
    Exact x D Q where
  exists_ok hD := h.exists_ok (hcond.mpr hD)
  of_ok a ha := ⟨hcond.mp (h.of_ok a ha).1, hval a (h.of_ok a ha).2⟩

end Result.Exact

namespace Codegen

open Result

/-! ## Plans along tours -/

/-- A plan succeeds exactly when a condition holds and every local of a tour is bound, and then both
    count the same binders and their values are related. -/
def Plan.Follows {α β : Type} (p : Plan α) (q : Tour β) (C : Prop) (R : α → β → Prop) : Prop :=
  ∀ id, Exact (p id) (C ∧ ∀ s ∈ (q id).met, s.IsBound)
    fun d => d.lastId = (q id).lastId ∧ R d.value (q id).value

/-- A plan that always succeeds and binds nothing. -/
abbrev Plan.Quiet {α : Type} (p : Plan α) : Prop :=
  Plan.Follows p (pure () : Tour Unit) True fun _ _ => True

namespace Plan.Follows

variable {α α' β β' : Type} {p : Plan α} {q : Tour β} {C D : Prop} {R : α → β → Prop}

theorem pure {a : α} {b : β} (h : R a b) : Follows (Pure.pure a) (Pure.pure b) True R :=
  fun _ => .ok ⟨trivial, fun _ hs => absurd hs List.not_mem_nil⟩ ⟨rfl, h⟩

theorem fail {f : Failure} (h : ¬C) : Follows (Plan.fail f) q C R :=
  fun _ => .error fun hC => h hC.1

theorem op (i : Instr) : Quiet (Plan.op i) :=
  fun _ => .ok ⟨trivial, fun _ hs => absurd hs List.not_mem_nil⟩ ⟨rfl, trivial⟩

theorem fresh : Follows Plan.fresh Tour.fresh True fun a b => a = b :=
  fun _ => .ok ⟨trivial, fun _ hs => absurd hs List.not_mem_nil⟩ ⟨rfl, rfl⟩

theorem bind {f : α → Plan α'} {h : β → Tour β'} {S : α' → β' → Prop} (hp : Follows p q C R)
    (hf : ∀ a b, R a b → Follows (f a) (h b) D S) : Follows (p >>= f) (q >>= h) (C ∧ D) S := by
  intro id
  constructor
  · rintro ⟨⟨hC, hD⟩, hbound⟩
    obtain ⟨hfirst, hsecond⟩ := List.forall_mem_append.mp hbound
    obtain ⟨d, hd⟩ := (hp id).exists_ok ⟨hC, hfirst⟩
    obtain ⟨-, hid, hR⟩ := (hp id).of_ok d hd
    -- the second part starts at the identity that the tour counted
    obtain ⟨d', hd'⟩ := (hf _ _ hR (q id).lastId).exists_ok ⟨hD, hsecond⟩
    exact ⟨_, Plan.bind_eq_ok.mpr ⟨d, hd, d', hid ▸ hd', rfl⟩⟩
  · intro d hd
    obtain ⟨first, hfirst, second, hsecond, rfl⟩ := Plan.bind_eq_ok.mp hd
    obtain ⟨⟨hC, hmet⟩, hid, hR⟩ := (hp id).of_ok first hfirst
    rw [hid] at hsecond
    obtain ⟨⟨hD, hmet'⟩, hS⟩ := (hf _ _ hR (q id).lastId).of_ok second hsecond
    exact ⟨⟨⟨hC, hD⟩, List.forall_mem_append.mpr ⟨hmet, hmet'⟩⟩, hS⟩

theorem congr (h : Follows p q C R) (hcond : C ↔ D) : Follows p q D R :=
  fun id => (h id).congr (and_congr_left fun _ => hcond) fun _ hd => hd

/-- What follows quietly asks for nothing more. -/
theorem bindQuiet {f : α → Plan α'} (hp : Follows p q C R) (hf : ∀ a, Quiet (f a)) :
    Follows (p >>= f) q C fun _ _ => True := by
  have h : Follows (p >>= f) (q >>= fun _ => Pure.pure ()) (C ∧ True) fun _ _ => True :=
    hp.bind fun a _ _ => hf a
  intro id
  have hid := h id
  simp only [and_true] at hid ⊢
  refine hid.congr (and_congr_right fun _ => ?_) fun _ hd => hd
  show (∀ s ∈ (q id).met ++ [], s.IsBound) ↔ _
  rw [List.append_nil]

/-- What comes after something quiet asks for all there is. -/
theorem quietBind {f : α → Plan α'} {q : Tour β'} {S : α' → β' → Prop} (hp : Quiet p)
    (hf : ∀ a, Follows (f a) q D S) : Follows (p >>= f) q D S := by
  have h : Follows (p >>= f) (Pure.pure () >>= fun _ => q) (True ∧ D) S :=
    hp.bind fun a _ _ => hf a
  exact h.congr (and_iff_right trivial)

/-- A plan and a tour take the same identity for a new binder. -/
theorem freshThen {f : Nat → Plan α'} {h : Nat → Tour β'} {S : α' → β' → Prop}
    (hf : ∀ id, Follows (f id) (h id) D S) : Follows (Plan.fresh >>= f) (Tour.fresh >>= h) D S := by
  have hbind : Follows (Plan.fresh >>= f) (Tour.fresh >>= h) (True ∧ D) S := by
    refine fresh.bind ?_
    rintro id _ rfl
    exact hf id
  exact hbind.congr (and_iff_right trivial)

theorem applies (n : Nat) : Quiet (Plan.applies n) := by
  induction n with
  | zero => exact Follows.pure trivial
  | succ n ih => exact (Follows.op .apply).quietBind fun _ => ih

/-- A dispatch asks for as many alternatives as its head announces. -/
theorem dispatch {head : CaseHead} {count : Nat}
    {alternatives : Nat → Except Failure (List (Nat × Outline) × Nat)}
    (h : ∀ id, Exact (alternatives id) (C ∧ ∀ s ∈ (q id).met, s.IsBound)
      fun r => r.1.length = count ∧ r.2 = (q id).lastId) :
    Follows (Plan.dispatch head alternatives) q (count = head.alternatives.toNat ∧ C)
      fun _ _ => True := by
  intro id
  refine ((h id).bind (D := count = head.alternatives.toNat) ?_).congr (by tauto) fun _ hd => hd
  rintro ⟨os, id'⟩ ⟨hcount, hid⟩
  dsimp only at hcount hid ⊢
  rw [hcount]
  split
  next heq => exact .ok heq ⟨hid, trivial⟩
  next hne => exact .error hne

end Plan.Follows

open Plan

/-! ## Leaves and calls -/

theorem quiet_leave (role : Role) : Quiet role.plan := by
  have hleave : ∀ n, Quiet (do if 0 < n then Plan.op (.drop (UInt32.ofNat n))
                               return n) := by
    intro n
    by_cases hpos : 0 < n
    · simp only [hpos, if_true]
      exact (Follows.op _).quietBind fun _ => Follows.pure trivial
    · simp only [hpos, if_false]
      exact Follows.pure trivial
  cases role with
  | value => exact Follows.pure trivial
  | alternative n => exact hleave n
  | letBody n => exact hleave n

theorem quiet_call (d : Decl) (arguments : Nat) : Quiet (planCall d arguments) := by
  unfold planCall
  split
  · exact Follows.op _
  · exact (Follows.op _).quietBind fun _ => Follows.applies _

theorem follows_resolve (g : Globals) (name : String) :
    Follows (g.planResolve name) (pure () : Tour Unit) (∃ d, g.table.lookup? name = some d)
      fun _ _ => True := by
  unfold Globals.planResolve
  cases h : g.table.lookup? name with
  | none => exact Follows.fail (by rintro ⟨d, ⟨⟩⟩)
  | some d => exact (Follows.pure trivial).congr (by simp)

variable {g : Globals} {free : Bool}

theorem compilable_const_iff {n : Nat} {name : String} {marker : Marker} :
    Compilable g free n (.const name marker) ↔
      marker.kind ∈ [.neutral, .unreachable, .cnstr] ∨
        marker.kind = .plain ∧ (name = Term.natZero ∨ ∃ d, g.table.lookup? name = some d) := by
  constructor
  · intro h
    cases h with
    | marked h => exact .inl h
    | zero h => exact .inr ⟨h, .inl rfl⟩
    | global h hd => exact .inr ⟨h, .inr ⟨_, hd⟩⟩
  · rintro (h | ⟨h, rfl | ⟨d, hd⟩⟩)
    · exact .marked h
    · exact .zero h
    · exact .global h hd

theorem follows_constant (n : Nat) (name : String) (marker : Marker) :
    Follows (planConstant g name marker) (pure () : Tour Unit)
      (Compilable g free n (.const name marker)) fun _ _ => True := by
  simp only [compilable_const_iff]
  unfold planConstant
  cases marker.kind with
  | neutral => exact (Follows.op _).congr (by simp)
  | unreachable => exact (Follows.op _).congr (by simp)
  | cnstr => exact (Follows.op _).congr (by simp)
  | plain =>
    by_cases hzero : name = Term.natZero
    · simp only [hzero, if_true]
      exact (Follows.op _).congr (by simp)
    · simp only [hzero, if_false]
      exact ((follows_resolve g name).bindQuiet fun d => quiet_call d 0).congr (by simp)
  | proj => exact Follows.fail (by simp)
  | cases => exact Follows.fail (by simp)
  | other code reserved => exact Follows.fail (by simp)

/-! ## Terms -/

/-- What a term has to be for its surroundings: the leading lambdas of an alternative bind fields. -/
def Role.Wants (g : Globals) : Role → (binders : Nat) → Term → Prop
  | .alternative _ => CompilableBranch g true
  | _ => Compilable g true

theorem Role.wants_iff {n : Nat} {t : Term} (h : t.arity = 0) (role : Role) :
    role.Wants g n t ↔ Compilable g true n t := by
  cases role with
  | alternative fields =>
    cases t with
    | lam binder body => exact absurd h (Nat.succ_ne_zero body.arity)
    | _ => exact Iff.rfl
  | _ => exact Iff.rfl

/-- Every plan of a term follows the tour through it. -/
def TermFollows (g : Globals) (t : Term) : Prop :=
  ∀ (role : Role) (depth : Nat) (scope : Scope), Follows (planTerm g t role depth scope)
    (tour g t scope.ids) (role.Wants g scope.length t) fun _ _ => True

/-- A single instruction is the code of a term that the grammar has. -/
theorem follows_leaf {n : Nat} {t : Term} (h : Compilable g true n t) (harity : t.arity = 0)
    (role : Role) (i : Instr) :
    Follows (Plan.op i >>= fun _ => role.plan) (pure () : Tour Unit) (role.Wants g n t)
      fun _ _ => True :=
  ((Follows.op i).quietBind fun _ => quiet_leave role).congr
    (iff_of_true trivial ((role.wants_iff harity).mpr h))

/-- A term that the grammar does not have is refused. -/
theorem follows_refused {α β : Type} {n : Nat} {t : Term} (h : ¬Compilable g true n t)
    (harity : t.arity = 0) (role : Role) {f : Failure} {q : Tour β} {R : α → β → Prop} :
    Follows (Plan.fail f) q (role.Wants g n t) R :=
  Follows.fail fun hwants => h ((role.wants_iff harity).mp hwants)

section Lists

variable {args : List Term} (h : ∀ a ∈ args, TermFollows g a)

include h

theorem follows_args (depth : Nat) (scope : Scope) :
    Follows (planArgs g args depth scope) (tourArgs g args scope.ids)
      (∀ a ∈ args, Compilable g true scope.length a) fun _ _ => True := by
  induction args generalizing depth with
  | nil => exact (Follows.pure trivial).congr (by simp)
  | cons a as ih =>
    rw [List.forall_mem_cons] at h
    refine ((h.1 .value depth scope).bind fun _ _ _ => ih h.2 (depth + 1)).congr ?_
    exact List.forall_mem_cons.symm

theorem follows_argsRev (depth : Nat) (scope : Scope) :
    Follows (planArgsRev g args depth scope) (tourArgsRev g args scope.ids)
      (∀ a ∈ args, Compilable g true scope.length a) fun _ _ => True := by
  induction args with
  | nil => exact (Follows.pure trivial).congr (by simp)
  | cons a as ih =>
    rw [List.forall_mem_cons] at h
    refine ((ih h.2).bind fun _ _ _ =>
      (h.1 .value (depth + as.length) scope).bindQuiet fun _ => Follows.pure trivial).congr ?_
    rw [List.forall_mem_cons, and_comm]
    exact Iff.rfl

theorem follows_projection (index : UInt32) (depth : Nat) (scope : Scope) :
    Follows (planProjection g index args depth scope) (tourArgsRev g args scope.ids)
      (args ≠ [] ∧ ∀ a ∈ args, Compilable g true scope.length a) fun _ _ => True := by
  cases args with
  | nil => exact Follows.fail (by simp)
  | cons subject extra =>
    rw [List.forall_mem_cons] at h
    refine ((follows_argsRev h.2 depth scope).bind fun _ _ _ =>
      (h.1 .value (depth + extra.length) scope).bindQuiet fun _ =>
        (Follows.op _).quietBind fun _ => Follows.applies extra.length).congr ?_
    rw [List.forall_mem_cons, and_comm]
    exact (and_iff_right (List.cons_ne_nil subject extra)).symm

theorem exact_alternatives (depth : Nat) (scope : Scope) (id : Nat) :
    Exact (planAlternatives g args depth scope id)
      ((∀ a ∈ args, CompilableBranch g true scope.length a) ∧
        ∀ s ∈ (tourArgs g args scope.ids id).met, s.IsBound)
      fun r => r.1.length = args.length ∧ r.2 = (tourArgs g args scope.ids id).lastId := by
  induction args generalizing id with
  | nil => exact .ok ⟨by simp, fun _ hs => absurd hs List.not_mem_nil⟩ ⟨rfl, rfl⟩
  | cons alt rest ih =>
    rw [List.forall_mem_cons] at h
    refine ((h.1 (.alternative 0) depth scope id).bind
      (D := (∀ a ∈ rest, CompilableBranch g true scope.length a) ∧
        ∀ s ∈ (tourArgs g rest scope.ids (tour g alt scope.ids id).lastId).met, s.IsBound)
      ?_).congr ?_ fun _ hr => hr
    · rintro first ⟨hid, -⟩
      rw [hid]
      refine ((ih h.2 _).bind (D := True) ?_).congr (and_iff_left trivial) fun _ hr => hr
      rintro ⟨more, id'⟩ ⟨hlength, hid'⟩
      exact .ok trivial ⟨congrArg (· + 1) hlength, hid'⟩
    · rw [List.forall_mem_cons]
      show _ ↔ _ ∧ ∀ s ∈ (tour g alt scope.ids id).met ++ _, s.IsBound
      rw [List.forall_mem_append]
      exact and_and_and_comm

theorem follows_analysis (head : CaseHead) (depth : Nat) (scope : Scope) :
    Follows (planAnalysis g head args depth scope) (tourArgs g args scope.ids)
      ((Head.analysis head).Accepts g.table (Compilable g true scope.length)
        (CompilableBranch g true scope.length) .absent args) fun _ _ => True := by
  unfold planAnalysis
  split
  next hzero =>
    -- alternatives that are there cannot be none
    refine Follows.fail ?_
    rintro ⟨major, alternatives, -, hsome, hcount, -⟩
    rw [hzero] at hcount
    exact hsome (List.eq_nil_of_length_eq_zero hcount)
  next hzero =>
    split
    next hargs =>
      refine Follows.fail ?_
      rintro ⟨major, alternatives, rfl, -, hcount, -⟩
      refine hargs ?_
      rw [List.length_cons, hcount, UInt32.ofNat_add, UInt32.ofNat_toNat]
      rfl
    next hargs =>
      cases args with
      | nil => exact Follows.fail (by rintro ⟨major, alternatives, ⟨⟩, -⟩)
      | cons major alternatives =>
        rw [List.forall_mem_cons] at h
        refine ((h.1 .value depth scope).bind fun _ _ _ =>
          Follows.dispatch (exact_alternatives h.2 depth scope)).congr ?_
        constructor
        · rintro ⟨hmajor, hcount, halternatives⟩
          refine ⟨major, alternatives, rfl, ?_, hcount, hmajor, halternatives⟩
          rintro rfl
          exact hzero (UInt32.toNat_inj.mp hcount.symm)
        · rintro ⟨_, _, heq, -, hcount, hmajor, halternatives⟩
          obtain ⟨rfl, rfl⟩ := List.cons.inj heq
          exact ⟨hmajor, hcount, halternatives⟩

end Lists

theorem follows_bindings {bindings : List (String × Term)} (h : ∀ b ∈ bindings, TermFollows g b.2)
    (depth : Nat) (scope : Scope) :
    Follows (planBindings g bindings depth scope) (tourBindings g bindings scope.ids)
      (∀ j b, bindings[j]? = some b → Compilable g true (scope.length + j) b.2)
      fun inner ids => inner.length = scope.length + bindings.length ∧ inner.ids = ids := by
  induction bindings generalizing depth scope with
  | nil => exact (Follows.pure ⟨rfl, rfl⟩).congr (by simp)
  | cons b bs ih =>
    rw [List.forall_mem_cons] at h
    have hrest : ∀ id, Follows (planBindings g bs (depth + 1) (⟨id, depth⟩ :: scope))
        (tourBindings g bs (id :: scope.ids))
        (∀ j c, bs[j]? = some c → Compilable g true (scope.length + (j + 1)) c.2)
        fun inner ids => inner.length = scope.length + (bs.length + 1) ∧ inner.ids = ids := by
      intro id
      have hih := ih h.2 (depth + 1) (⟨id, depth⟩ :: scope)
      simp only [List.length_cons, Nat.add_assoc, Nat.add_comm 1] at hih
      exact hih
    refine ((h.1 .value depth scope).bind fun _ _ _ => Follows.freshThen hrest).congr ?_
    constructor
    · rintro ⟨hb, hbs⟩ j c hc
      cases j with
      | zero =>
        obtain rfl := Option.some.inj hc
        exact hb
      | succ j => exact hbs j c hc
    · intro hall
      exact ⟨hall 0 b rfl, fun j c hc => hall (j + 1) c hc⟩

theorem follows_let {bindings : List (String × Term)} {body : Term}
    (hbindings : ∀ b ∈ bindings, TermFollows g b.2) (hbody : TermFollows g body) :
    TermFollows g (.letIn bindings body) := by
  intro role depth scope
  have hvalues := follows_bindings hbindings depth scope
  rw [planTerm]
  -- the body of a chain of lets sees the same binders whoever drops them
  have hinner : ∀ bound inner ids,
      inner.length = scope.length + bindings.length ∧ Scope.ids inner = ids →
      Follows (planTerm g body (.letBody bound) (depth + bindings.length) inner) (tour g body ids)
        (Compilable g true (scope.length + bindings.length) body) fun _ _ => True := by
    rintro bound inner _ ⟨hlength, rfl⟩
    rw [← hlength]
    exact hbody (.letBody bound) _ inner
  have hclosed := hvalues.bind fun inner ids hin =>
    (hinner bindings.length inner ids hin).bindQuiet fun _ => quiet_leave role
  cases role with
  | value => exact hclosed.congr compilable_letIn_iff.symm
  | alternative fields => exact hclosed.congr compilable_letIn_iff.symm
  | letBody bound =>
    exact (hvalues.bind fun inner ids hin => hinner _ inner ids hin).congr compilable_letIn_iff.symm

theorem follows_app {fn : Term} {args : List Term} (hflat : fn.isApp = false)
    (hfn : TermFollows g fn) (hargs : ∀ a ∈ args, TermFollows g a) :
    TermFollows g (.app fn args) := by
  intro role depth scope
  have hspine : (Term.app fn args).spine = (fn, args) := by
    rw [Term.spine, Term.spine_of_isApp hflat]
    rfl
  rw [planTerm, tour]
  refine Follows.congr ?_ (role.wants_iff rfl).symm
  refine Follows.bindQuiet (R := fun _ _ => True)
    (Follows.congr ?_ (compilable_app_iff hspine).symm) fun _ => quiet_leave role
  cases g.head fn with
  | analysis head => exact follows_analysis hargs head depth scope
  | cnstr index => exact (follows_args hargs depth scope).bindQuiet fun _ => Follows.op _
  | proj index => exact follows_projection hargs index depth scope
  | neutral => exact Follows.op _
  | unreachable => exact Follows.op _
  | declared name =>
    exact (follows_resolve g name).bind fun d _ _ =>
      (follows_argsRev hargs depth scope).bindQuiet fun _ => quiet_call d args.length
  | unusable marker => exact Follows.fail id
  | computed =>
    refine ((follows_argsRev hargs depth scope).bind fun _ _ _ =>
      (hfn .value (depth + args.length) scope).bindQuiet fun _ =>
        Follows.applies args.length).congr and_comm

theorem follows_term (t : Term) (h : t.isFlat = true) : TermFollows g t := by
  induction t using Term.ind with
  | app fn args ihfn ihargs =>
    simp only [Term.isFlat, Bool.and_eq_true, Bool.not_eq_true'] at h
    obtain ⟨⟨happ, hfn⟩, hargs⟩ := h
    exact follows_app happ (ihfn hfn) fun a ha => ihargs a ha (Term.isFlat_of_mem hargs ha)
  | letIn bindings body ihbindings ihbody =>
    simp only [Term.isFlat, Bool.and_eq_true] at h
    exact follows_let (fun b hb => ihbindings b hb (Term.isFlat_of_mem_bindings h.1 hb))
      (ihbody h.2)
  | lam binder body ih =>
    intro role depth scope
    cases role with
    | value => exact Follows.fail (by rintro ⟨⟩)
    | letBody bound => exact Follows.fail (by rintro ⟨⟩)
    | alternative fields =>
      have hbody : ∀ id, Follows
          (planTerm g body (.alternative (fields + 1)) (depth + 1) (⟨id, depth⟩ :: scope))
          (tour g body (id :: scope.ids)) (CompilableBranch g true (scope.length + 1) body)
          fun _ _ => True := fun id => ih h (.alternative (fields + 1)) _ (⟨id, depth⟩ :: scope)
      refine (Follows.freshThen hbody).congr ?_
      show Compilable g true (scope.length + 1 + body.arity) (bodyOf body) ↔
        Compilable g true (scope.length + (body.arity + 1)) (bodyOf body)
      rw [Nat.add_assoc, Nat.add_comm 1]
  | fvar id name =>
    intro role depth scope
    rw [planTerm, tour]
    refine Follows.congr ?_ (role.wants_iff rfl).symm
    intro last
    have hsighting : (∀ s ∈ (Tour.meet ⟨id, scope.ids⟩ last).met, s.IsBound) ↔
        ∃ b ∈ scope, b.id = id.toNat := by
      simp [Tour.meet, Sighting.IsBound, Scope.ids]
    rw [hsighting]
    cases hfind : scope.find? fun b => b.id == id.toNat with
    | none =>
      refine .error ?_
      rintro ⟨-, b, hb, hid⟩
      exact List.find?_eq_none.mp hfind b hb (beq_iff_eq.mpr hid)
    | some b =>
      have hid : b.id = id.toNat := by simpa using List.find?_some hfind
      have hbound : ∃ b ∈ scope, b.id = id.toNat := ⟨b, List.mem_of_find?_eq_some hfind, hid⟩
      refine (((Follows.op _).quietBind fun _ => quiet_leave role) last).congr ?_ fun _ hd => hd
      exact iff_of_true ⟨trivial, fun _ hs => absurd hs List.not_mem_nil⟩ ⟨.fvar rfl, hbound⟩
  | var i =>
    intro role depth scope
    rw [planTerm]
    cases hb : scope[i.toNat]? with
    | none =>
      refine Follows.fail fun hwants => ?_
      rw [List.getElem?_eq_none_iff] at hb
      cases (role.wants_iff rfl).mp hwants with
      | var hlt => omega
    | some b =>
      have hlt := (List.getElem?_eq_some_iff.mp hb).1
      exact follows_leaf (.var hlt) rfl role _
  | const name marker =>
    intro role depth scope
    exact ((follows_constant scope.length name marker).bindQuiet fun _ => quiet_leave role).congr
      (role.wants_iff rfl).symm
  | nat value => exact fun role depth scope => follows_leaf .nat rfl role _
  | quote body => exact fun role depth scope => follows_leaf .quote rfl role _
  | ann name body ih =>
    intro role depth scope
    exact ((ih h .value depth scope).bindQuiet fun _ => quiet_leave role).congr
      (compilable_ann_iff.symm.trans (role.wants_iff rfl).symm)
  | absent => exact fun role depth scope => follows_refused (by rintro ⟨⟩) rfl role
  | sort level => exact fun role depth scope => follows_refused (by rintro ⟨⟩) rfl role
  | mvar name => exact fun role depth scope => follows_refused (by rintro ⟨⟩) rfl role
  | pi binder domain body => exact fun role depth scope => follows_refused (by rintro ⟨⟩) rfl role
  | foreign name args => exact fun role depth scope => follows_refused (by rintro ⟨⟩) rfl role

/-! ## Procedures -/

theorem length_parameters (arity : Nat) : (parameters arity).length = arity := by
  simp [parameters]

/-- The plan of a body succeeds exactly when the body is in the grammar and the free locals that are
    visited are bound. -/
theorem exists_planBody_iff {t : Term} :
    (∃ d, planBody g t = .ok d) ↔
      Compilable g true t.arity (bodyOf t) ∧ ∀ s ∈ freeLocals g t, s.IsBound := by
  have hbody := follows_term (g := g) _ (bodyOf t).isFlat_flatten .value t.arity
    (parameters t.arity) t.arity
  have hgrammar : Role.value.Wants g (parameters t.arity).length (bodyOf t).flatten ↔
      Compilable g true t.arity (bodyOf t) := by
    rw [length_parameters]
    exact compilable_flatten (bodyOf t) t.arity
  rw [← hgrammar]
  constructor
  · rintro ⟨d, hd⟩
    exact (hbody.of_ok d hd).1
  · exact hbody.exists_ok

theorem exists_compileProcedure {name : String} {t : Term} :
    (∃ p, compileProcedure g name t = .ok p) ↔ ∃ d, planBody g t = .ok d := by
  simp only [compileProcedure_eq_ok_iff]
  constructor
  · rintro ⟨_, d, hd, -⟩
    exact ⟨d, hd⟩
  · rintro ⟨d, hd⟩
    exact ⟨_, d, hd, rfl⟩

/-- The acceptance grammar: whatever the table and the analyzers, a term without free locals has a
    procedure exactly when the body under its leading lambdas is in the grammar. -/
theorem exists_compileProcedure_iff (g : Globals) (name : String) (t : Term)
    (hlocal : t.hasLocal = false) :
    (∃ p, compileProcedure g name t = .ok p) ↔ Compilable g false t.arity (bodyOf t) := by
  have hbody : (bodyOf t).hasLocal = false := by rw [hasLocal_bodyOf, hlocal]
  rw [exists_compileProcedure, exists_planBody_iff, freeLocals_eq_nil hlocal]
  constructor
  · rintro ⟨h, -⟩
    exact h.of_hasLocal hbody false
  · intro h
    exact ⟨h.of_hasLocal hbody true, fun _ hs => absurd hs List.not_mem_nil⟩

/-- The matches below a let are in the grammar with the table that has the two functions they call,
    and not without it. -/
theorem tangle_compilable_iff :
    tangle.hasLocal = false ∧ Compilable ⟨arithmetic, none⟩ false 2 (bodyOf tangle) ∧
      ¬Compilable ⟨.empty, none⟩ false 2 (bodyOf tangle) := by
  refine ⟨rfl, ?_, ?_⟩
  · obtain ⟨p, hp, -⟩ := compile_tangle
    exact (exists_compileProcedure_iff ⟨arithmetic, none⟩ "tangle" tangle rfl).mp ⟨p, hp⟩
  · intro h
    obtain ⟨p, hp⟩ := (exists_compileProcedure_iff ⟨.empty, none⟩ "tangle" tangle rfl).mpr h
    have hnone : (compileProcedure ⟨.empty, none⟩ "tangle" tangle).toOption.isSome = false := by
      decide +kernel
    rw [hp] at hnone
    cases hnone

/-- A procedure is accepted exactly when its body is in the grammar and every free local that is
    visited has the identity of a binder around it.  Binders take the identities 1, 2, … in the order
    their code is generated in, so that no identity is resolved that is 0 or exceeds the number of
    binders.  Nothing keeps a free local from having one of theirs; it then stands for that binder,
    whatever it is called. -/
theorem exists_compileProcedure_iff_bound (g : Globals) (name : String) (t : Term) :
    ((∃ p, compileProcedure g name t = .ok p) ↔
        Compilable g true t.arity (bodyOf t) ∧ ∀ s ∈ freeLocals g t, s.IsBound) ∧
      ∀ s ∈ freeLocals g t, s.IsBound → 0 < s.id.toNat ∧ s.id.toNat < t.nodes := by
  refine ⟨by rw [exists_compileProcedure, exists_planBody_iff], ?_⟩
  intro s hs hbound
  obtain ⟨hpos, hle⟩ := (sighted_of_mem_freeLocals hs).2 _ hbound
  have hnodes := t.nodes_pos
  exact ⟨hpos, by omega⟩

/-- A free local of identity 1 reads the frame slot of the first parameter. -/
theorem compileProcedure_stray_local :
    DeclTable.empty.Reachable ∧
      compileProcedure ⟨.empty, none⟩ "a" (.lam "x" (.fvar 1 "y")) =
        .ok ⟨"a", 1, [.push 0, .ret]⟩ :=
  ⟨.empty, rfl⟩

end Codegen

end TermVM
