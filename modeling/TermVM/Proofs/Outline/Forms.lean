/-
  TermVM.Proofs.Outline.Forms

  The instructions that generated code consists of.

  `Instr.Generated t` lists their forms: a literal is zero or stands in the
  term `t`, a quotation is a quotation of `t`, and a dispatch has a record for
  every alternative.  Everything that a plan of a term draws has one of these
  forms, so that a question about the operands of generated code is a question
  about the list: `generated_of_compileProcedure`.
-/
import TermVM.Proofs.Outline.Emission
import TermVM.Proofs.Term.Parts
import TermVM.Proofs.Term.Quotation

namespace TermVM

open Codegen

/-! ## What a term loads -/

namespace Term

/-- The literals of `u` are parts of `t`, and its quotations are quotations of `t`. -/
structure LoadsFrom (t u : Term) : Prop where
  literals : ∀ v, nat v ∈ u.parts → nat v ∈ t.parts
  quotations : u.quotations ⊆ t.quotations

namespace LoadsFrom

variable {t : Term}

theorem of_child {u c : Term} (h : LoadsFrom t u) (hc : c ∈ u.children)
    (hquotations : c.quotations ⊆ u.quotations) : LoadsFrom t c where
  literals v hv := h.literals v (mem_parts_of_child hc hv)
  quotations := List.Subset.trans hquotations h.quotations

theorem of_app {fn : Term} {args : List Term} (h : LoadsFrom t (app fn args)) :
    LoadsFrom t fn ∧ ∀ a ∈ args, LoadsFrom t a := by
  refine ⟨h.of_child List.mem_cons_self (List.subset_append_left _ _), fun a ha => ?_⟩
  refine h.of_child (List.mem_cons_of_mem fn ha) ?_
  exact List.Subset.trans (quotations_subset_of_mem ha) (List.subset_append_right _ _)

theorem of_letIn {bindings : List (String × Term)} {body : Term}
    (h : LoadsFrom t (letIn bindings body)) :
    (∀ b ∈ bindings, LoadsFrom t b.2) ∧ LoadsFrom t body := by
  refine ⟨fun b hb => ?_, h.of_child (c := body) (by simp [children])
    (List.subset_append_right _ _)⟩
  have hchild : b.2 ∈ (letIn bindings body).children :=
    List.mem_append_left _ (List.mem_map_of_mem hb)
  refine h.of_child hchild ?_
  exact List.Subset.trans (quotations_subset_of_mem_bindings hb) (List.subset_append_left _ _)

end LoadsFrom

section Literals

variable {v : Int}

theorem nat_mem_parts_withArgs (t : Term) (pending : Option (List Term)) :
    nat v ∈ (t.withArgs pending).parts ↔
      nat v ∈ t.parts ∨ nat v ∈ partsOfArgs (pending.getD []) := by
  cases pending <;> simp [withArgs, parts, partsOfArgs]

theorem nat_mem_partsOfArgs_flattenArgs {as : List Term}
    (h : ∀ a ∈ as, nat v ∈ (flattenWith false a none).parts ↔ nat v ∈ a.parts) :
    nat v ∈ partsOfArgs (flattenArgs false as) ↔ nat v ∈ partsOfArgs as := by
  simp only [flattenArgs_eq_map, partsOfArgs_eq_flatMap, List.mem_flatMap, List.mem_map,
    exists_exists_and_eq_and]
  exact exists_congr fun a => and_congr_right fun ha => h a ha

theorem nat_mem_partsOfBindings_flattenBindings {bs : List (String × Term)}
    (h : ∀ b ∈ bs, nat v ∈ (flattenWith false b.2 none).parts ↔ nat v ∈ b.2.parts) :
    nat v ∈ partsOfBindings (flattenBindings false bs) ↔ nat v ∈ partsOfBindings bs := by
  simp only [flattenBindings_eq_map, partsOfBindings_eq_flatMap, List.mem_flatMap, List.mem_map,
    exists_exists_and_eq_and]
  exact exists_congr fun b => and_congr_right fun hb => h b hb

/-- Flattening keeps the literals of a term and of what is pending. -/
theorem nat_mem_parts_flattenWith (t : Term) (pending : Option (List Term)) :
    nat v ∈ (flattenWith false t pending).parts ↔
      nat v ∈ t.parts ∨ nat v ∈ partsOfArgs (pending.getD []) := by
  have halone {a : Term} (ih : ∀ pending, nat v ∈ (flattenWith false a pending).parts ↔
      nat v ∈ a.parts ∨ nat v ∈ partsOfArgs (pending.getD [])) :
      nat v ∈ (flattenWith false a none).parts ↔ nat v ∈ a.parts := by
    simpa [partsOfArgs] using ih none
  induction t using Term.ind generalizing pending with
  | app fn args ihfn ihargs =>
    have hargs := nat_mem_partsOfArgs_flattenArgs fun a ha => halone (ihargs a ha)
    have hfn := ihfn (some (flattenArgs false args ++ pending.getD []))
    rw [flattenWith]
    simp only [Option.getD_some, partsOfArgs_eq_flatMap, List.flatMap_append, List.mem_append]
      at hargs hfn ⊢
    simp [hfn, hargs, parts, partsOfArgs_eq_flatMap, or_assoc]
  | lam binder body ih => simp [flattenWith, nat_mem_parts_withArgs, parts, halone ih]
  | pi binder domain body ihdomain ihbody =>
    simp [flattenWith, nat_mem_parts_withArgs, parts, halone ihdomain, halone ihbody]
  | letIn bindings body ihbindings ihbody =>
    have hbindings := nat_mem_partsOfBindings_flattenBindings fun b hb => halone (ihbindings b hb)
    simp [flattenWith, nat_mem_parts_withArgs, parts, hbindings, halone ihbody]
  | ann name body ih => simp [flattenWith, nat_mem_parts_withArgs, parts, halone ih]
  | foreign name args ih =>
    have hargs := nat_mem_partsOfArgs_flattenArgs fun a ha => halone (ih a ha)
    simp [flattenWith, nat_mem_parts_withArgs, parts, hargs]
  | _ => exact nat_mem_parts_withArgs _ pending

end Literals

theorem nat_mem_parts_bodyOf {v : Int} {t : Term} (h : nat v ∈ (bodyOf t).parts) :
    nat v ∈ t.parts := by
  induction t using Term.ind with
  | lam binder body ih => exact List.mem_cons_of_mem _ (ih h)
  | _ => exact h

/-- The body that code is generated from loads what the term does. -/
theorem loadsFrom_body (t : Term) : LoadsFrom t (bodyOf t).flatten where
  literals v hv := by
    rw [flatten, nat_mem_parts_flattenWith] at hv
    simpa [partsOfArgs] using hv.imp_left nat_mem_parts_bodyOf
  quotations := by simp

end Term

/-- Every instruction of alternatives that are laid out stands in one of them or jumps behind all
    of them. -/
theorem Outline.mem_layoutAlternatives {join start : Nat} {alts : List (Nat × Outline)} {i : Instr}
    (h : i ∈ layoutAlternatives join start alts) :
    i = jumpTo join ∨ ∃ a ∈ alts, ∃ start, i ∈ a.2.layout start := by
  induction alts generalizing start with
  | nil => cases h
  | cons a alts ih =>
    rw [layoutAlternatives, List.mem_append, List.mem_append] at h
    rcases h with h | h | h
    · exact .inr ⟨a, List.mem_cons_self, start, h⟩
    · exact .inl (List.eq_of_mem_replicate h)
    · rcases ih h with h | ⟨b, hb, h⟩
      · exact .inl h
      · exact .inr ⟨b, List.mem_cons_of_mem a hb, h⟩

/-! ## Forms -/

/-- An instruction has a form that code of the term `t` may have. -/
inductive Instr.Generated (t : Term) : Instr → Prop
  | push (slot : UInt32) : Generated t (.push slot)
  | drop (n : UInt32) : Generated t (.drop n)
  | scnstr (index : UInt32) : Generated t (.scnstr index)
  | cnstr (index n : UInt32) : Generated t (.cnstr index n)
  | literal {v : Int} (h : v = 0 ∨ .nat v ∈ t.parts) : Generated t (.literal v)
  | quotation {q : Term} (h : q ∈ t.quotations) : Generated t (.quotation q)
  | proj (index : UInt32) : Generated t (.proj index)
  | jump (target : Nat) : Generated t (Outline.jumpTo target)
  | dispatch (head : CaseHead) (start : Nat) {alternatives : List (Nat × Outline)}
      (h : alternatives.length = head.alternatives.toNat) :
      Generated t (Outline.filled head.instr (Outline.records start alternatives))
  | unreachable : Generated t .unreachable
  | apply : Generated t .apply
  | invoke {m : Mnemonic} (h : m = .invokeGlobal ∨ m = .invokeBuiltin ∨ m = .invokeNative)
      (index : UInt32) : Generated t (.invoke m index)
  | closure (index n : UInt32) : Generated t (.closure index n)
  | ret : Generated t .ret

namespace Codegen

/-! ## Plans -/

/-- Wherever its outline is laid out, a plan draws instructions of code of a term only. -/
def Plan.Generates {α : Type} (t : Term) (p : Plan α) : Prop :=
  ∀ id d, p id = .ok d → ∀ start, ∀ i ∈ d.outline.layout start, i.Generated t

namespace Plan.Generates

variable {α β : Type} {t : Term}

theorem pure (a : α) : Generates t (Pure.pure a : Plan α) := by
  rintro id d ⟨⟩ start i hi
  cases hi

theorem fail {f : Failure} : Generates t (Plan.fail f : Plan α) := by
  rintro id d ⟨⟩

theorem fresh : Generates t Plan.fresh := by
  rintro id d ⟨⟩ start i hi
  cases hi

theorem op {i : Instr} (h : i.Generated t) : Generates t (Plan.op i) := by
  rintro id d ⟨⟩ start j hj
  obtain rfl := List.mem_singleton.mp hj
  exact h

theorem bind {p : Plan α} {f : α → Plan β} (hp : Generates t p) (hf : ∀ a, Generates t (f a)) :
    Generates t (p >>= f) := by
  intro id d hd start i hi
  obtain ⟨first, hfirst, second, hsecond, rfl⟩ := Plan.bind_eq_ok.mp hd
  rcases List.mem_append.mp hi with hi | hi
  · exact hp id first hfirst start i hi
  · exact hf first.value first.lastId second hsecond _ i hi

theorem applies (n : Nat) : Generates t (Plan.applies n) := by
  induction n with
  | zero => exact Generates.pure ()
  | succ n ih => exact (Generates.op .apply).bind fun _ => ih

theorem dispatch {head : CaseHead}
    {alternatives : Nat → Except Failure (List (Nat × Outline) × Nat)}
    (h : ∀ id os id', alternatives id = .ok (os, id') →
      ∀ a ∈ os, ∀ start, ∀ i ∈ a.2.layout start, i.Generated t) :
    Generates t (Plan.dispatch head alternatives) := by
  intro id d hd start i hi
  obtain ⟨⟨os, id'⟩, hos, hd⟩ := Result.bind_eq_ok.mp hd
  dsimp only at hd
  split at hd
  next hcount =>
    cases hd
    -- the dispatch itself, a jump between alternatives, or a part of one
    rcases List.mem_cons.mp hi with rfl | hi
    · exact .dispatch head (start + 1) hcount
    · rcases Outline.mem_layoutAlternatives hi with rfl | ⟨a, ha, start', hi⟩
      · exact .jump _
      · exact h id os id' hos a ha start' i hi
  next => cases hd

end Plan.Generates

open Plan

/-! ## Leaves and calls -/

section

variable {t : Term}

theorem generates_leave (role : Role) : Generates t role.plan := by
  have hleave : ∀ n, Generates t (do if 0 < n then Plan.op (.drop (UInt32.ofNat n))
                                     return n) := by
    intro n
    by_cases hpos : 0 < n
    · simp only [hpos, if_true]
      exact (Generates.op (.drop _)).bind fun _ => Generates.pure n
    · simp only [hpos, if_false]
      exact Generates.pure n
  cases role with
  | value => exact Generates.pure 0
  | alternative n => exact hleave n
  | letBody n => exact hleave n

theorem generates_call (d : Decl) (arguments : Nat) : Generates t (planCall d arguments) := by
  unfold planCall
  split
  · exact Generates.op (.closure _ _)
  · refine Generates.bind (Generates.op (.invoke ?_ _)) fun _ => Generates.applies _
    cases d.kind <;> simp

theorem generates_resolve (g : Globals) (name : String) : Generates t (g.planResolve name) := by
  unfold Globals.planResolve
  cases g.table.lookup? name with
  | none => exact Generates.fail
  | some d => exact Generates.pure d

theorem generates_constant (g : Globals) (name : String) (marker : Marker) :
    Generates t (planConstant g name marker) := by
  unfold planConstant
  cases marker.kind with
  | neutral => exact Generates.op (.scnstr 0)
  | unreachable => exact Generates.op .unreachable
  | cnstr => exact Generates.op (.scnstr _)
  | plain =>
    by_cases hzero : name = Term.natZero
    · simp only [hzero, if_true]
      exact Generates.op (.literal (.inl rfl))
    · simp only [hzero, if_false]
      exact (generates_resolve g name).bind fun d => generates_call d 0
  | proj => exact Generates.fail
  | cases => exact Generates.fail
  | other code reserved => exact Generates.fail

end

/-! ## Terms -/

/-- Every plan of a term `u` draws instructions of code of `t` only. -/
def TermGenerates (t : Term) (g : Globals) (u : Term) : Prop :=
  ∀ role depth scope, Generates t (planTerm g u role depth scope)

section Lists

variable {t : Term} {g : Globals} {args : List Term} (h : ∀ a ∈ args, TermGenerates t g a)

include h

theorem generates_args (depth : Nat) (scope : Scope) :
    Generates t (planArgs g args depth scope) := by
  induction args generalizing depth with
  | nil => exact Generates.pure ()
  | cons a as ih =>
    rw [List.forall_mem_cons] at h
    exact (h.1 .value depth scope).bind fun _ => ih h.2 (depth + 1)

theorem generates_argsRev (depth : Nat) (scope : Scope) :
    Generates t (planArgsRev g args depth scope) := by
  induction args with
  | nil => exact Generates.pure ()
  | cons a as ih =>
    rw [List.forall_mem_cons] at h
    exact (ih h.2).bind fun _ => (h.1 .value (depth + as.length) scope).bind fun _ =>
      Generates.pure ()

theorem generates_projection (index : UInt32) (depth : Nat) (scope : Scope) :
    Generates t (planProjection g index args depth scope) := by
  cases args with
  | nil => exact Generates.fail
  | cons subject extra =>
    rw [List.forall_mem_cons] at h
    exact (generates_argsRev h.2 depth scope).bind fun _ =>
      (h.1 .value (depth + extra.length) scope).bind fun _ =>
        (Generates.op (.proj index)).bind fun _ => Generates.applies extra.length

theorem generates_alternatives (depth : Nat) (scope : Scope) {id id' : Nat}
    {os : List (Nat × Outline)} (hos : planAlternatives g args depth scope id = .ok (os, id')) :
    ∀ a ∈ os, ∀ start, ∀ i ∈ a.2.layout start, i.Generated t := by
  induction args generalizing id id' os with
  | nil =>
    obtain ⟨rfl, rfl⟩ : [] = os ∧ id = id' := by
      simpa [planAlternatives, pure, Except.pure] using hos
    exact fun a ha => absurd ha List.not_mem_nil
  | cons alt rest ih =>
    rw [List.forall_mem_cons] at h
    obtain ⟨first, hfirst, hos⟩ := Result.bind_eq_ok.mp hos
    obtain ⟨⟨more, id''⟩, hmore, hos⟩ := Result.bind_eq_ok.mp hos
    cases hos
    refine List.forall_mem_cons.mpr ⟨?_, ih h.2 hmore⟩
    exact h.1 (.alternative 0) depth scope id first hfirst

theorem generates_analysis (head : CaseHead) (depth : Nat) (scope : Scope) :
    Generates t (planAnalysis g head args depth scope) := by
  unfold planAnalysis
  split
  · exact Generates.fail
  · split
    · exact Generates.fail
    · cases args with
      | nil => exact Generates.fail
      | cons major alts =>
        rw [List.forall_mem_cons] at h
        exact (h.1 .value depth scope).bind fun _ =>
          Generates.dispatch fun id os id' hos => generates_alternatives h.2 depth scope hos

end Lists

section

variable {t : Term} {g : Globals}

theorem generates_bindings {bindings : List (String × Term)}
    (h : ∀ b ∈ bindings, TermGenerates t g b.2) (depth : Nat) (scope : Scope) :
    Generates t (planBindings g bindings depth scope) := by
  induction bindings generalizing depth scope with
  | nil => exact Generates.pure scope
  | cons b bs ih =>
    rw [List.forall_mem_cons] at h
    exact (h.1 .value depth scope).bind fun _ => Generates.fresh.bind fun id =>
      ih h.2 (depth + 1) (⟨id, depth⟩ :: scope)

theorem generates_let {bindings : List (String × Term)} {body : Term}
    (hbindings : ∀ b ∈ bindings, TermGenerates t g b.2) (hbody : TermGenerates t g body) :
    TermGenerates t g (.letIn bindings body) := by
  intro role depth scope
  have hvalues := generates_bindings hbindings depth scope
  have hclosed := fun inner =>
    (hbody (.letBody bindings.length) (depth + bindings.length) inner).bind
      fun _ => generates_leave role
  rw [planTerm]
  cases role with
  | value => exact hvalues.bind hclosed
  | alternative n => exact hvalues.bind hclosed
  | letBody n => exact hvalues.bind fun inner => hbody _ _ inner

theorem generates_app {fn : Term} {args : List Term} (hfn : TermGenerates t g fn)
    (hargs : ∀ a ∈ args, TermGenerates t g a) : TermGenerates t g (.app fn args) := by
  intro role depth scope
  rw [planTerm]
  refine Generates.bind ?_ fun _ => generates_leave role
  cases g.head fn with
  | analysis head => exact generates_analysis hargs head depth scope
  | cnstr index => exact (generates_args hargs depth scope).bind fun _ => Generates.op (.cnstr _ _)
  | proj index => exact generates_projection hargs index depth scope
  | neutral => exact Generates.op (.scnstr 0)
  | unreachable => exact Generates.op .unreachable
  | declared name =>
    exact (generates_resolve g name).bind fun d =>
      (generates_argsRev hargs depth scope).bind fun _ => generates_call d args.length
  | unusable marker => exact Generates.fail
  | computed =>
    exact (generates_argsRev hargs depth scope).bind fun _ =>
      (hfn .value (depth + args.length) scope).bind fun _ => Generates.applies args.length

theorem generates_term (u : Term) (h : t.LoadsFrom u) : TermGenerates t g u := by
  induction u using Term.ind with
  | app fn args ihfn ihargs =>
    obtain ⟨hfn, hargs⟩ := h.of_app
    exact generates_app (ihfn hfn) fun a ha => ihargs a ha (hargs a ha)
  | letIn bindings body ihbindings ihbody =>
    obtain ⟨hbindings, hbody⟩ := h.of_letIn
    exact generates_let (fun b hb => ihbindings b hb (hbindings b hb)) (ihbody hbody)
  | absent => exact fun role depth scope => Generates.fail
  | sort level => exact fun role depth scope => Generates.fail
  | mvar name => exact fun role depth scope => Generates.fail
  | pi binder domain body => exact fun role depth scope => Generates.fail
  | foreign name args => exact fun role depth scope => Generates.fail
  | var i =>
    intro role depth scope
    rw [planTerm]
    cases scope[i.toNat]? with
    | none => exact Generates.fail
    | some b => exact (Generates.op (.push _)).bind fun _ => generates_leave role
  | fvar id name =>
    intro role depth scope
    rw [planTerm]
    cases scope.find? fun b => b.id == id.toNat with
    | none => exact Generates.fail
    | some b => exact (Generates.op (.push _)).bind fun _ => generates_leave role
  | const name marker =>
    exact fun role depth scope =>
      (generates_constant g name marker).bind fun _ => generates_leave role
  | nat value =>
    have hvalue : .nat value ∈ t.parts := h.literals value (List.mem_singleton.mpr rfl)
    exact fun role depth scope =>
      (Generates.op (.literal (.inr hvalue))).bind fun _ => generates_leave role
  | quote body =>
    have hbody : body ∈ t.quotations := h.quotations (List.mem_singleton.mpr rfl)
    exact fun role depth scope =>
      (Generates.op (.quotation hbody)).bind fun _ => generates_leave role
  | ann name body ih =>
    have hbody : t.LoadsFrom body := h.of_child (by simp [Term.children]) (List.Subset.refl _)
    exact fun role depth scope => (ih hbody .value depth scope).bind fun _ => generates_leave role
  | lam binder body ih =>
    have hbody : t.LoadsFrom body := h.of_child (by simp [Term.children]) (List.Subset.refl _)
    intro role depth scope
    cases role with
    | value => exact Generates.fail
    | letBody n => exact Generates.fail
    | alternative n =>
      exact Generates.fresh.bind fun id =>
        ih hbody (.alternative (n + 1)) (depth + 1) (⟨id, depth⟩ :: scope)

end

/-! ## Procedures -/

/-- Every instruction of a procedure has one of the forms of code of its term. -/
theorem generated_of_compileProcedure {g : Globals} {name : String} {t : Term} {p : Procedure}
    (h : compileProcedure g name t = .ok p) {i : Instr} (hi : i ∈ p.code) : i.Generated t := by
  obtain ⟨d, hd, rfl⟩ := compileProcedure_eq_ok_iff.mp h
  rcases List.mem_append.mp hi with hi | hi
  · exact generates_term _ t.loadsFrom_body .value t.arity (parameters t.arity) t.arity d hd 0 i hi
  · obtain rfl := List.mem_singleton.mp hi
    exact .ret

end Codegen

end TermVM
