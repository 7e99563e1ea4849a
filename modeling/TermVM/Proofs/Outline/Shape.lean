/-
  TermVM.Proofs.Outline.Shape

  What plans come to, whatever the table.

  A planned outline consists of straight-line instructions and of dispatches
  that have as many alternatives as their heads announce, and no alternative is
  without code.  A plan that fails does so with one of three reports: a global
  is unknown, an extension is unsupported, or the term violates an invariant.
  The one exception is a case analysis whose head announces 2^32 - 1
  alternatives: counted as 32-bit words, its arguments are in order when there
  are none of them, so that it has no subject.

  `Shapes` says both of a plan, with bounds on the number of instructions.  It
  composes along sequences, and `shapes_term` carries it over every term.
-/
import Mathlib.Algebra.Group.Nat.Defs
import TermVM.Proofs.Outline.Emission
import TermVM.Proofs.Term.Heads
import TermVM.Proofs.Verify.Flow

namespace TermVM

open Codegen Verify

/-- An outline of straight-line instructions, and of dispatches with as many alternatives as
    announced, each of which has code. -/
inductive Outline.Formed : Outline → Prop where
  | nil : Formed .nil
  | op {i : Instr} (h : sequential i.op = true) : Formed (.op i)
  | seq {first second : Outline} (h₁ : Formed first) (h₂ : Formed second) :
      Formed (.seq first second)
  | dispatch {head : CaseHead} {alternatives : List (Nat × Outline)}
      (hlen : alternatives.length = head.alternatives.toNat) (hne : alternatives ≠ [])
      (hsize : ∀ a ∈ alternatives, 0 < a.2.size) (h : ∀ a ∈ alternatives, Formed a.2) :
      Formed (.dispatch head alternatives)

namespace Codegen

/-- The failures that code generation reports about a term: a global that the table does not have,
    an extension, or a violated invariant. -/
def Globals.Reports (g : Globals) : Failure → Prop
  | .unknownConstant name => g.table.lookup? name = none
  | .unsupportedExtension _ | .invariant _ => True
  | .misuse _ | .missingSubject => False

/-- A plan comes to a formed outline with at least `least` and at most `most` instructions, or to a
    failure that is allowed. -/
structure Shapes {α : Type} (allowed : Failure → Prop) (least most : Nat) (p : Plan α) : Prop where
  formed : ∀ id d, p id = .ok d →
    d.outline.Formed ∧ least ≤ d.outline.size ∧ d.outline.size ≤ most
  failure : ∀ id f, p id = .error f → allowed f

namespace Shapes

variable {α β : Type} {allowed : Failure → Prop} {l l₁ l₂ m m₁ m₂ : Nat}

theorem pure (a : α) : Shapes allowed 0 0 (Pure.pure a : Plan α) where
  formed := by
    rintro id d ⟨⟩
    exact ⟨.nil, Nat.le_refl 0, Nat.le_refl 0⟩
  failure := by rintro id f ⟨⟩

theorem fail {f : Failure} (h : allowed f) : Shapes allowed l m (Plan.fail f : Plan α) where
  formed := by rintro id d ⟨⟩
  failure := by
    rintro id f' ⟨⟩
    exact h

theorem fresh : Shapes allowed 0 0 Plan.fresh where
  formed := by
    rintro id d ⟨⟩
    exact ⟨.nil, Nat.le_refl 0, Nat.le_refl 0⟩
  failure := by rintro id f ⟨⟩

theorem op {i : Instr} (h : sequential i.op = true) : Shapes allowed 1 1 (Plan.op i) where
  formed := by
    rintro id d ⟨⟩
    exact ⟨.op h, Nat.le_refl 1, Nat.le_refl 1⟩
  failure := by rintro id f ⟨⟩

theorem bind {p : Plan α} {f : α → Plan β} (hp : Shapes allowed l₁ m₁ p)
    (hf : ∀ a, Shapes allowed l₂ m₂ (f a)) : Shapes allowed (l₁ + l₂) (m₁ + m₂) (p >>= f) where
  formed := by
    intro id d hd
    obtain ⟨first, hfirst, second, hsecond, rfl⟩ := Plan.bind_eq_ok.mp hd
    obtain ⟨hformed₁, hleast₁, hmost₁⟩ := hp.formed id first hfirst
    obtain ⟨hformed₂, hleast₂, hmost₂⟩ := (hf first.value).formed first.lastId second hsecond
    exact ⟨.seq hformed₁ hformed₂, Nat.add_le_add hleast₁ hleast₂, Nat.add_le_add hmost₁ hmost₂⟩
  failure := by
    intro id e he
    rcases Result.bind_eq_error.mp he with hfirst | ⟨first, -, he⟩
    · exact hp.failure id e hfirst
    · rcases Result.bind_eq_error.mp he with hsecond | ⟨second, -, he⟩
      · exact (hf first.value).failure first.lastId e hsecond
      · cases he

theorem mono {p : Plan α} (h : Shapes allowed l₁ m₁ p) (hl : l ≤ l₁) (hm : m₁ ≤ m) :
    Shapes allowed l m p where
  formed id d hd := by
    obtain ⟨hformed, hleast, hmost⟩ := h.formed id d hd
    exact ⟨hformed, Nat.le_trans hl hleast, Nat.le_trans hmost hm⟩
  failure := h.failure

theorem applies (n : Nat) : Shapes allowed 0 n (Plan.applies n) := by
  induction n with
  | zero => exact Shapes.pure ()
  | succ n ih =>
    have hfirst : Shapes allowed 1 1 (Plan.op .apply) := Shapes.op rfl
    exact (hfirst.bind fun _ => ih).mono (Nat.zero_le _) (by omega)

/-- A dispatch over as many alternatives as its head announces. -/
theorem dispatch {head : CaseHead} (hpos : head.alternatives ≠ 0)
    {alternatives : Nat → Except Failure (List (Nat × Outline) × Nat)}
    (hformed : ∀ id os id', alternatives id = .ok (os, id') →
      os.length = head.alternatives.toNat ∧ Outline.sizeOfAlternatives os ≤ m ∧
        ∀ a ∈ os, a.2.Formed ∧ 0 < a.2.size)
    (hfailure : ∀ id f, alternatives id = .error f → allowed f) :
    Shapes allowed 1 (m + 1) (Plan.dispatch head alternatives) where
  formed := by
    intro id d hd
    obtain ⟨⟨os, id'⟩, hos, hd⟩ := Result.bind_eq_ok.mp hd
    obtain ⟨hlen, hsize, hos⟩ := hformed id os id' hos
    have hne : os ≠ [] := by
      rintro rfl
      exact hpos (UInt32.toNat_inj.mp hlen.symm)
    dsimp only at hd
    rw [if_pos hlen] at hd
    cases hd
    refine ⟨.dispatch hlen hne (fun a ha => (hos a ha).2) fun a ha => (hos a ha).1, ?_, ?_⟩
    · simp only [Outline.size]
      omega
    · simp only [Outline.size]
      omega
  failure := by
    intro id f hf
    rcases Result.bind_eq_error.mp hf with hf | ⟨⟨os, id'⟩, hos, hf⟩
    · exact hfailure id f hf
    · dsimp only at hf
      rw [if_pos (hformed id os id' hos).1] at hf
      cases hf

end Shapes

/-! ## Leaves and calls -/

section

variable {allowed : Failure → Prop}

theorem shapes_leave (role : Role) : Shapes allowed 0 1 role.plan := by
  have hleave : ∀ n, Shapes allowed 0 1 (do if 0 < n then Plan.op (.drop (UInt32.ofNat n))
                                            return n) := by
    intro n
    by_cases hpos : 0 < n
    · have hdrop : Shapes allowed 1 1 (Plan.op (.drop (UInt32.ofNat n))) := Shapes.op rfl
      simp only [hpos, if_true]
      exact (hdrop.bind fun _ => Shapes.pure n).mono (Nat.zero_le _) (Nat.le_refl 1)
    · simp only [hpos, if_false]
      exact (Shapes.pure n).mono (Nat.le_refl 0) (Nat.zero_le 1)
  cases role with
  | value => exact (Shapes.pure 0).mono (Nat.le_refl 0) (Nat.zero_le 1)
  | alternative n => exact hleave n
  | letBody n => exact hleave n

theorem shapes_call (d : Decl) (arguments : Nat) :
    Shapes allowed 1 (1 + arguments) (planCall d arguments) := by
  unfold planCall
  split
  · exact (Shapes.op rfl).mono (Nat.le_refl 1) (by omega)
  · have hinvoke : ∀ m, m = .invokeGlobal ∨ m = .invokeBuiltin ∨ m = .invokeNative →
        Shapes allowed 1 1 (Plan.op (.invoke m d.index)) := by
      rintro m (rfl | rfl | rfl) <;> exact Shapes.op rfl
    refine ((hinvoke _ ?_).bind fun _ => Shapes.applies _).mono (by omega) (by omega)
    cases d.kind <;> simp

variable {g : Globals} (hreports : ∀ f, g.Reports f → allowed f)

include hreports

theorem shapes_resolve (name : String) : Shapes allowed 0 0 (g.planResolve name) := by
  unfold Globals.planResolve
  cases hlookup : g.table.lookup? name with
  | none => exact Shapes.fail (hreports _ hlookup)
  | some d => exact Shapes.pure d

theorem shapes_constant (name : String) (marker : Marker) :
    Shapes allowed 1 1 (planConstant g name marker) := by
  have hbare : allowed (.invariant (.bareMarker marker)) := hreports _ trivial
  unfold planConstant
  cases marker.kind with
  | neutral => exact Shapes.op rfl
  | unreachable => exact Shapes.op rfl
  | cnstr => exact Shapes.op rfl
  | plain =>
    by_cases hzero : name = Term.natZero
    · simp only [hzero, if_true]
      exact Shapes.op rfl
    · simp only [hzero, if_false]
      exact (shapes_resolve hreports name).bind fun d => shapes_call d 0
  | proj => exact Shapes.fail hbare
  | cases => exact Shapes.fail hbare
  | other code h => exact Shapes.fail hbare

end

/-! ## Terms -/

/-- The plan of a term has an instruction at least, and three for each node of the term at most. -/
def TermShapes (allowed : Failure → Prop) (g : Globals) (t : Term) : Prop :=
  ∀ role depth scope, Shapes allowed 1 (3 * t.nodes - 1) (planTerm g t role depth scope)

section Lists

variable {allowed : Failure → Prop} {g : Globals}

theorem shapes_args {args : List Term} (h : ∀ a ∈ args, TermShapes allowed g a) (depth : Nat)
    (scope : Scope) :
    Shapes allowed 0 (3 * Term.nodesOfArgs args - args.length) (planArgs g args depth scope) := by
  induction args generalizing depth with
  | nil => exact Shapes.pure ()
  | cons a as ih =>
    rw [List.forall_mem_cons] at h
    have hpos := a.nodes_pos
    have hlen := Term.length_le_nodesOfArgs as
    refine ((h.1 .value depth scope).bind fun _ => ih h.2 (depth + 1)).mono (Nat.zero_le _) ?_
    simp only [Term.nodesOfArgs, List.length_cons]
    omega

theorem shapes_argsRev {args : List Term} (h : ∀ a ∈ args, TermShapes allowed g a) (depth : Nat)
    (scope : Scope) :
    Shapes allowed 0 (3 * Term.nodesOfArgs args - args.length)
      (planArgsRev g args depth scope) := by
  induction args with
  | nil => exact Shapes.pure ()
  | cons a as ih =>
    rw [List.forall_mem_cons] at h
    have hpos := a.nodes_pos
    have hlen := Term.length_le_nodesOfArgs as
    refine ((ih h.2).bind fun _ => (h.1 .value (depth + as.length) scope).bind fun _ =>
      Shapes.pure ()).mono (Nat.zero_le _) ?_
    simp only [Term.nodesOfArgs, List.length_cons]
    omega

theorem shapes_bindings {bindings : List (String × Term)}
    (h : ∀ b ∈ bindings, TermShapes allowed g b.2) (depth : Nat) (scope : Scope) :
    Shapes allowed 0 (3 * Term.nodesOfBindings bindings - bindings.length)
      (planBindings g bindings depth scope) := by
  induction bindings generalizing depth scope with
  | nil => exact Shapes.pure scope
  | cons b bs ih =>
    rw [List.forall_mem_cons] at h
    have hpos := b.2.nodes_pos
    have hlen := Term.length_le_nodesOfBindings bs
    refine ((h.1 .value depth scope).bind fun _ => Shapes.fresh.bind fun id =>
      ih h.2 (depth + 1) (⟨id, depth⟩ :: scope)).mono (Nat.zero_le _) ?_
    simp only [Term.nodesOfBindings, List.length_cons]
    omega

theorem shapes_projection (hreports : ∀ f, g.Reports f → allowed f) {index : UInt32}
    {args : List Term} (h : ∀ a ∈ args, TermShapes allowed g a) (depth : Nat) (scope : Scope) :
    Shapes allowed 1 (3 * Term.nodesOfArgs args) (planProjection g index args depth scope) := by
  cases args with
  | nil => exact Shapes.fail (hreports _ trivial)
  | cons subject extra =>
    rw [List.forall_mem_cons] at h
    have hpos := subject.nodes_pos
    have hlen := Term.length_le_nodesOfArgs extra
    have hproj : Shapes allowed 1 1 (Plan.op (.proj index)) := Shapes.op rfl
    refine ((shapes_argsRev h.2 depth scope).bind fun _ =>
      (h.1 .value (depth + extra.length) scope).bind fun _ => hproj.bind fun _ =>
        Shapes.applies extra.length).mono (by omega) ?_
    simp only [Term.nodesOfArgs]
    omega

theorem formed_alternatives {alts : List Term} (h : ∀ a ∈ alts, TermShapes allowed g a)
    {depth : Nat} {scope : Scope} {id id' : Nat} {os : List (Nat × Outline)}
    (hos : planAlternatives g alts depth scope id = .ok (os, id')) :
    Outline.sizeOfAlternatives os ≤ 3 * Term.nodesOfArgs alts ∧
      ∀ a ∈ os, a.2.Formed ∧ 0 < a.2.size := by
  induction alts generalizing id os with
  | nil =>
    cases hos
    exact ⟨Nat.zero_le _, by simp⟩
  | cons alt rest ih =>
    rw [List.forall_mem_cons] at h
    have hpos := alt.nodes_pos
    obtain ⟨first, hfirst, hos⟩ := Result.bind_eq_ok.mp hos
    obtain ⟨⟨more, id₂⟩, hmore, hos⟩ := Result.bind_eq_ok.mp hos
    cases hos
    obtain ⟨hformed, hleast, hmost⟩ := (h.1 (.alternative 0) depth scope).formed id first hfirst
    obtain ⟨hsizes, hrest⟩ := ih h.2 hmore
    refine ⟨?_, List.forall_mem_cons.mpr ⟨⟨hformed, hleast⟩, hrest⟩⟩
    -- the jump behind an alternative is the third instruction of one of its nodes
    have hjump : Outline.jumps more ≤ 1 := by
      unfold Outline.jumps
      split <;> omega
    simp only [Outline.sizeOfAlternatives, Term.nodesOfArgs]
    omega

theorem failure_alternatives {alts : List Term} (h : ∀ a ∈ alts, TermShapes allowed g a)
    {depth : Nat} {scope : Scope} {id : Nat} {f : Failure}
    (hf : planAlternatives g alts depth scope id = .error f) : allowed f := by
  induction alts generalizing id with
  | nil => cases hf
  | cons alt rest ih =>
    rw [List.forall_mem_cons] at h
    rcases Result.bind_eq_error.mp hf with hf | ⟨first, -, hf⟩
    · exact (h.1 (.alternative 0) depth scope).failure id f hf
    · rcases Result.bind_eq_error.mp hf with hf | ⟨⟨more, id₂⟩, -, hf⟩
      · exact ih h.2 hf
      · cases hf

/-- Arguments that are counted as a 32-bit word are as many as it says, unless the count of
    alternatives is the last word. -/
theorem ofNat_eq_announced_iff {n : Nat} {k : UInt32} (hn : n < 2 ^ 32) :
    UInt32.ofNat n = k + 1 ↔ n = k.toNat + 1 ∨ n = 0 ∧ k = 4294967295 := by
  have hk := k.toNat_lt
  have hlast : k = 4294967295 ↔ k.toNat = 4294967295 := UInt32.toNat_inj.symm
  rw [hlast, ← UInt32.toNat_inj, UInt32.toNat_ofNat_of_lt' hn, UInt32.toNat_add, UInt32.toNat_one]
  omega

theorem shapes_analysis (hreports : ∀ f, g.Reports f → allowed f) {head : CaseHead}
    {args : List Term} (h : ∀ a ∈ args, TermShapes allowed g a) (hfits : args.length < 2 ^ 32)
    (hlast : head.alternatives = 4294967295 → allowed .missingSubject) (depth : Nat)
    (scope : Scope) :
    Shapes allowed 1 (3 * Term.nodesOfArgs args) (planAnalysis g head args depth scope) := by
  unfold planAnalysis
  split
  next => exact Shapes.fail (hreports _ trivial)
  next hpos =>
    split
    next => exact Shapes.fail (hreports _ trivial)
    next hcount =>
      have hannounced := (ofNat_eq_announced_iff hfits).mp (not_not.mp hcount)
      cases args with
      | nil =>
        have hword : head.alternatives = 4294967295 := by
          rcases hannounced with hzero | ⟨-, hword⟩
          · simp at hzero
          · exact hword
        exact Shapes.fail (hlast hword)
      | cons major alts =>
        rw [List.forall_mem_cons] at h
        have hnodes := major.nodes_pos
        have hlen : alts.length = head.alternatives.toNat := by
          rw [List.length_cons] at hannounced
          omega
        have hdispatch : Shapes allowed 1 (3 * Term.nodesOfArgs alts + 1)
            (Plan.dispatch head (planAlternatives g alts depth scope)) := by
          refine Shapes.dispatch hpos ?_ fun id f hf => failure_alternatives h.2 hf
          intro id os id' hos
          exact ⟨(length_planAlternatives hos).trans hlen, formed_alternatives h.2 hos⟩
        refine ((h.1 .value depth scope).bind fun _ => hdispatch).mono (by omega) ?_
        simp only [Term.nodesOfArgs]
        omega

end Lists

section Terms

variable {allowed : Failure → Prop} {g : Globals}

/-- The value of a term, followed by the removal of what its surroundings had bound. -/
theorem Shapes.leave {α : Type} {p : Plan α} {role : Role} {m n : Nat} (h : Shapes allowed 1 m p)
    (hn : m + 1 ≤ n) : Shapes allowed 1 n (p >>= fun _ => role.plan) :=
  (h.bind fun _ => shapes_leave role).mono (Nat.le_refl 1) hn

theorem shapes_let {bindings : List (String × Term)} {body : Term}
    (hbindings : ∀ b ∈ bindings, TermShapes allowed g b.2) (hbody : TermShapes allowed g body) :
    TermShapes allowed g (.letIn bindings body) := by
  intro role depth scope
  have hpos := body.nodes_pos
  have hlen := Term.length_le_nodesOfBindings bindings
  have hvalues := shapes_bindings hbindings depth scope
  have hclosed := hvalues.bind fun inner =>
    (hbody (.letBody bindings.length) (depth + bindings.length) inner).bind fun _ =>
      shapes_leave role
  have hcount : 3 * Term.nodesOfBindings bindings - bindings.length + (3 * body.nodes - 1 + 1) ≤
      3 * (Term.letIn bindings body).nodes - 1 := by
    simp only [Term.nodes]
    omega
  rw [planTerm]
  cases role with
  | value => exact hclosed.mono (by omega) hcount
  | alternative n => exact hclosed.mono (by omega) hcount
  | letBody n =>
    have hchain := hvalues.bind fun inner =>
      hbody (.letBody (n + bindings.length)) (depth + bindings.length) inner
    exact hchain.mono (by omega) (by omega)

theorem shapes_app (hreports : ∀ f, g.Reports f → allowed f) {fn : Term} {args : List Term}
    (hfn : TermShapes allowed g fn) (hargs : ∀ a ∈ args, TermShapes allowed g a)
    (hfits : args.length < 2 ^ 32)
    (hlast : ∀ head, g.head fn = .analysis head → head.alternatives = 4294967295 →
      allowed .missingSubject) : TermShapes allowed g (.app fn args) := by
  intro role depth scope
  have hpos := fn.nodes_pos
  have hlen := Term.length_le_nodesOfArgs args
  have hrev := shapes_argsRev hargs depth scope
  have hcnstr : ∀ index, Shapes allowed 1 1 (Plan.op (.cnstr index (UInt32.ofNat args.length))) :=
    fun index => Shapes.op rfl
  rw [planTerm]
  refine Shapes.leave (m := 3 * Term.nodesOfArgs args + 3 * fn.nodes - 1) ?_
    (by simp only [Term.nodes]; omega)
  cases hhead : g.head fn with
  | analysis head =>
    exact (shapes_analysis hreports hargs hfits (hlast head hhead) depth scope).mono
      (Nat.le_refl 1) (by omega)
  | cnstr index =>
    exact ((shapes_args hargs depth scope).bind fun _ => hcnstr index).mono (by omega) (by omega)
  | proj index =>
    exact (shapes_projection hreports hargs depth scope).mono (Nat.le_refl 1) (by omega)
  | neutral => exact (Shapes.op rfl).mono (Nat.le_refl 1) (by omega)
  | unreachable => exact (Shapes.op rfl).mono (Nat.le_refl 1) (by omega)
  | declared name =>
    exact ((shapes_resolve hreports name).bind fun d => hrev.bind fun _ =>
      shapes_call d args.length).mono (by omega) (by omega)
  | unusable marker => exact Shapes.fail (hreports _ trivial)
  | computed =>
    exact (hrev.bind fun _ => (hfn .value (depth + args.length) scope).bind fun _ =>
      Shapes.applies args.length).mono (by omega) (by omega)

/-- A term has few enough nodes to count its arguments, and a failure for want of a subject is
    allowed if one of its heads announces the last word of alternatives. -/
structure Permitted (allowed : Failure → Prop) (g : Globals) (t : Term) : Prop where
  nodes_lt : t.nodes < 2 ^ 32
  missingSubject : ∀ c ∈ t.heads,
    (g.caseHead? c.1 c.2).map CaseHead.alternatives = some 4294967295 → allowed .missingSubject

theorem Permitted.part {t u : Term} (h : Permitted allowed g t) (hnodes : u.nodes ≤ t.nodes)
    (hheads : u.heads ⊆ t.heads) : Permitted allowed g u where
  nodes_lt := Nat.lt_of_le_of_lt hnodes h.nodes_lt
  missingSubject c hc := h.missingSubject c (hheads hc)

theorem Permitted.fn {fn : Term} {args : List Term} (h : Permitted allowed g (.app fn args)) :
    Permitted allowed g fn := by
  refine h.part (by simp only [Term.nodes]; omega) fun c hc => ?_
  simp [Term.heads, hc]

theorem Permitted.arg {fn a : Term} {args : List Term} (h : Permitted allowed g (.app fn args))
    (ha : a ∈ args) : Permitted allowed g a := by
  have hnodes := Term.nodes_le_of_mem ha
  refine h.part (by simp only [Term.nodes]; omega) fun c hc => ?_
  have hmem : c ∈ Term.headsOfArgs args := Term.mem_headsOfArgs.mpr ⟨a, ha, hc⟩
  simp [Term.heads, hmem]

theorem Permitted.head {fn : Term} {args : List Term} (h : Permitted allowed g (.app fn args))
    {head : CaseHead} (hhead : g.head fn = .analysis head)
    (hlast : head.alternatives = 4294967295) : allowed .missingSubject := by
  cases fn with
  | const name marker =>
    have hcase : g.caseHead? name marker = some head := by
      simp only [Globals.head] at hhead
      split at hhead
      next hsome =>
        cases hhead
        exact hsome
      next => split at hhead <;> cases hhead
    refine h.missingSubject (name, marker) (by simp [Term.heads, Term.constant?]) ?_
    rw [hcase, Option.map_some, hlast]
  | _ => cases hhead

/-- Every permitted term has a plan that is formed, or fails with what is allowed. -/
theorem shapes_term (hreports : ∀ f, g.Reports f → allowed f) {t : Term}
    (ht : Permitted allowed g t) : TermShapes allowed g t := by
  induction t using Term.ind with
  | app fn args ihfn ihargs =>
    have hlen := Term.length_le_nodesOfArgs args
    have hnodes := ht.nodes_lt
    simp only [Term.nodes] at hnodes
    exact shapes_app hreports (ihfn ht.fn) (fun a ha => ihargs a ha (ht.arg ha)) (by omega)
      fun head hhead hlast => ht.head hhead hlast
  | letIn bindings body ihbindings ihbody =>
    refine shapes_let (fun b hb => ihbindings b hb ?_) (ihbody ?_)
    · have hnodes := Term.nodes_le_of_mem_bindings hb
      refine ht.part (by simp only [Term.nodes]; omega) fun c hc => ?_
      exact List.mem_append_left _ (Term.mem_headsOfBindings.mpr ⟨b, hb, hc⟩)
    · refine ht.part (by simp only [Term.nodes]; omega) fun c hc => ?_
      exact List.mem_append_right _ hc
  | absent => exact fun role depth scope => Shapes.fail (hreports _ trivial)
  | sort level => exact fun role depth scope => Shapes.fail (hreports _ trivial)
  | mvar name => exact fun role depth scope => Shapes.fail (hreports _ trivial)
  | pi binder domain body => exact fun role depth scope => Shapes.fail (hreports _ trivial)
  | foreign name args => exact fun role depth scope => Shapes.fail (hreports _ trivial)
  | var i =>
    intro role depth scope
    rw [planTerm]
    cases scope[i.toNat]? with
    | none => exact Shapes.fail (hreports _ trivial)
    | some b => exact (Shapes.op rfl).leave (Nat.le_refl 2)
  | fvar id name =>
    intro role depth scope
    rw [planTerm]
    cases scope.find? fun b => b.id == id.toNat with
    | none => exact Shapes.fail (hreports _ trivial)
    | some b => exact (Shapes.op rfl).leave (Nat.le_refl 2)
  | const name marker =>
    exact fun role depth scope => (shapes_constant hreports name marker).leave (Nat.le_refl 2)
  | nat value => exact fun role depth scope => (Shapes.op rfl).leave (Nat.le_refl 2)
  | quote body =>
    intro role depth scope
    refine Shapes.leave (Shapes.op rfl) ?_
    simp only [Term.nodes]
    omega
  | ann name body ih =>
    intro role depth scope
    have hpos := body.nodes_pos
    have hbody := ih (ht.part (by simp only [Term.nodes]; omega) (List.Subset.refl _))
    refine Shapes.leave (hbody .value depth scope) ?_
    simp only [Term.nodes]
    omega
  | lam binder body ih =>
    intro role depth scope
    have hbody := ih (ht.part (by simp only [Term.nodes]; omega) (List.Subset.refl _))
    cases role with
    | value => exact Shapes.fail (hreports _ trivial)
    | letBody n => exact Shapes.fail (hreports _ trivial)
    | alternative n =>
      refine (Shapes.fresh.bind fun id => hbody (.alternative (n + 1)) (depth + 1)
        (⟨id, depth⟩ :: scope)).mono (by omega) ?_
      simp only [Term.nodes]
      omega

/-! ## Bodies -/

/-- The part of a term that code is generated for is permitted when the term is. -/
theorem Permitted.body {t : Term} (h : Permitted allowed g t) :
    Permitted allowed g (bodyOf t).flatten := by
  have hnodes := nodes_bodyOf t
  have hflat := (bodyOf t).nodes_flatten_le
  exact h.part (by omega) (Term.heads_flatten_bodyOf_subset t)

/-- The body of a procedure is formed, and its positions are 32-bit words. -/
theorem formed_body {t : Term} (ht : t.nodes < 2 ^ 30) {d : Drawing Nat}
    (hd : planBody g t = .ok d) : d.outline.Formed ∧ d.outline.size + 1 < 2 ^ 32 := by
  have hpermitted : Permitted (fun _ => True) g t := ⟨by omega, fun _ _ _ => trivial⟩
  have hshapes := shapes_term (fun _ _ => trivial) hpermitted.body .value t.arity
    (parameters t.arity)
  obtain ⟨hformed, -, hmost⟩ := hshapes.formed t.arity d hd
  have hnodes := nodes_bodyOf t
  have hflat := (bodyOf t).nodes_flatten_le
  exact ⟨hformed, by omega⟩

end Terms

/-! ## Failures -/

theorem Alike.eq_of_reports {g : Globals} {f f' : Failure} (h : Alike f f') (hf : g.Reports f) :
    f' = f := by
  cases h with
  | same f => rfl
  | misuse m m' => cases hf

/-- Code generation comes to a procedure or to a report about the term: a global that the table
    does not have, an extension, or a violated invariant.  The buffer is never misused, whatever
    the term; only a head that announces 2^32 - 1 alternatives could be left without a subject. -/
theorem compileProcedure_reports (g : Globals) (name : String) {t : Term} (ht : t.nodes < 2 ^ 30)
    (hheads : ∀ c ∈ t.heads,
      (g.caseHead? c.1 c.2).map CaseHead.alternatives ≠ some 4294967295) :
    (∃ p, compileProcedure g name t = .ok p) ∨
      (∃ n, compileProcedure g name t = .error (.unknownConstant n) ∧
        g.table.lookup? n = none) ∨
      (∃ tag, compileProcedure g name t = .error (.unsupportedExtension tag)) ∨
      ∃ v, compileProcedure g name t = .error (.invariant v) := by
  cases hp : compileProcedure g name t with
  | ok p => exact .inl ⟨p, rfl⟩
  | error f =>
    have hpermitted : Permitted g.Reports g t :=
      ⟨by omega, fun c hc hlast => absurd hlast (hheads c hc)⟩
    have hshapes := shapes_term (fun _ => id) hpermitted.body .value t.arity (parameters t.arity)
    obtain ⟨f', hf', halike⟩ := compileProcedure_eq_error hp
    have hreport : g.Reports f' := hshapes.failure t.arity f' hf'
    obtain rfl := halike.eq_of_reports hreport
    cases f with
    | unknownConstant n => exact .inr (.inl ⟨n, rfl, hreport⟩)
    | unsupportedExtension tag => exact .inr (.inr (.inl ⟨tag, rfl⟩))
    | invariant v => exact .inr (.inr (.inr ⟨v, rfl⟩))
    | misuse m => cases hreport
    | missingSubject => cases hreport

/-- A match that calls an unknown global in its second alternative, with a nested match in front
    of the call. -/
def strayCall : Term :=
  .lam "n" <| .app (.const "cases" ⟨.cases, 2⟩)
    [.var 0, .lam "a" (.app (.const Term.natCasesOn .none) [.var 0, .var 1, .lam "k" (.var 0)]),
     .app (.global "lost") [.app (.const "cases" ⟨.cases, 1⟩) [.var 0, .lam "b" (.var 0)]]]

theorem compileProcedure_strayCall :
    ∃ n, compileProcedure ⟨.empty, none⟩ "f" strayCall = .error (.unknownConstant n) ∧
      DeclTable.empty.lookup? n = none := by
  have hfails : (compileProcedure ⟨.empty, none⟩ "f" strayCall)
      = .error (.unknownConstant "lost") := by decide +kernel
  rcases compileProcedure_reports ⟨.empty, none⟩ "f" (show strayCall.nodes < 2 ^ 30 by decide)
    (by decide) with ⟨p, hp⟩ | hunknown | ⟨tag, hp⟩ | ⟨v, hp⟩
  · rw [hfails] at hp
    cases hp
  · exact hunknown
  · rw [hfails] at hp
    cases hp
  · rw [hfails] at hp
    cases hp

/-- Counted as a 32-bit word, no argument is one more than the announced alternatives. -/
example : compileProcedure ⟨.empty, none⟩ "f" (.app (.const "cases" ⟨.cases, 4294967295⟩) [])
    = .error .missingSubject := by
  decide +kernel

end Codegen

end TermVM
