/-
  TermVM.Proofs.Balance.Plan

  Planned outlines keep the stack in balance.

  `Moves d o d'` says that an outline entered at depth `d` passes every check
  of the verifier on its way and goes on at depth `d'`.  A trap does not go on,
  so it may claim any depth behind it; that is what lets the alternatives of a
  dispatch agree at their join even when some of them trap.

  `Draws` is the same for a plan, with a bound on the number of instructions it
  draws.  It composes along sequences, and `draws_term` carries it over every
  term: a term leaves exactly one value above what it found, less what its
  surroundings had bound.
-/
import TermVM.Proofs.DeclTable.Reachable
import TermVM.Proofs.Outline.Basic
import TermVM.Proofs.Term.Flatten
import TermVM.Proofs.Verify.Flow

namespace TermVM

open Codegen Verify

/-! ## Depths of outlines -/

namespace Outline

/-- Wherever it stands, an instruction passes its check at depth `d`, and control goes nowhere but
    to the next instruction with depth `d'`. -/
structure Straight (table : DeclTable) (d : Nat) (i : Instr) (d' : Nat) : Prop where
  op_sequential : sequential i.op = true
  admits : ∀ arity size pc, Admits table arity size ⟨pc, d⟩ i
  exits_eq : ∀ pc, ∀ e ∈ exits table ⟨pc, d⟩ i, e = ⟨pc + 1, d'⟩

/-- An outline passes every check when it is entered at the first depth, and goes on, if it does,
    at the second. -/
inductive Moves (table : DeclTable) : Nat → Outline → Nat → Prop where
  | nil (d : Nat) : Moves table d .nil d
  | op {d d' : Nat} {i : Instr} (h : Straight table d i d') : Moves table d (.op i) d'
  | seq {d d₁ d₂ : Nat} {first second : Outline} (h₁ : Moves table d first d₁)
      (h₂ : Moves table d₁ second d₂) : Moves table d (.seq first second) d₂
  | dispatch {d : Nat} {head : CaseHead} {alternatives : List (Nat × Outline)}
      (hlen : alternatives.length = head.alternatives.toNat)
      (hfields : ∀ a ∈ alternatives, a.1 < 2 ^ 32)
      (h : ∀ a ∈ alternatives, Moves table (d + a.1) a.2 (d + 1)) :
      Moves table (d + 1) (.dispatch head alternatives) (d + 1)

namespace Straight

variable {table : DeclTable}

/-- An instruction that changes the depth by a known amount and sends control nowhere else. -/
theorem of_change {d d' : Nat} {i : Instr}
    (hadmits : ∀ arity size pc, Admits table arity size ⟨pc, d⟩ i)
    (hop : sequential i.op = true)
    (hchange : ∀ c ∈ change table i, (d : Int) + c = d') : Straight table d i d' := by
  refine ⟨hop, hadmits, fun pc e he => ?_⟩
  rw [exits_of_sequential hop] at he
  obtain ⟨c, hc, rfl⟩ := List.mem_map.mp he
  have hd := hchange c (Option.mem_toList.mp hc)
  rw [hd]

theorem push {d slot : Nat} (hslot : slot < d) (hd : d < 2 ^ 32) :
    Straight table d (.push (UInt32.ofNat slot)) (d + 1) := by
  have hword : (UInt32.ofNat slot).toNat = slot :=
    UInt32.toNat_ofNat_of_lt' (show slot < 2 ^ 32 by omega)
  refine of_change ?_ rfl ?_
  · intro arity size pc
    show ((UInt32.ofNat slot).toNat : Int) < d
    omega
  · simp [change, Instr.push]

theorem drop {d n : Nat} (hn : n < 2 ^ 32) :
    Straight table (d + n + 1) (.drop (UInt32.ofNat n)) (d + 1) := by
  have hword : (UInt32.ofNat n).toNat = n := UInt32.toNat_ofNat_of_lt' hn
  refine of_change ?_ rfl ?_
  · intro arity size pc
    show ((UInt32.ofNat n).toNat : Int) + 1 ≤ (d + n + 1 : Nat)
    omega
  · intro c hc
    obtain rfl : -((UInt32.ofNat n).toNat : Int) = c := by simpa [change, Instr.drop] using hc
    omega

theorem scnstr (d : Nat) (index : UInt32) : Straight table d (.scnstr index) (d + 1) :=
  of_change (fun _ _ _ => trivial) rfl (by simp [change, Instr.scnstr])

theorem literal (d : Nat) (value : Int) : Straight table d (.literal value) (d + 1) :=
  of_change (fun _ _ _ => trivial) rfl (by simp [change, Instr.literal])

theorem quotation (d : Nat) (t : Term) : Straight table d (.quotation t) (d + 1) :=
  of_change (fun _ _ _ => trivial) rfl
    (by simp [change, Instr.quotation])

theorem cnstr {d n : Nat} (index : UInt32) (hn : n < 2 ^ 32) :
    Straight table (d + n) (.cnstr index (UInt32.ofNat n)) (d + 1) := by
  have hword : (UInt32.ofNat n).toNat = n := UInt32.toNat_ofNat_of_lt' hn
  refine of_change ?_ rfl ?_
  · intro arity size pc
    show ((UInt32.ofNat n).toNat : Int) ≤ (d + n : Nat)
    omega
  · intro c hc
    obtain rfl : 1 - ((UInt32.ofNat n).toNat : Int) = c := by simpa [change, Instr.cnstr] using hc
    omega

theorem proj (d : Nat) (index : UInt32) : Straight table (d + 1) (.proj index) (d + 1) := by
  refine of_change ?_ rfl (by simp [change, Instr.proj])
  intro arity size pc
  show (1 : Int) ≤ (d + 1 : Nat)
  omega

theorem apply (d : Nat) : Straight table (d + 2) .apply (d + 1) := by
  refine of_change ?_ rfl ?_
  · intro arity size pc
    show (2 : Int) ≤ (d + 2 : Nat)
    omega
  · intro c hc
    obtain rfl : -1 = c := by simpa [change, Instr.apply] using hc
    omega

/-- Control does not go on behind a trap. -/
theorem unreachable (d d' : Nat) : Straight table d .unreachable d' :=
  of_change (fun _ _ _ => trivial) rfl (by simp [change, Instr.unreachable])

theorem closure {d n : Nat} {decl : Decl} (hat : table.at? decl.index = some decl)
    (hn : n < decl.arity.toNat) :
    Straight table (d + n) (.closure decl.index (UInt32.ofNat n)) (d + 1) := by
  have harity : decl.arity.toNat < 2 ^ 32 := decl.arity.toNat_lt
  have hword : (UInt32.ofNat n).toNat = n :=
    UInt32.toNat_ofNat_of_lt' (show n < 2 ^ 32 by omega)
  refine of_change ?_ rfl ?_
  · intro arity size pc
    refine ⟨decl, hat, ?_, ?_⟩
    · rw [UInt32.lt_iff_toNat_lt, Instr.closure, hword]
      exact hn
    · show ((UInt32.ofNat n).toNat : Int) ≤ (d + n : Nat)
      omega
  · intro c hc
    obtain rfl : 1 - ((UInt32.ofNat n).toNat : Int) = c := by
      simpa [change, Instr.closure] using hc
    omega

/-- A call by the operation that belongs to the kind of the declaration. -/
theorem invoke {d : Nat} {decl : Decl} {m : Mnemonic} (hat : table.at? decl.index = some decl)
    (hm : m ∈ [.invokeGlobal, .invokeBuiltin, .invokeNative]) (hkind : decl.kind = callee m) :
    Straight table (d + decl.arity.toNat) (.invoke m decl.index) (d + 1) := by
  have hcalls : Calls table m (d + decl.arity.toNat : Nat) (.invoke m decl.index) :=
    ⟨decl, hat, hkind, by omega⟩
  simp only [List.mem_cons, List.not_mem_nil, or_false] at hm
  have hchange : change table (.invoke m decl.index) = some (1 - decl.arity.toNat : Int) := by
    rcases hm with rfl | rfl | rfl <;> simp [change, Instr.invoke, hat]
  refine of_change ?_ ?_ ?_
  · rcases hm with rfl | rfl | rfl <;> exact fun arity size pc => hcalls
  · rcases hm with rfl | rfl | rfl <;> rfl
  · intro c hc
    rw [hchange, Option.mem_some_iff] at hc
    omega

end Straight

end Outline

/-! ## Depths of plans -/

namespace Codegen

open Outline

/-- Whatever a plan comes to, its outline goes from depth `d` to depth `d'` in at most `n`
    instructions, and its value is as required. -/
def Draws {α : Type} (table : DeclTable) (d : Nat) (p : Plan α) (d' n : Nat)
    (Q : α → Prop := fun _ => True) : Prop :=
  ∀ id r, p id = .ok r → Moves table d r.outline d' ∧ r.outline.size ≤ n ∧ Q r.value

namespace Draws

variable {α β : Type} {table : DeclTable} {d d₁ d₂ n n₁ n₂ : Nat}

theorem pure {a : α} {Q : α → Prop} (h : Q a) : Draws table d (Pure.pure a) d 0 Q := by
  rintro id r ⟨⟩
  exact ⟨.nil d, Nat.le_refl 0, h⟩

theorem fail {f : Failure} {Q : α → Prop} : Draws table d (Plan.fail f) d₁ n Q := by
  rintro id r ⟨⟩

theorem fresh : Draws table d Plan.fresh d 0 := by
  rintro id r ⟨⟩
  exact ⟨.nil d, Nat.le_refl 0, trivial⟩

theorem op {i : Instr} (h : Straight table d i d₁) : Draws table d (Plan.op i) d₁ 1 := by
  rintro id r ⟨⟩
  exact ⟨.op h, Nat.le_refl 1, trivial⟩

theorem bind {p : Plan α} {f : α → Plan β} {P : α → Prop} {Q : β → Prop}
    (hp : Draws table d p d₁ n₁ P) (hf : ∀ a, P a → Draws table d₁ (f a) d₂ n₂ Q) :
    Draws table d (p >>= f) d₂ (n₁ + n₂) Q := by
  intro id r hr
  obtain ⟨first, hfirst, second, hsecond, rfl⟩ := Plan.bind_eq_ok.mp hr
  obtain ⟨hmoves, hsize, hvalue⟩ := hp id first hfirst
  obtain ⟨hmoves', hsize', hvalue'⟩ := hf first.value hvalue first.lastId second hsecond
  exact ⟨.seq hmoves hmoves', Nat.add_le_add hsize hsize', hvalue'⟩

theorem weaken {p : Plan α} {P Q : α → Prop} (h : Draws table d p d₁ n₁ P) (hn : n₁ ≤ n)
    (hQ : ∀ a, P a → Q a) : Draws table d p d₁ n Q := by
  intro id r hr
  obtain ⟨hmoves, hsize, hvalue⟩ := h id r hr
  exact ⟨hmoves, Nat.le_trans hsize hn, hQ _ hvalue⟩

theorem mono {p : Plan α} {Q : α → Prop} (h : Draws table d p d₁ n₁ Q) (hn : n₁ ≤ n) :
    Draws table d p d₁ n Q :=
  h.weaken hn fun _ => id

theorem applies (n : Nat) : Draws table (d + n + 1) (Plan.applies n) (d + 1) n := by
  induction n with
  | zero => exact Draws.pure trivial
  | succ n ih => exact ((Draws.op (Straight.apply (d + n))).bind fun _ _ => ih).mono (by omega)

/-- A dispatch goes on at the depth that its alternatives agree on. -/
theorem dispatch {head : CaseHead}
    {alternatives : Nat → Except Failure (List (Nat × Outline) × Nat)}
    (h : ∀ id os id', alternatives id = .ok (os, id') → sizeOfAlternatives os ≤ n ∧
      ∀ a ∈ os, a.1 < 2 ^ 32 ∧ Moves table (d + a.1) a.2 (d + 1)) :
    Draws table (d + 1) (Plan.dispatch head alternatives) (d + 1) (n + 1) := by
  intro id r hr
  obtain ⟨⟨os, id'⟩, hos, hr⟩ := Result.bind_eq_ok.mp hr
  obtain ⟨hsize, halts⟩ := h id os id' hos
  dsimp only at hr
  split at hr
  · cases hr
    refine ⟨.dispatch ‹_› (fun a ha => (halts a ha).1) fun a ha => (halts a ha).2, ?_, trivial⟩
    simp only [size]
    omega
  · cases hr

end Draws

/-! ## Leaves and calls -/

/-- The number of values that the surroundings of a term have bound in front of it. -/
def Role.bound : Role → Nat
  | value => 0
  | alternative n | letBody n => n

section

variable {g : Globals} (hwf : g.table.WellFormed) (hsize : g.table.size ≤ 2 ^ 32)

theorem draws_leave {table : DeclTable} {base : Nat} (role : Role) (h : role.bound < 2 ^ 32) :
    Draws table (base + role.bound + 1) role.plan (base + 1) 1 fun v => v = role.bound := by
  have hleave : ∀ n < 2 ^ 32, Draws table (base + n + 1)
      (do if 0 < n then Plan.op (.drop (UInt32.ofNat n))
          return n) (base + 1) 1 fun v => v = n := by
    intro n hn
    by_cases hpos : 0 < n
    · simp only [hpos, if_true]
      exact (Draws.op (Straight.drop hn)).bind fun _ _ => Draws.pure (Q := fun v => v = n) rfl
    · obtain rfl : n = 0 := by omega
      exact (Draws.pure (Q := fun v => v = 0) rfl).mono (Nat.zero_le 1)
  cases role with
  | value => exact (Draws.pure (Q := fun v => v = 0) rfl).mono (Nat.zero_le 1)
  | alternative n => exact hleave n h
  | letBody n => exact hleave n h

theorem draws_resolve {name : String} {d : Nat} :
    Draws g.table d (g.planResolve name) d 0 fun decl => g.table.lookup? name = some decl := by
  unfold Globals.planResolve
  cases g.table.lookup? name with
  | none => exact Draws.fail
  | some decl => exact Draws.pure rfl

include hwf hsize

theorem draws_call {d : Decl} {name : String} (hd : g.table.lookup? name = some d)
    {base arguments : Nat} :
    Draws g.table (base + arguments) (planCall d arguments) (base + 1) (1 + arguments) := by
  have hat := hwf.at?_index hsize hd
  have hkind := hwf.kind_of_lookup? hd
  unfold planCall
  by_cases hless : arguments < d.arity.toNat
  · rw [if_pos hless]
    exact (Draws.op (Straight.closure hat hless)).mono (by omega)
  · rw [if_neg hless]
    -- the call takes the arguments on top and leaves the others below its result
    obtain ⟨extra, rfl⟩ : ∃ extra, arguments = extra + d.arity.toNat :=
      ⟨arguments - d.arity.toNat, by omega⟩
    have hdepth : base + (extra + d.arity.toNat) = base + extra + d.arity.toNat := by omega
    rw [hdepth, Nat.add_sub_cancel]
    refine ((Draws.op (Straight.invoke hat ?_ ?_)).bind fun _ _ => Draws.applies extra).mono
      (by omega)
    · cases d.kind <;> simp
    · cases hk : d.kind with
      | other code h => simp [hk] at hkind
      | _ => rfl

theorem draws_constant (name : String) (marker : Marker) (d : Nat) :
    Draws g.table d (planConstant g name marker) (d + 1) 1 := by
  unfold planConstant
  cases marker.kind with
  | neutral => exact Draws.op (Straight.scnstr d 0)
  | unreachable => exact Draws.op (Straight.unreachable d _)
  | cnstr => exact Draws.op (Straight.scnstr d _)
  | plain =>
    by_cases hzero : name = Term.natZero
    · simp only [hzero, if_true]
      exact Draws.op (Straight.literal d 0)
    · simp only [hzero, if_false]
      exact draws_resolve.bind fun decl hdecl => draws_call hwf hsize hdecl
  | proj => exact Draws.fail
  | cases => exact Draws.fail
  | other code h => exact Draws.fail

end

/-! ## Terms -/

/-- The fields that an alternative will still bind when its term is drawn. -/
def Role.pending : Role → Term → Nat
  | alternative _, t => t.arity
  | _, _ => 0

/-- Every binder in scope has its value in the frame. -/
def Scope.Within (scope : Scope) (depth : Nat) : Prop :=
  ∀ b ∈ scope, b.slot < depth

theorem Scope.Within.cons {scope : Scope} {depth id : Nat} (h : scope.Within depth) :
    Scope.Within (⟨id, depth⟩ :: scope) (depth + 1) := by
  refine List.forall_mem_cons.mpr ⟨Nat.lt_succ_self depth, fun b hb => ?_⟩
  have := h b hb
  omega

theorem Scope.Within.mono {scope : Scope} {depth depth' : Nat} (h : scope.Within depth)
    (hle : depth ≤ depth') : scope.Within depth' :=
  fun b hb => Nat.lt_of_lt_of_le (h b hb) hle

/-- A term leaves one value in the place of what its surroundings had bound.  The entry depth of an
    alternative counts all the fields it binds. -/
def TermDraws (g : Globals) (t : Term) : Prop :=
  ∀ role base scope, Scope.Within scope (base + role.bound) → base + role.bound + t.nodes < 2 ^ 32 →
    Draws g.table (base + role.bound + role.pending t)
      (planTerm g t role (base + role.bound) scope) (base + 1) (3 * t.nodes - 1)
      fun v => ∀ n, role = .alternative n → v = n + t.arity

section Lists

variable {g : Globals}

theorem TermDraws.value {t : Term} (h : TermDraws g t) {depth : Nat} {scope : Scope}
    (hscope : scope.Within depth) (hfits : depth + t.nodes < 2 ^ 32) :
    Draws g.table depth (planTerm g t .value depth scope) (depth + 1) (3 * t.nodes - 1) :=
  (h .value depth scope hscope hfits).weaken (Nat.le_refl _) fun _ _ => trivial

theorem draws_args {args : List Term} (h : ∀ a ∈ args, TermDraws g a) {depth : Nat} {scope : Scope}
    (hscope : scope.Within depth) (hfits : depth + Term.nodesOfArgs args < 2 ^ 32) :
    Draws g.table depth (planArgs g args depth scope) (depth + args.length)
      (3 * Term.nodesOfArgs args - args.length) := by
  induction args generalizing depth with
  | nil => exact Draws.pure trivial
  | cons a as ih =>
    rw [List.forall_mem_cons] at h
    have hpos := a.nodes_pos
    have hlen := Term.length_le_nodesOfArgs as
    simp only [Term.nodesOfArgs] at hfits
    have hfirst := h.1.value hscope (by omega)
    have hrest := ih h.2 (hscope.mono (Nat.le_succ depth)) (by omega)
    rw [List.length_cons, Nat.add_comm as.length, ← Nat.add_assoc]
    refine (hfirst.bind fun _ _ => hrest).mono ?_
    simp only [Term.nodesOfArgs]
    omega

theorem draws_argsRev {args : List Term} (h : ∀ a ∈ args, TermDraws g a) {depth : Nat}
    {scope : Scope} (hscope : scope.Within depth)
    (hfits : depth + Term.nodesOfArgs args < 2 ^ 32) :
    Draws g.table depth (planArgsRev g args depth scope) (depth + args.length)
      (3 * Term.nodesOfArgs args - args.length) := by
  induction args with
  | nil => exact Draws.pure trivial
  | cons a as ih =>
    rw [List.forall_mem_cons] at h
    have hpos := a.nodes_pos
    have hlen := Term.length_le_nodesOfArgs as
    simp only [Term.nodesOfArgs] at hfits
    have hrest := ih h.2 (by omega)
    have hfirst := @TermDraws.value g a h.1 (depth + as.length) scope
      (hscope.mono (Nat.le_add_right ..)) (by omega)
    refine (hrest.bind fun _ _ => hfirst.bind fun _ _ => Draws.pure trivial).mono ?_
    simp only [Term.nodesOfArgs, List.length_cons]
    omega

theorem draws_bindings {bindings : List (String × Term)} (h : ∀ b ∈ bindings, TermDraws g b.2)
    {depth : Nat} {scope : Scope} (hscope : scope.Within depth)
    (hfits : depth + Term.nodesOfBindings bindings < 2 ^ 32) :
    Draws g.table depth (planBindings g bindings depth scope) (depth + bindings.length)
      (3 * Term.nodesOfBindings bindings - bindings.length)
      fun inner => inner.Within (depth + bindings.length) := by
  induction bindings generalizing depth scope with
  | nil => exact Draws.pure hscope
  | cons b bs ih =>
    rw [List.forall_mem_cons] at h
    have hpos := b.2.nodes_pos
    have hlen := Term.length_le_nodesOfBindings bs
    simp only [Term.nodesOfBindings] at hfits
    have hfirst := h.1.value hscope (by omega)
    have hrest := fun id => @ih h.2 (depth + 1) (⟨id, depth⟩ :: scope) hscope.cons (by omega)
    rw [List.length_cons, Nat.add_comm bs.length, ← Nat.add_assoc]
    refine (hfirst.bind fun _ _ => Draws.fresh.bind fun id _ => hrest id).mono ?_
    simp only [Term.nodesOfBindings]
    omega

theorem draws_projection {index : UInt32} {args : List Term} (h : ∀ a ∈ args, TermDraws g a)
    {depth : Nat} {scope : Scope} (hscope : scope.Within depth)
    (hfits : depth + Term.nodesOfArgs args < 2 ^ 32) :
    Draws g.table depth (planProjection g index args depth scope) (depth + 1)
      (3 * Term.nodesOfArgs args) := by
  cases args with
  | nil => exact Draws.fail
  | cons subject extra =>
    rw [List.forall_mem_cons] at h
    have hpos := subject.nodes_pos
    have hlen := Term.length_le_nodesOfArgs extra
    simp only [Term.nodesOfArgs] at hfits
    have hextra := draws_argsRev h.2 hscope (by omega)
    have hsubject := @TermDraws.value g subject h.1 (depth + extra.length) scope
      (hscope.mono (Nat.le_add_right ..)) (by omega)
    refine (hextra.bind fun _ _ => hsubject.bind fun _ _ =>
      (Draws.op (Outline.Straight.proj (depth + extra.length) index)).bind fun _ _ =>
        Draws.applies extra.length).mono ?_
    simp only [Term.nodesOfArgs]
    omega

theorem moves_alternatives {alts : List Term} (h : ∀ a ∈ alts, TermDraws g a) {depth : Nat}
    {scope : Scope} (hscope : scope.Within depth)
    (hfits : depth + Term.nodesOfArgs alts < 2 ^ 32) {id id' : Nat} {os : List (Nat × Outline)}
    (hos : planAlternatives g alts depth scope id = .ok (os, id')) :
    Outline.sizeOfAlternatives os ≤ 3 * Term.nodesOfArgs alts ∧
      ∀ a ∈ os, a.1 < 2 ^ 32 ∧ Outline.Moves g.table (depth + a.1) a.2 (depth + 1) := by
  induction alts generalizing id os with
  | nil =>
    cases hos
    exact ⟨Nat.zero_le _, by simp⟩
  | cons alt rest ih =>
    rw [List.forall_mem_cons] at h
    have hpos := alt.nodes_pos
    have harity := alt.arity_lt_nodes
    simp only [Term.nodesOfArgs] at hfits
    obtain ⟨first, hfirst, hos⟩ := Result.bind_eq_ok.mp hos
    obtain ⟨⟨more, id₂⟩, hmore, hos⟩ := Result.bind_eq_ok.mp hos
    cases hos
    obtain ⟨hmoves, hsize, hvalue⟩ :=
      h.1 (.alternative 0) depth scope hscope (by simp only [Role.bound]; omega) id first hfirst
    obtain ⟨hsizes, hrest⟩ := ih h.2 (by omega) hmore
    have hfields : first.value = alt.arity := by simpa using hvalue 0 rfl
    refine ⟨?_, List.forall_mem_cons.mpr ⟨⟨?_, ?_⟩, hrest⟩⟩
    · have hjump : Outline.jumps more ≤ 1 := by unfold Outline.jumps; split <;> omega
      simp only [Outline.sizeOfAlternatives, Term.nodesOfArgs]
      omega
    · rw [hfields]
      omega
    · rw [hfields]
      exact hmoves

theorem draws_analysis {head : CaseHead} {args : List Term} (h : ∀ a ∈ args, TermDraws g a)
    {depth : Nat} {scope : Scope} (hscope : scope.Within depth)
    (hfits : depth + Term.nodesOfArgs args < 2 ^ 32) :
    Draws g.table depth (planAnalysis g head args depth scope) (depth + 1)
      (3 * Term.nodesOfArgs args) := by
  unfold planAnalysis
  split
  · exact Draws.fail
  · split
    · exact Draws.fail
    · cases args with
      | nil => exact Draws.fail
      | cons major alts =>
        rw [List.forall_mem_cons] at h
        have hpos := major.nodes_pos
        simp only [Term.nodesOfArgs] at hfits
        have hmajor := h.1.value hscope (by omega)
        refine (hmajor.bind fun _ _ => Draws.dispatch fun id os id' hos =>
          moves_alternatives h.2 hscope (by omega) hos).mono ?_
        simp only [Term.nodesOfArgs]
        omega

end Lists

section Terms

variable {g : Globals}

/-- What pushes the value of a term without leading lambdas, followed by the removal of what its
    surroundings had bound. -/
theorem Draws.leave {α : Type} {t : Term} {role : Role} {base n : Nat} {p : Plan α}
    (ht : t.arity = 0) (hbound : role.bound < 2 ^ 32)
    (h : Draws g.table (base + role.bound) p (base + role.bound + 1) n)
    (hn : n + 1 ≤ 3 * t.nodes - 1) :
    Draws g.table (base + role.bound + role.pending t) (p >>= fun _ => role.plan) (base + 1)
      (3 * t.nodes - 1) fun v => ∀ n, role = .alternative n → v = n + t.arity := by
  have hpending : role.pending t = 0 := by cases role <;> simp [Role.pending, ht]
  rw [hpending]
  refine (h.bind fun _ _ => draws_leave role hbound).weaken hn ?_
  rintro v rfl n rfl
  simp [Role.bound, ht]

theorem draws_let {bindings : List (String × Term)} {body : Term}
    (hbindings : ∀ b ∈ bindings, TermDraws g b.2) (hbody : TermDraws g body) :
    TermDraws g (.letIn bindings body) := by
  intro role base scope hscope hfits
  have hpos := body.nodes_pos
  have hlen := Term.length_le_nodesOfBindings bindings
  simp only [Term.nodes] at hfits
  have hvalues := draws_bindings hbindings hscope (by omega)
  have hbound : base + role.bound + bindings.length + body.nodes < 2 ^ 32 := by omega
  -- a let that does not continue a chain drops its own values
  have hclosed := (hvalues.bind fun inner hinner =>
    (hbody (.letBody bindings.length) (base + role.bound) inner hinner hbound).bind fun _ _ =>
      draws_leave role (by omega))
  have hcount : 3 * Term.nodesOfBindings bindings - bindings.length + (3 * body.nodes - 1 + 1) ≤
      3 * (Term.letIn bindings body).nodes - 1 := by
    simp only [Term.nodes]
    omega
  rw [planTerm]
  cases role with
  | letBody n =>
    simp only [Role.bound, Nat.add_assoc] at hvalues hbound ⊢
    refine (hvalues.bind fun inner hinner =>
      hbody (.letBody (n + bindings.length)) base inner hinner ?_).weaken ?_ ?_
    · simp only [Role.bound]
      omega
    · omega
    · rintro v - m ⟨⟩
  | value => exact hclosed.weaken hcount fun v _ m hm => by cases hm
  | alternative n =>
    refine hclosed.weaken hcount ?_
    rintro v rfl m ⟨⟩
    rfl

variable (hwf : g.table.WellFormed) (hsize : g.table.size ≤ 2 ^ 32)

include hwf hsize

theorem draws_app {fn : Term} {args : List Term} (hfn : TermDraws g fn)
    (hargs : ∀ a ∈ args, TermDraws g a) : TermDraws g (.app fn args) := by
  intro role base scope hscope hfits
  have hpos := fn.nodes_pos
  have hlen := Term.length_le_nodesOfArgs args
  simp only [Term.nodes] at hfits
  have hfitsArgs : base + role.bound + Term.nodesOfArgs args < 2 ^ 32 := by omega
  have hrev := draws_argsRev hargs hscope hfitsArgs
  have hwithin : scope.Within (base + role.bound + args.length) :=
    hscope.mono (Nat.le_add_right ..)
  rw [planTerm]
  refine Draws.leave (n := 3 * Term.nodesOfArgs args + 3 * fn.nodes - 1) rfl (by omega) ?_
    (by simp only [Term.nodes]; omega)
  cases g.head fn with
  | analysis head => exact (draws_analysis hargs hscope hfitsArgs).mono (by omega)
  | cnstr index =>
    exact ((draws_args hargs hscope hfitsArgs).bind fun _ _ =>
      Draws.op (Outline.Straight.cnstr index (by omega))).mono (by omega)
  | proj index => exact (draws_projection hargs hscope hfitsArgs).mono (by omega)
  | neutral => exact (Draws.op (Outline.Straight.scnstr _ 0)).mono (by omega)
  | unreachable => exact (Draws.op (Outline.Straight.unreachable _ _)).mono (by omega)
  | declared name =>
    exact (draws_resolve.bind fun d hd => hrev.bind fun _ _ =>
      draws_call hwf hsize hd).mono (by omega)
  | unusable marker => exact Draws.fail
  | computed =>
    have hhead := hfn.value hwithin (by omega)
    exact (hrev.bind fun _ _ => hhead.bind fun _ _ => Draws.applies args.length).mono (by omega)

theorem draws_term (t : Term) : TermDraws g t := by
  induction t using Term.ind with
  | app fn args ihfn ihargs => exact draws_app hwf hsize ihfn ihargs
  | letIn bindings body ihbindings ihbody => exact draws_let ihbindings ihbody
  | absent => exact fun role base scope _ _ => Draws.fail
  | sort level => exact fun role base scope _ _ => Draws.fail
  | mvar name => exact fun role base scope _ _ => Draws.fail
  | pi binder domain body => exact fun role base scope _ _ => Draws.fail
  | foreign name args => exact fun role base scope _ _ => Draws.fail
  | var i =>
    intro role base scope hscope hfits
    rw [planTerm]
    cases hb : scope[i.toNat]? with
    | none => exact Draws.fail
    | some b =>
      have hslot := hscope b (List.mem_of_getElem? hb)
      exact Draws.leave rfl (by omega) (Draws.op (Outline.Straight.push hslot (by omega)))
        (Nat.le_refl 2)
  | fvar id name =>
    intro role base scope hscope hfits
    rw [planTerm]
    cases hb : scope.find? fun b => b.id == id.toNat with
    | none => exact Draws.fail
    | some b =>
      have hslot := hscope b (List.mem_of_find?_eq_some hb)
      exact Draws.leave rfl (by omega) (Draws.op (Outline.Straight.push hslot (by omega)))
        (Nat.le_refl 2)
  | const name marker =>
    intro role base scope hscope hfits
    exact Draws.leave rfl (by omega) (draws_constant hwf hsize name marker _) (Nat.le_refl 2)
  | nat value =>
    intro role base scope hscope hfits
    exact Draws.leave rfl (by omega) (Draws.op (Outline.Straight.literal _ value)) (Nat.le_refl 2)
  | quote body =>
    intro role base scope hscope hfits
    refine Draws.leave rfl (by omega) (Draws.op (Outline.Straight.quotation _ body)) ?_
    simp only [Term.nodes]
    omega
  | ann name body ih =>
    intro role base scope hscope hfits
    have hpos := body.nodes_pos
    simp only [Term.nodes] at hfits
    refine Draws.leave rfl (by omega) (ih.value hscope (by omega)) ?_
    simp only [Term.nodes]
    omega
  | lam binder body ih =>
    intro role base scope hscope hfits
    cases role with
    | value => exact Draws.fail
    | letBody n => exact Draws.fail
    | alternative n =>
      simp only [Term.nodes, Role.bound] at hfits
      have hbody := fun id => ih (.alternative (n + 1)) base (⟨id, base + n⟩ :: scope)
        hscope.cons (by simp only [Role.bound]; omega)
      have hentry : base + (n + 1) + body.arity = base + n + (body.arity + 1) := by omega
      simp only [Role.bound, Role.pending, hentry] at hbody
      refine (Draws.fresh.bind fun id _ => hbody id).weaken ?_ ?_
      · simp only [Term.nodes]
        omega
      · rintro v hv m ⟨⟩
        simp only [hv (n + 1) rfl, Term.arity]
        omega

end Terms

end Codegen

end TermVM
