/-
  TermVM.Proofs.Outline.Relocation

  The code of a term, wherever it is emitted.

  Code generation works at the end of a buffer: what stands there stays as it
  is, placeholders that are still to be patched included, and a block is added
  whose own placeholders have all been patched.  The block depends on the term
  and its surroundings alone.  The position it starts at shows in its targets
  only, which move along with it, and the identities that its binders take do
  not show at all: `compileTerm_frame`, and `compileExpr_frame` where binders
  are opened.

  Layouts of one outline from two positions differ by the relocation of their
  instructions, by induction on what is formed.  A buffer that has been
  finalized is no exception: no term has code without an instruction, so that
  nothing is emitted there.
-/
import TermVM.Proofs.Buffer
import TermVM.Proofs.Opening
import TermVM.Proofs.Outline.ControlFlow
import TermVM.Proofs.Outline.Forms
import TermVM.Proofs.Outline.Identities

namespace TermVM

open Codegen Verify

/-! ## Relocation -/

namespace Instr

/-- An instruction of code that has been moved: its targets move along, as 32-bit words. -/
def relocate (offset : Nat) (i : Instr) : Instr :=
  { i with targets := i.targets.map fun t => UInt32.ofNat (offset + t.toNat) }

theorem relocate_of_targets_eq_nil {i : Instr} (h : i.targets = []) (offset : Nat) :
    i.relocate offset = i := by
  cases i
  cases h
  rfl

/-- Where no target wraps around, the offset is added to every one of them. -/
theorem positions_relocate {i : Instr} {offset : Nat}
    (h : ∀ p ∈ i.positions, offset + p < 2 ^ 32) :
    (i.relocate offset).positions = i.positions.map (offset + ·) := by
  simp only [positions, relocate, List.map_map]
  refine List.map_congr_left fun t ht => ?_
  exact UInt32.toNat_ofNat_of_lt' (h t.toNat (List.mem_map_of_mem ht))

/-- Only jumps and branching dispatches have targets. -/
theorem Generated.targets_eq_nil {t : Term} {i : Instr} (h : i.Generated t)
    (hgoto : i.op ≠ .named .goto) (hop : dispatches i.op = false) : i.targets = [] := by
  cases h with
  | jump target => exact absurd rfl hgoto
  | dispatch head start hlen =>
    rcases head.instr_cases with hinstr | ⟨m, a, n, hm, hinstr⟩
    · rw [hinstr]
      rfl
    · have hdispatches : dispatches head.instr.op = true := by
        rcases Outline.op_instr head with ⟨hdestruct, -⟩ | hdispatches
        · rw [hinstr] at hdestruct
          cases hdestruct
          cases hm
        · exact hdispatches
      rw [show (Outline.filled head.instr _).op = head.instr.op from rfl, hdispatches] at hop
      cases hop
  | _ => rfl

theorem Generated.targets_of_sequential {t : Term} {i : Instr} (h : i.Generated t)
    (hop : sequential i.op = true) : i.targets = [] := by
  refine h.targets_eq_nil (fun hgoto => ?_) (Bool.eq_false_iff.mpr fun hdispatches => ?_)
  · rw [hgoto] at hop
    cases hop
  · unfold dispatches at hdispatches
    split at hdispatches
    case h_5 => cases hdispatches
    all_goals
      rename_i hnamed
      rw [hnamed] at hop
      cases hop

end Instr

namespace Outline

theorem relocate_ofNat (offset p : Nat) :
    UInt32.ofNat (offset + (UInt32.ofNat p).toNat) = UInt32.ofNat (offset + p) := by
  rw [UInt32.ofNat_add, UInt32.ofNat_toNat, UInt32.ofNat_add]

theorem jumpTo_add (offset join : Nat) :
    jumpTo (offset + join) = (jumpTo join).relocate offset := by
  simp only [jumpTo, Instr.relocate, List.map_cons, List.map_nil, relocate_ofNat]

theorem entries_add (offset start : Nat) (alts : List (Nat × Outline)) :
    entries (offset + start) alts = (entries start alts).map (offset + ·) := by
  induction alts generalizing start with
  | nil => rfl
  | cons a rest ih =>
    rw [entries_cons, entries_cons, List.map_cons, ← ih]
    simp only [Nat.add_assoc]

theorem fields_records (start start' : Nat) (alts : List (Nat × Outline)) :
    (records start alts).map (·.fields) = (records start' alts).map (·.fields) := by
  induction alts generalizing start start' with
  | nil => rfl
  | cons a rest ih =>
    simp only [records, List.map_cons]
    rw [ih]

/-- A dispatch that is filled in from another position. -/
theorem filled_add (head : CaseHead) (offset start : Nat) (alts : List (Nat × Outline)) :
    filled head.instr (records (offset + start) alts) =
      (filled head.instr (records start alts)).relocate offset := by
  have hfields := congrArg (List.map UInt32.ofNat) (fields_records (offset + start) start alts)
  have hentries := congrArg (List.map UInt32.ofNat) (entries_add offset start alts)
  simp only [entries, List.map_map] at hfields hentries
  have htargets := head.targets_instr
  unfold filled Instr.relocate
  cases hop : head.instr.op.branches with
  | false =>
    rw [hop] at htargets
    simp only [htargets, Bool.false_eq_true, if_false, List.map_nil]
    exact congrArg _ hfields
  | true =>
    simp only [if_true, List.map_map, Function.comp_def, relocate_ofNat] at hfields hentries ⊢
    rw [hfields, hentries]

theorem layoutAlternatives_add {t : Term} {offset join start : Nat} {alts : List (Nat × Outline)}
    (h : ∀ a ∈ alts, ∀ start, (∀ i ∈ a.2.layout start, i.Generated t) →
      a.2.layout (offset + start) = (a.2.layout start).map (Instr.relocate offset))
    (hforms : ∀ i ∈ layoutAlternatives join start alts, i.Generated t) :
    layoutAlternatives (offset + join) (offset + start) alts =
      (layoutAlternatives join start alts).map (Instr.relocate offset) := by
  induction alts generalizing start with
  | nil => rfl
  | cons a rest ih =>
    rw [List.forall_mem_cons] at h
    rw [layoutAlternatives, List.forall_mem_append, List.forall_mem_append] at hforms
    have hrest := ih h.2 hforms.2.2
    rw [Nat.add_assoc start, ← Nat.add_assoc offset] at hrest
    rw [layoutAlternatives, layoutAlternatives, List.map_append, List.map_append,
      List.map_replicate, h.1 start hforms.1, jumpTo_add, Nat.add_assoc (offset + start), hrest,
      Nat.add_assoc start]

/-- Laid out from another position, an outline has the same code with all targets moved. -/
theorem Formed.layout_add {o : Outline} (h : o.Formed) {t : Term} {start : Nat}
    (hforms : ∀ i ∈ o.layout start, i.Generated t) (offset : Nat) :
    o.layout (offset + start) = (o.layout start).map (Instr.relocate offset) := by
  induction h generalizing start with
  | nil => rfl
  | @op i hop =>
    have htargets := (hforms i (List.mem_singleton.mpr rfl)).targets_of_sequential hop
    rw [layout, layout, List.map_singleton, Instr.relocate_of_targets_eq_nil htargets]
  | @seq first second h₁ h₂ ih₁ ih₂ =>
    rw [layout, List.forall_mem_append] at hforms
    rw [layout, layout, List.map_append, ih₁ hforms.1, Nat.add_assoc, ih₂ hforms.2]
  | @dispatch head alts hlen hne hsize h ih =>
    rw [layout, List.forall_mem_cons] at hforms
    have halts := layoutAlternatives_add (fun a ha start hforms => ih a ha hforms) hforms.2
    rw [layout, layout, List.map_cons, Nat.add_assoc offset, filled_add, Nat.add_assoc offset,
      halts]

/-- The targets in the layout of an outline do not lie beyond its end. -/
theorem Formed.positions_le {o : Outline} (h : o.Formed) {t : Term}
    (hforms : ∀ i ∈ o.layout 0, i.Generated t) (hsize : o.size < 2 ^ 32) {i : Instr}
    (hi : i ∈ o.layout 0) {p : Nat} (hp : p ∈ i.positions) : p ≤ o.size := by
  -- the invariant of control flow holds in front of a return
  have hlen : (o.layout 0 ++ [Instr.ret]).length = o.size + 1 := by simp
  have horderly := h.orderly (embeds_self (o.layout 0) [.ret]) (by omega) (by omega)
  obtain ⟨pc, hpc⟩ := List.mem_iff_getElem?.mp hi
  have hlt : pc < (o.layout 0).length := (List.getElem?_eq_some_iff.mp hpc).1
  have hat : (o.layout 0 ++ [Instr.ret])[pc]? = some i := by
    rw [List.getElem?_append_left hlt, hpc]
  rw [length_layout] at hlt
  cases horderly pc i (Nat.zero_le pc) (by omega) hat with
  | straight hop =>
    have htargets : i.targets = [] := by
      rcases hop with hop | hop
      · exact (hforms i hi).targets_of_sequential hop
      · refine (hforms i hi).targets_eq_nil ?_ ?_ <;> rw [hop] <;> decide
    rw [Instr.positions, htargets] at hp
    cases hp
  | jump _ htarget =>
    obtain ⟨target, hpositions, -, hinside⟩ := htarget
    rw [hpositions, List.mem_singleton] at hp
    omega
  | fan _ hfans =>
    have hinside := hfans.inside p hp
    omega

end Outline

/-- A buffer that is not finalized is one that code generation works on, whatever was asked of it
    before. -/
theorem Buffer.Accounts.isOpen {calls : List Call} {b : Buffer} (h : Accounts calls b)
    (hb : b.finalized = false) : b.Open where
  unfinished := hb
  nodup := h.nodup_pending
  disjoint := h.apart
  pending_lt _ hs := h.pc_lt (.inl hs)
  patched_lt _ hs := h.pc_lt (.inr hs)
  fielded_lt _ hpc := h.fielded_lt hpc

/-! ## Free locals under instantiation -/

namespace Term

variable {subst : List Term}

theorem localsOfArgs_instantiateArgs {k : Nat} {as : List Term}
    (h : ∀ a ∈ as, (a.instantiateAt subst k).locals = a.locals) :
    localsOfArgs (instantiateArgs subst k as) = localsOfArgs as := by
  rw [localsOfArgs_eq_flatMap, localsOfArgs_eq_flatMap, instantiateArgs_eq_map, List.flatMap_map]
  exact List.flatMap_congr h

theorem localsOfBindings_instantiateBindings {k : Nat} {bs : List (String × Term)}
    (h : ∀ b ∈ bs, ∀ k, (b.2.instantiateAt subst k).locals = b.2.locals) :
    localsOfBindings (instantiateBindings subst k bs) = localsOfBindings bs := by
  induction bs generalizing k with
  | nil => rfl
  | cons b bs ih =>
    rw [List.forall_mem_cons] at h
    rw [instantiateBindings, localsOfBindings, localsOfBindings, h.1, ih h.2]

/-- Replacements without free locals bring none. -/
theorem locals_instantiateAt (h : ∀ u ∈ subst, u.locals = []) (k : Nat) (t : Term) :
    (t.instantiateAt subst k).locals = t.locals := by
  induction t using Term.ind generalizing k with
  | var i =>
    rcases instantiateAt_var_mem subst k i with hmem | ⟨j, hj⟩
    · exact h _ hmem
    · rw [hj]
      rfl
  | app fn args ihfn ihargs =>
    rw [instantiateAt, locals, locals, ihfn,
      localsOfArgs_instantiateArgs fun a ha => ihargs a ha k]
  | lam binder body ih => exact ih (k + 1)
  | pi binder domain body ihdomain ihbody =>
    rw [instantiateAt, locals, locals, ihdomain, ihbody]
  | letIn bindings body ihbindings ihbody =>
    rw [instantiateAt, locals, locals, localsOfBindings_instantiateBindings ihbindings, ihbody]
  | ann name body ih => exact ih k
  | foreign name args ih => exact localsOfArgs_instantiateArgs fun a ha => ih a ha k
  | _ => rfl

end Term

namespace Codegen

/-! ## Finalized buffers -/

/-- A piece of code generation comes to nothing on a finalized buffer. -/
def Refuses {α : Type} (m : Gen α) : Prop :=
  ∀ s r, s.buffer.finalized = true → m s ≠ .ok r

/-- A piece of code generation that comes to something leaves a finalized buffer finalized. -/
def Passes {α : Type} (m : Gen α) : Prop :=
  ∀ s a s', s.buffer.finalized = true → m s = .ok (a, s') → s'.buffer.finalized = true

section Refusal

variable {α β : Type} {m : Gen α} {f : α → Gen β}

theorem Refuses.throw (e : Failure) : Refuses (MonadExcept.throw e : Gen α) := by
  rintro s r - ⟨⟩

theorem Refuses.passes (h : Refuses m) : Passes m :=
  fun s a s' hs hrun => absurd hrun (h s (a, s') hs)

theorem Refuses.bind (h : Refuses m) : Refuses (m >>= f) := by
  intro s r hs hrun
  obtain ⟨a, s', hm, -⟩ := run_bind_eq_ok.mp hrun
  exact h s (a, s') hs hm

theorem Passes.pure (a : α) : Passes (Pure.pure a : Gen α) := by
  rintro s a' s' hs ⟨⟩
  exact hs

theorem Passes.fresh : Passes Codegen.fresh := by
  rintro s a s' hs ⟨⟩
  exact hs

theorem Passes.bind (h : Passes m) (hf : ∀ a, Passes (f a)) : Passes (m >>= f) := by
  intro s b s' hs hrun
  obtain ⟨a, s₁, hm, hrest⟩ := run_bind_eq_ok.mp hrun
  exact hf a s₁ b s' (h s a s₁ hs hm) hrest

theorem Passes.refuses (h : Passes m) (hf : ∀ a, Refuses (f a)) : Refuses (m >>= f) := by
  intro s r hs hrun
  obtain ⟨a, s₁, hm, hrest⟩ := run_bind_eq_ok.mp hrun
  exact hf a s₁ r (h s a s₁ hs hm) hrest

end Refusal

theorem refuses_emit (i : Instr) : Refuses (emit i) := by
  intro s r hs hrun
  have hrefused : s.buffer.emit i = .error .emitAfterFinalize := by rw [Buffer.emit, if_pos hs]
  have hfails : emit i s = .error (.misuse .emitAfterFinalize) := by
    show (onBuffer (·.emit i) >>= fun _ => Pure.pure s.buffer.next : Gen Nat) s = _
    exact run_bind_error (onBuffer_error hrefused)
  rw [hfails] at hrun
  cases hrun

theorem refuses_call (d : Decl) (arguments : Nat) : Refuses (emitCall d arguments) := by
  unfold emitCall
  split
  · exact (refuses_emit _).bind
  · exact (refuses_emit _).bind

theorem passes_resolve (g : Globals) (name : String) : Passes (g.resolve name) := by
  unfold Globals.resolve
  split
  · exact Passes.pure _
  · exact (Refuses.throw _).passes

theorem refuses_constant (g : Globals) (name : String) (marker : Marker) :
    Refuses (compileConstant g name marker) := by
  unfold compileConstant
  cases marker.kind with
  | neutral | unreachable | cnstr => exact (refuses_emit _).bind
  | plain =>
    by_cases hzero : name = Term.natZero
    · simp only [hzero, if_true]
      exact (refuses_emit _).bind
    · simp only [hzero, if_false]
      exact (passes_resolve g name).refuses fun d => refuses_call d 0
  | proj | cases => exact Refuses.throw _
  | other code reserved => exact Refuses.throw _

/-- No term has code on a finalized buffer. -/
def TermRefuses (g : Globals) (t : Term) : Prop :=
  ∀ role depth scope, Refuses (compileTerm g t role depth scope)

section Terms

variable {g : Globals}

theorem passes_args {args : List Term} (h : ∀ a ∈ args, TermRefuses g a) (depth : Nat)
    (scope : Scope) : Passes (compileArgs g args depth scope) := by
  cases args with
  | nil => exact Passes.pure ()
  | cons a as => exact (h a List.mem_cons_self .value depth scope).bind.passes

theorem passes_argsRev {args : List Term} (h : ∀ a ∈ args, TermRefuses g a) (depth : Nat)
    (scope : Scope) : Passes (compileArgsRev g args depth scope) := by
  induction args with
  | nil => exact Passes.pure ()
  | cons a as ih =>
    rw [List.forall_mem_cons] at h
    exact (ih h.2).bind fun _ => (h.1 .value _ scope).bind.passes

theorem passes_bindings {bindings : List (String × Term)} (h : ∀ b ∈ bindings, TermRefuses g b.2)
    (depth : Nat) (scope : Scope) : Passes (compileBindings g bindings depth scope) := by
  cases bindings with
  | nil => exact Passes.pure scope
  | cons b bs => exact (h b List.mem_cons_self .value depth scope).bind.passes

theorem refuses_projection {args : List Term} (h : ∀ a ∈ args, TermRefuses g a) (index : UInt32)
    (depth : Nat) (scope : Scope) : Refuses (compileProjection g index args depth scope) := by
  cases args with
  | nil => exact Refuses.throw _
  | cons subject extra =>
    rw [List.forall_mem_cons] at h
    exact (passes_argsRev h.2 depth scope).refuses fun _ => (h.1 .value _ scope).bind

theorem refuses_analysis {args : List Term} (h : ∀ a ∈ args, TermRefuses g a) (head : CaseHead)
    (depth : Nat) (scope : Scope) : Refuses (compileAnalysis g head args depth scope) := by
  unfold compileAnalysis
  split
  · exact Refuses.throw _
  · split
    · exact Refuses.throw _
    · cases args with
      | nil => exact Refuses.throw _
      | cons major alts => exact (h major List.mem_cons_self .value depth scope).bind

theorem refuses_app {fn : Term} {args : List Term} (hfn : TermRefuses g fn)
    (hargs : ∀ a ∈ args, TermRefuses g a) : TermRefuses g (.app fn args) := by
  intro role depth scope
  rw [compileTerm_app]
  refine Refuses.bind ?_
  cases g.head fn with
  | analysis head => exact refuses_analysis hargs head depth scope
  | cnstr index => exact (passes_args hargs depth scope).refuses fun _ => (refuses_emit _).bind
  | proj index => exact refuses_projection hargs index depth scope
  | neutral | unreachable => exact (refuses_emit _).bind
  | declared name =>
    exact (passes_resolve g name).refuses fun d =>
      (passes_argsRev hargs depth scope).refuses fun _ => refuses_call d args.length
  | unusable marker => exact Refuses.throw _
  | computed =>
    exact (passes_argsRev hargs depth scope).refuses fun _ => (hfn .value _ scope).bind

theorem refuses_term (t : Term) : TermRefuses g t := by
  induction t using Term.ind with
  | app fn args ihfn ihargs => exact refuses_app ihfn ihargs
  | absent | sort level | mvar name => exact fun role depth scope => Refuses.throw _
  | pi binder domain body => exact fun role depth scope => Refuses.throw _
  | foreign name args => exact fun role depth scope => Refuses.throw _
  | var i =>
    intro role depth scope
    simp only [compileTerm]
    cases scope[i.toNat]? with
    | none => exact Refuses.throw _
    | some b => exact (refuses_emit _).bind
  | fvar id name =>
    intro role depth scope
    simp only [compileTerm]
    cases scope.find? fun b => b.id == id.toNat with
    | none => exact Refuses.throw _
    | some b => exact (refuses_emit _).bind
  | const name marker => exact fun role depth scope => (refuses_constant g name marker).bind
  | nat value => exact fun role depth scope => (refuses_emit _).bind
  | quote body => exact fun role depth scope => (refuses_emit _).bind
  | ann name body ih => exact fun role depth scope => (ih .value depth scope).bind
  | lam binder body ih =>
    intro role depth scope
    cases role with
    | value => exact Refuses.throw _
    | letBody n => exact Refuses.throw _
    | alternative n => exact Passes.fresh.refuses fun id => ih _ _ _
  | letIn bindings body ihbindings ihbody =>
    intro role depth scope
    simp only [compileTerm]
    refine (passes_bindings ihbindings depth scope).refuses fun inner => ?_
    cases role with
    | letBody n => exact ihbody _ _ _
    | value => exact (ihbody _ _ _).bind
    | alternative n => exact (ihbody _ _ _).bind

/-! ## The frame -/

/-- Where code generation comes to something, it was planned. -/
theorem Emits.exists_plan {α : Type} {m : Gen α} {p : Plan α} (h : Emits m p) {b b' : Buffer}
    (hb : b.Open) {id id' : Nat} {a : α} (hrun : m ⟨b, id⟩ = .ok (a, ⟨b', id'⟩)) :
    ∃ o, p id = .ok ⟨a, o, id'⟩ ∧ b.Grows (o.layout b.next) [] b' := by
  have hrealizes := h b id hb
  rw [hrun] at hrealizes
  cases hp : p id with
  | error f =>
    rw [hp] at hrealizes
    obtain ⟨f', hf', -⟩ := hrealizes
    cases hf'
  | ok d =>
    rw [hp] at hrealizes
    obtain ⟨b₁, hok, hgrow⟩ := hrealizes
    cases hok
    exact ⟨d.outline, rfl, hgrow⟩

/-- What a term is planned to is formed, is not empty, and has the forms of its code. -/
theorem outline_of_planTerm {t : Term} (ht : t.nodes < 2 ^ 32) {role : Role} {depth : Nat}
    {scope : Scope} {id id' n : Nat} {o : Outline}
    (ho : planTerm g t role depth scope id = .ok ⟨n, o, id'⟩) :
    o.Formed ∧ 1 ≤ o.size ∧ ∀ i ∈ o.layout 0, i.Generated t := by
  have hpermitted : Permitted (fun _ => True) g t := ⟨ht, fun _ _ _ => trivial⟩
  have hshapes := shapes_term (fun _ _ => trivial) hpermitted role depth scope
  have hloads : t.LoadsFrom t := ⟨fun _ hv => hv, List.Subset.refl _⟩
  obtain ⟨hformed, hleast, -⟩ := hshapes.formed id _ ho
  exact ⟨hformed, hleast, generates_term t hloads role depth scope id _ ho 0⟩

/-- On a buffer with any history, code generation appends a block and leaves the rest as it is,
    placeholders included.  From an empty buffer and any other identities beyond those of the term
    the block is the same, but for its position, which is added to every target. -/
theorem compileTerm_frame {t : Term} (ht : t.nodes < 2 ^ 30) (role : Role) (depth : Nat)
    (scope : Scope) (calls : List Buffer.Call) {b b' : Buffer} {id id' n : Nat}
    (hb : (Buffer.Ledger.run calls).buffer = b) (hid : ∀ i ∈ t.locals, i.toNat ≤ id)
    (hrun : compileTerm g t.flatten role depth scope ⟨b, id⟩ = .ok (n, ⟨b', id'⟩)) :
    ∃ block : Code, block ≠ [] ∧
      b'.code.toList = b.code.toList ++ block.map (Instr.relocate b.next) ∧
      b'.pending = b.pending ∧
      (b'.next < 2 ^ 32 → ∀ i ∈ block,
        (i.relocate b.next).positions = i.positions.map (b.next + ·)) ∧
      ∀ c, (∀ i ∈ t.locals, i.toNat ≤ c) → ∃ e c',
        compileTerm g t.flatten role depth scope ⟨.empty, c⟩ = .ok (n, ⟨e, c'⟩) ∧
          e.code.toList = block ∧ e.pending = [] ∧ c' + id = id' + c := by
  have hfinalized : b.finalized = false :=
    Bool.eq_false_iff.mpr fun hfinalized =>
      refuses_term t.flatten role depth scope _ _ hfinalized hrun
  have hopen : b.Open := by
    subst hb
    exact (Buffer.Ledger.accounts_run calls).isOpen hfinalized
  have hemits := emits_term g t.flatten role depth scope
  obtain ⟨o, hplan, hgrow⟩ := hemits.exists_plan hopen hrun
  have hnodes := t.nodes_flatten_le
  obtain ⟨hformed, hleast, hforms⟩ := outline_of_planTerm (by omega) hplan
  have hmoved : o.layout b.next = (o.layout 0).map (Instr.relocate b.next) :=
    hformed.layout_add hforms b.next
  refine ⟨o.layout 0, ?_, ?_, ?_, fun hnext i hi => ?_, fun c hc => ?_⟩
  · rw [ne_eq, ← List.length_eq_zero_iff, Outline.length_layout]
    exact Nat.one_le_iff_ne_zero.mp hleast
  · rw [hgrow.code_eq, hmoved]
  · rw [hgrow.pending_eq, List.append_nil]
  · have hsize := hgrow.next_eq
    rw [Outline.length_layout] at hsize
    refine Instr.positions_relocate fun p hp => ?_
    have hp' : p ≤ o.size := hformed.positions_le hforms (by omega) hi hp
    omega
  · -- both counters are beyond the locals of the term, so the smaller one is
    have hlocals : ∀ i ∈ t.flatten.locals, i.toNat ≤ min id c := by
      rw [Term.locals_flatten]
      exact fun i hi => Nat.le_min.mpr ⟨hid i hi, hc i hi⟩
    obtain ⟨d, hd, hvalue, houtline, -, hsum⟩ :=
      replays_term hlocals role depth scope scope (.refl _ scope) id c _ (Nat.min_le_left ..)
        (Nat.min_le_right ..) hplan
    have hrealizes := hemits .empty c Buffer.open_empty
    rw [hd] at hrealizes
    obtain ⟨e, hok, hfresh⟩ := hrealizes
    dsimp only at hvalue houtline
    rw [← hvalue] at hok
    rw [houtline] at hfresh
    exact ⟨e, d.lastId, hok, hfresh.code_eq, hfresh.pending_eq, hsum⟩

end Terms

/-! ## Opened binders -/

namespace Opening

variable {g : Globals} {e : Term}

/-- On a buffer with any history, the expression compiler appends a block and leaves the rest as it
    is, placeholders included.  From an empty buffer and any other identities beyond those of the
    expression the block is the same, but for its position, which is added to every target.
    Identities are 64-bit words and must not run out. -/
theorem compileExpr_frame (he : e.nodes < 2 ^ 30) (depth : Nat) (scope : Scope)
    (calls : List Buffer.Call) {b b' : Buffer} {id id' : Nat}
    (hb : (Buffer.Ledger.run calls).buffer = b) (hid : ∀ i ∈ e.locals, i.toNat ≤ id)
    (hroom : id + e.nodes ≤ 2 ^ 64)
    (hrun : compileExpr g e depth scope ⟨b, id⟩ = .ok ((), ⟨b', id'⟩)) :
    ∃ block : Code, block ≠ [] ∧
      b'.code.toList = b.code.toList ++ block.map (Instr.relocate b.next) ∧
      b'.pending = b.pending ∧
      (b'.next < 2 ^ 32 → ∀ i ∈ block,
        (i.relocate b.next).positions = i.positions.map (b.next + ·)) ∧
      ∀ c, (∀ i ∈ e.locals, i.toNat ≤ c) → c + e.nodes ≤ 2 ^ 64 → ∃ fresh c',
        compileExpr g e depth scope ⟨.empty, c⟩ = .ok ((), ⟨fresh, c'⟩) ∧
          fresh.code.toList = block ∧ fresh.pending = [] ∧ c' + id = id' + c := by
  obtain ⟨guards, habsent, hall⟩ := exists_guards
  have hnodes : (e.instantiateAt guards 0).nodes = e.nodes :=
    Term.nodes_instantiateAt (fun u hu => by rw [habsent u hu]; rfl) 0 e
  have hlocals : (e.instantiateAt guards 0).locals = e.locals :=
    Term.locals_instantiateAt (fun u hu => by rw [habsent u hu]; rfl) 0 e
  obtain ⟨n, hcounted⟩ := (compileExpr_eq_ok_iff habsent hall hroom).mp hrun
  obtain ⟨block, hne, hcode, hpending, htargets, hblock⟩ :=
    compileTerm_frame (by rwa [hnodes]) .value depth scope calls hb (by rwa [hlocals]) hcounted
  refine ⟨block, hne, hcode, hpending, htargets, fun c hc hcroom => ?_⟩
  obtain ⟨fresh, c', hok, hfresh⟩ := hblock c (by rwa [hlocals])
  exact ⟨fresh, c', (compileExpr_eq_ok_iff habsent hall hcroom).mpr ⟨n, hok⟩, hfresh⟩

end Opening

/-- Calls that leave the target of a jump and one of two targets of a dispatch to be patched. -/
def danglingCalls : List Buffer.Call :=
  [.emit .goto, .emit (.dispatch .cases2 0 2), .patch 1 0 2]

/-- A match inside a match, with a local of the scope that is used below two binders. -/
def nestedMatch : Term :=
  .app (.app (.const "cases" ⟨.cases, 2⟩) [.fvar 5 "x"])
    [.app (.const Term.natCasesOn .none)
      [.fvar 7 "n", .nat 1, .lam "k" (.letIn [("y", .var 0)] (.fvar 5 "x"))],
     .quote (.fvar 9 "q")]

theorem compileExpr_frame_nestedMatch :
    ∃ b' id', Opening.compileExpr ⟨.empty, none⟩ nestedMatch 2 [⟨7, 1⟩, ⟨5, 0⟩]
        ⟨(Buffer.Ledger.run danglingCalls).buffer, 7⟩ = .ok ((), ⟨b', id'⟩) ∧
      b'.code.toList.map Instr.positions
        = [[0], [2, 0], [], [4, 13], [], [6, 8], [], [12], [], [], [], [], [14], []] ∧
      b'.pending = [⟨0, 0⟩, ⟨1, 1⟩] ∧
      ∃ block : Code, block ≠ [] ∧
        b'.code.toList = (Buffer.Ledger.run danglingCalls).buffer.code.toList
          ++ block.map (Instr.relocate 2) ∧
        ∀ c ≥ 7, c < 2 ^ 63 → ∃ fresh c', Opening.compileExpr ⟨.empty, none⟩ nestedMatch 2
          [⟨7, 1⟩, ⟨5, 0⟩] ⟨.empty, c⟩ = .ok ((), ⟨fresh, c'⟩) ∧ fresh.code.toList = block := by
  have hpositions : (fun r => r.2.buffer.code.toList.map Instr.positions) <$>
      compileTerm ⟨.empty, none⟩ nestedMatch.flatten .value 2 [⟨7, 1⟩, ⟨5, 0⟩]
        ⟨(Buffer.Ledger.run danglingCalls).buffer, 7⟩
      = .ok [[0], [2, 0], [], [4, 13], [], [6, 8], [], [12], [], [], [], [], [14], []] := by
    decide +kernel
  have hlocals : ∀ c ≥ 7, ∀ i ∈ nestedMatch.locals, i.toNat ≤ c := by
    intro c hc
    rw [show nestedMatch.locals = [5, 7, 5] from rfl]
    simp only [List.forall_mem_cons]
    refine ⟨?_, ?_, ?_, fun i hi => absurd hi List.not_mem_nil⟩
    all_goals exact Nat.le_trans (by decide) hc
  have hnodes : nestedMatch.nodes = 14 := by rfl
  cases hrun : compileTerm ⟨.empty, none⟩ nestedMatch.flatten .value 2 [⟨7, 1⟩, ⟨5, 0⟩]
      ⟨(Buffer.Ledger.run danglingCalls).buffer, 7⟩ with
  | error f =>
    rw [hrun] at hpositions
    cases hpositions
  | ok r =>
    obtain ⟨n, b', id'⟩ := r
    rw [hrun] at hpositions
    have hopened := (Opening.compileExpr_eq_ok_iff_of_closed (e := nestedMatch) (by decide)
      (by rw [hnodes]; decide)).mpr ⟨n, hrun⟩
    obtain ⟨block, hne, hcode, hpending, -, hblock⟩ :=
      Opening.compileExpr_frame (by rw [hnodes]; decide) 2 [⟨7, 1⟩, ⟨5, 0⟩] danglingCalls rfl
        (hlocals 7 (Nat.le_refl 7)) (by rw [hnodes]; decide) hopened
    refine ⟨b', id', hopened, Except.ok.inj hpositions, hpending.trans (by decide +kernel), block,
      hne, hcode, fun c hc hlt => ?_⟩
    obtain ⟨fresh, c', hok, hfresh, -⟩ := hblock c (hlocals c hc) (by rw [hnodes]; omega)
    exact ⟨fresh, c', hok, hfresh⟩

end Codegen

end TermVM
