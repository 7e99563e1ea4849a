/-
  TermVM.Proofs.Opening

  Opening binders and counting them give the same code.

  `Opening.compileExpr` puts locals in the place of variables and finds them by
  identity; `compileTerm` leaves the variables and finds them by position.  The
  two run side by side: they take the same identities, so they have the same
  scope, and in it the identity of an opened binder leads to its position.

  A variable beyond the opened binders is loose for the one compiler, and for
  the other a position in what is left of the scope.  So either the opened
  binders are the whole scope (`compileProcedure_eq`), or such variables are
  made absent first, and failures are not told apart (`compileExpr_eq_ok_iff`).
-/
import Mathlib.Algebra.Group.Nat.Defs
import TermVM.Codegen.Opening
import TermVM.Proofs.Outline.Emission
import TermVM.Proofs.Term.Instantiation

namespace TermVM.Codegen.Opening

/-! ## Runs side by side -/

/-- Two runs from a state with the identity `id` fail with the same `f`, or come to related values
    and to one state, and take at most `n` identities. -/
inductive Agree {α β ε : Type} (f : Failure → ε) (R : α → β → Prop) (id n : Nat) :
    Except Failure (α × State) → Except Failure (β × State) → Prop
  | failed {e e' : Failure} (h : f e = f e') : Agree f R id n (.error e) (.error e')
  | done {a : α} {b : β} {s : State} (h : R a b) (hle : id ≤ s.lastId)
      (hroom : s.lastId ≤ id + n) : Agree f R id n (.ok (a, s)) (.ok (b, s))

/-- Two ways of generating code agree, wherever the identities are beyond `low` and there are `n`
    more of them. -/
def Matches {α β ε : Type} (f : Failure → ε) (low n : Nat) (R : α → β → Prop) (x : Gen α)
    (y : Gen β) : Prop :=
  ∀ s : State, low ≤ s.lastId → s.lastId + n < 2 ^ 64 → Agree f R s.lastId n (x s) (y s)

/-- Code generation that takes no identity. -/
def Steady {α : Type} (x : Gen α) : Prop :=
  ∀ s a s', x s = .ok (a, s') → s'.lastId = s.lastId

namespace Steady

variable {α β : Type} {x : Gen α} {k : α → Gen β}

theorem pure (a : α) : Steady (Pure.pure a : Gen α) := by
  rintro s a' s' ⟨⟩
  rfl

theorem throw (e : Failure) : Steady (MonadExcept.throw e : Gen α) := by
  rintro s a s' ⟨⟩

theorem bind (hx : Steady x) (hk : ∀ a, Steady (k a)) : Steady (x >>= k) := by
  intro s b s' hrun
  obtain ⟨a, s₁, hfirst, hrest⟩ := run_bind_eq_ok.mp hrun
  rw [hk a s₁ b s' hrest, hx s a s₁ hfirst]

theorem onBuffer (h : Buffer → Except Buffer.Misuse Buffer) : Steady (Codegen.onBuffer h) := by
  intro s a s' hrun
  cases hb : h s.buffer with
  | error m =>
    rw [onBuffer_error hb] at hrun
    cases hrun
  | ok b =>
    rw [onBuffer_ok hb] at hrun
    cases hrun
    rfl

theorem nextPc : Steady Codegen.nextPc := by
  rintro s a s' ⟨⟩
  rfl

theorem emit (i : Instr) : Steady (Codegen.emit i) :=
  nextPc.bind fun _ => (onBuffer _).bind fun _ => pure _

theorem emitApplies (n : Nat) : Steady (Codegen.emitApplies n) := by
  induction n with
  | zero => exact pure ()
  | succ n ih => exact (emit _).bind fun _ => ih

theorem emitCall (d : Decl) (arguments : Nat) : Steady (Codegen.emitCall d arguments) := by
  unfold Codegen.emitCall
  split
  · exact (emit _).bind fun _ => pure ()
  · exact (emit _).bind fun _ => emitApplies _

theorem resolve (g : Globals) (name : String) : Steady (g.resolve name) := by
  unfold Globals.resolve
  split
  · exact pure _
  · exact throw _

theorem compileConstant (g : Globals) (name : String) (marker : Marker) :
    Steady (Codegen.compileConstant g name marker) := by
  unfold Codegen.compileConstant
  cases marker.kind with
  | neutral | unreachable | cnstr => exact (emit _).bind fun _ => pure ()
  | plain =>
    by_cases hzero : name = Term.natZero
    · simp only [hzero, if_true]
      exact (emit _).bind fun _ => pure ()
    · simp only [hzero, if_false]
      exact (resolve g name).bind fun d => emitCall d 0
  | proj | cases => exact throw _
  | other code reserved => exact throw _

theorem patchTargets (pc index : Nat) (targets : List Nat) :
    Steady (Codegen.patchTargets pc index targets) := by
  induction targets generalizing index with
  | nil => exact pure ()
  | cons target targets ih => exact (onBuffer _).bind fun _ => ih (index + 1)

theorem patchJumps (target : Nat) (pcs : List Nat) : Steady (Codegen.patchJumps target pcs) := by
  induction pcs with
  | nil => exact pure ()
  | cons pc pcs ih => exact (onBuffer _).bind fun _ => ih

theorem completeDispatch (pc : Nat) (i : Instr) (alts : List Alternative) :
    Steady (Codegen.completeDispatch pc i alts) := by
  unfold Codegen.completeDispatch
  refine (onBuffer _).bind fun _ => ?_
  split
  · exact (patchTargets pc 0 _).bind fun _ => nextPc.bind fun _ => patchJumps _ _
  · exact nextPc.bind fun _ => patchJumps _ _

theorem dropValues (n : Nat) : Steady (Opening.dropValues n) := by
  unfold Opening.dropValues
  split
  · exact (emit _).bind fun _ => pure ()
  · exact pure ()

theorem map (hx : Steady x) (h : α → β) : Steady (h <$> x) := by
  rw [map_eq_pure_bind]
  exact hx.bind fun a => pure (h a)

end Steady

theorem leave_alternative (n : Nat) :
    (Role.alternative n).leave = dropValues n >>= fun _ => pure n := by
  by_cases h : 0 < n <;> simp [Role.leave, dropValues, h]

theorem leave_letBody (n : Nat) :
    (Role.letBody n).leave = dropValues n >>= fun _ => pure n :=
  leave_alternative n

theorem Agree.mono {α β ε : Type} {f : Failure → ε} {R S : α → β → Prop} {id id' n n' : Nat}
    {x : Except Failure (α × State)} {y : Except Failure (β × State)} (h : Agree f R id n x y)
    (hR : ∀ a b, R a b → S a b) (hid : id' ≤ id) (hn : id + n ≤ id' + n') :
    Agree f S id' n' x y := by
  cases h with
  | failed h => exact .failed h
  | done h hle hroom => exact .done (hR _ _ h) (by omega) (by omega)

namespace Matches

variable {α β γ δ ε : Type} {f : Failure → ε} {low n m : Nat} {R : α → β → Prop}
  {S : γ → δ → Prop} {x : Gen α} {y : Gen β} {k : α → Gen γ} {k' : β → Gen δ}

theorem weaken (h : Matches f low n R x y) {n' : Nat} (hn : n ≤ n') : Matches f low n' R x y :=
  fun s hs hroom => (h s hs (by omega)).mono (fun _ _ => id) (Nat.le_refl _) (by omega)

theorem pure {a : α} {b : β} (h : R a b) : Matches f low 0 R (Pure.pure a) (Pure.pure b) :=
  fun s _ _ => .done h (Nat.le_refl s.lastId) (Nat.le_refl _)

theorem throw {e e' : Failure} (h : f e = f e') :
    Matches f low n R (MonadExcept.throw e : Gen α) (MonadExcept.throw e' : Gen β) :=
  fun _ _ _ => .failed h

theorem of_steady {R : α → α → Prop} (h : Steady x) (hR : ∀ a, R a a) :
    Matches f low 0 R x x := by
  intro s _ _
  cases hrun : x s with
  | error e => exact .failed rfl
  | ok r =>
    obtain ⟨a, s'⟩ := r
    have hsame := h s a s' hrun
    exact .done (hR a) (Nat.le_of_eq hsame.symm) (Nat.le_of_eq hsame)

theorem bind (h : Matches f low n R x y) (hk : ∀ a b, R a b → Matches f low m S (k a) (k' b)) :
    Matches f low (n + m) S (x >>= k) (y >>= k') := by
  intro s hs hroom
  have hfirst := h s hs (by omega)
  generalize hx : x s = r at hfirst
  generalize hy : y s = r' at hfirst
  cases hfirst with
  | failed he =>
    rw [run_bind_error hx, run_bind_error hy]
    exact .failed he
  | @done a b s₁ hab hle hroom₁ =>
    rw [run_bind_ok hx, run_bind_ok hy]
    exact (hk a b hab s₁ (by omega) (by omega)).mono (fun _ _ => id) hle (by omega)

/-- Neither way does anything with the values. -/
theorem andThen {k : Gen γ} {k' : Gen δ} (h : Matches f low n R x y)
    (hk : Matches f low m S k k') :
    Matches f low (n + m) S (x >>= fun _ => k) (y >>= fun _ => k') :=
  h.bind fun _ _ _ => hk

/-- The value of the second way is not looked at. -/
theorem ignore (h : Matches f low n R x y) (b : δ) :
    Matches f low n (fun _ _ => True) x (y >>= fun _ => Pure.pure b) := by
  have hpure : x = x >>= Pure.pure := (bind_pure x).symm
  rw [hpure]
  exact h.bind fun _ _ _ => Matches.pure trivial

/-- Both ways open a binder: one keeps the local, the other its identity. -/
theorem fresh {k : Local → Gen γ} {k' : Nat → Gen δ} (name : String)
    (hk : ∀ l : Local, low < l.id.toNat → Matches f l.id.toNat m S (k l) (k' l.id.toNat)) :
    Matches f low (m + 1) S (freshLocal name >>= k) (Codegen.fresh >>= k') := by
  intro s hs hroom
  have hid : (UInt64.ofNat (s.lastId + 1)).toNat = s.lastId + 1 :=
    UInt64.toNat_ofNat_of_lt' (Nat.lt_of_le_of_lt (by omega) hroom)
  have hlow : low < (UInt64.ofNat (s.lastId + 1)).toNat := by omega
  have hrest := hk ⟨UInt64.ofNat (s.lastId + 1), name⟩ hlow ⟨s.buffer, s.lastId + 1⟩
    (Nat.le_of_eq hid) (by dsimp only; omega)
  dsimp only at hrest
  rw [hid] at hrest
  exact hrest.mono (fun _ _ => id) (Nat.le_succ _) (by omega)

end Matches

/-! ## Opened binders -/

theorem closed_locals (locals : List Local) :
    ∀ u ∈ (locals.map Local.term).reverse, u.hasLooseVars = false := by
  intro u hu
  obtain ⟨l, -, rfl⟩ := List.mem_map.mp (List.mem_reverse.mp hu)
  rfl

/-- Opening further binders of a term in which outer ones have been opened opens all of them. -/
theorem instantiate_append (t : Term) (locals new : List Local) :
    instantiate (t.instantiateAt (locals.map Local.term).reverse new.length) new
      = instantiate t (locals ++ new) := by
  have hunder := @Term.instantiateAt_under (new.map Local.term).reverse _ (closed_locals locals) 0 t
  rw [List.length_reverse, List.length_map, Nat.zero_add, ← List.reverse_append,
    ← List.map_append] at hunder
  exact hunder

/-- Binders that have been opened, innermost first, each with its local and the slot of its
    value. -/
abbrev Frame := List (Local × Nat)

namespace Frame

/-- The scope that opened binders make. -/
def scope (F : Frame) : Scope :=
  F.map fun b => ⟨b.1.id.toNat, b.2⟩

/-- The locals of opened binders, outermost first. -/
def locals (F : Frame) : List Local :=
  (F.map (·.1)).reverse

/-- The terms that take the place of the variables of opened binders. -/
def terms (F : Frame) : List Term :=
  F.map (·.1.term)

/-- The identities of opened binders are distinct and not beyond `low`. -/
structure Fresh (F : Frame) (low : Nat) : Prop where
  distinct : (F.map (·.1.id)).Nodup
  le_low : ∀ b ∈ F, b.1.id.toNat ≤ low

theorem fresh_nil (low : Nat) : Fresh [] low :=
  ⟨List.nodup_nil, fun _ h => absurd h List.not_mem_nil⟩

theorem Fresh.cons {F : Frame} {low : Nat} (h : F.Fresh low) {l : Local} (hl : low < l.id.toNat)
    (slot : Nat) : Fresh ((l, slot) :: F) l.id.toNat := by
  refine ⟨List.nodup_cons.mpr ⟨fun hmem => ?_, h.distinct⟩, List.forall_mem_cons.mpr
    ⟨Nat.le_refl _, fun b hb => Nat.le_trans (h.le_low b hb) (Nat.le_of_lt hl)⟩⟩
  obtain ⟨b, hb, hid⟩ := List.mem_map.mp hmem
  have hle := h.le_low b hb
  rw [show b.1.id = l.id from hid] at hle
  omega

/-- The identity of an opened binder leads to its position. -/
theorem Fresh.find? {F : Frame} {low : Nat} (h : F.Fresh low) (outer : Scope) {k : Nat}
    {b : Local × Nat} (hb : F[k]? = some b) :
    (F.scope ++ outer).find? (fun c => c.id == b.1.id.toNat) = some ⟨b.1.id.toNat, b.2⟩ := by
  have hdistinct := h.distinct
  clear h
  induction F generalizing k with
  | nil => cases hb
  | cons c F ih =>
    rw [List.map_cons, List.nodup_cons] at hdistinct
    rw [scope, List.map_cons, List.cons_append, List.find?_cons]
    cases k with
    | zero =>
      cases hb
      simp
    | succ k =>
      have hmem := List.mem_of_getElem? (List.getElem?_cons_succ.symm.trans hb)
      have hne : (c.1.id.toNat == b.1.id.toNat) = false := by
        refine beq_eq_false_iff_ne.mpr fun heq => hdistinct.1 ?_
        rw [UInt64.toNat_inj.mp heq]
        exact List.mem_map_of_mem hmem
      simp only [hne]
      exact ih (List.getElem?_cons_succ.symm.trans hb) hdistinct.2

theorem terms_shape {F : Frame} : ∀ u ∈ F.terms, ∃ l : Local, u = l.term := by
  intro u hu
  obtain ⟨b, -, rfl⟩ := List.mem_map.mp hu
  exact ⟨b.1, rfl⟩

@[simp] theorem length_terms (F : Frame) : F.terms.length = F.length :=
  List.length_map _

@[simp] theorem length_locals (F : Frame) : F.locals.length = F.length := by
  simp [locals]

@[simp] theorem length_scope (F : Frame) : F.scope.length = F.length :=
  List.length_map _

theorem locals_cons (l : Local) (slot : Nat) (F : Frame) :
    locals ((l, slot) :: F) = F.locals ++ [l] := by
  simp [locals]

/-- The terms of opened binders are their locals. -/
theorem instantiateAt_terms (F : Frame) (t : Term) (k : Nat) :
    t.instantiateAt F.terms k = t.instantiateAt (F.locals.map Local.term).reverse k := by
  rw [terms, locals, List.map_reverse, List.reverse_reverse, List.map_map]
  rfl

theorem instantiate_locals (new F : Frame) (t : Term) :
    instantiate (t.instantiateAt F.terms new.length) new.locals
      = t.instantiateAt (new ++ F).terms 0 := by
  rw [instantiateAt_terms, instantiateAt_terms, ← length_locals new, instantiate_append, locals,
    locals, locals, ← List.reverse_append, ← List.map_append]
  rfl

end Frame

/-! ## Terms in the place of loose variables -/

/-- What is done about variables beyond the opened binders: there is no scope beyond the opened
    binders, or absent terms take the place of all of them and failures are not told apart. -/
inductive Guarded {ε : Type} (f : Failure → ε) : (guards : List Term) → (outer : Scope) → Prop
  | closed : Guarded f [] []
  | absent {guards : List Term} (habsent : ∀ u ∈ guards, u = .absent)
      (hall : 2 ^ 32 ≤ guards.length) (hblind : ∀ e e', f e = f e') (outer : Scope) :
      Guarded f guards outer

theorem Guarded.eq_absent {ε : Type} {f : Failure → ε} {guards : List Term} {outer : Scope}
    (h : Guarded f guards outer) : ∀ u ∈ guards, u = .absent := by
  cases h with
  | closed => exact fun u hu => absurd hu List.not_mem_nil
  | absent habsent => exact habsent

/-- A term for the compiler that counts binders. -/
def counted (guards : List Term) (k : Nat) (t : Term) : Term :=
  (t.instantiateAt guards k).flatten

theorem counted_letIn (guards : List Term) (k : Nat) (bs : List (String × Term)) (body : Term) :
    counted guards k (.letIn bs body) =
      .letIn (Term.flattenBindings false (Term.instantiateBindings guards k bs))
        (body.instantiateAt guards (k + bs.length)).flatten :=
  rfl

theorem length_countedBindings (guards : List Term) (k : Nat) (bs : List (String × Term)) :
    (Term.flattenBindings false (Term.instantiateBindings guards k bs)).length = bs.length := by
  rw [Term.flattenBindings_eq_map, List.length_map, Term.length_instantiateBindings]

theorem counted_app {guards : List Term} (h : ∀ u ∈ guards, u.isApp = false) (k : Nat) (fn : Term)
    (args : List Term) :
    counted guards k (.app fn args) =
      .app (counted guards k (Term.app fn args).spine.1)
        ((Term.app fn args).spine.2.map (counted guards k)) := by
  have hspine := Term.spine_instantiateAt (k := k) h (.app fn args)
  rw [Term.instantiateAt] at hspine
  rw [counted, Term.instantiateAt, Term.flatten_app, hspine, List.map_map]
  rfl

/-- What a term heads does not depend on its variables. -/
theorem head_instantiateAt (g : Globals) {subst : List Term}
    (h : ∀ u ∈ subst, g.head u = .computed) (k : Nat) (t : Term) :
    g.head (t.instantiateAt subst k) = g.head t := by
  cases t with
  | var i =>
    rcases Term.instantiateAt_var_mem subst k i with hmem | ⟨j, hj⟩
    · exact h _ hmem
    · rw [hj]
      rfl
  | _ => rfl

theorem head_flatten (g : Globals) (t : Term) : g.head t.flatten = g.head t := by
  cases t with
  | app fn args =>
    rw [Term.flatten_app]
    rfl
  | _ => rfl

section Terms

variable {ε : Type} {f : Failure → ε} {g : Globals} {guards : List Term} {outer : Scope}

/-- With its binders opened a term has the code that it has by their number. -/
def TermMatches (f : Failure → ε) (g : Globals) (guards : List Term) (outer : Scope) (t : Term) :
    Prop :=
  ∀ (F : Frame) (low : Nat), F.Fresh low → ∀ depth,
    Matches f low (t.nodes - 1) (fun _ _ => True)
      (compileExpr g (t.instantiateAt F.terms 0) depth (F.scope ++ outer))
      (compileTerm g (counted guards F.length t) .value depth (F.scope ++ outer))

variable {F : Frame} {low : Nat} (hF : F.Fresh low)

include hF

theorem matches_args {as : List Term} (h : ∀ a ∈ as, TermMatches f g guards outer a)
    (depth : Nat) : Matches f low (Term.nodesOfArgs as) (fun _ _ => True)
      (compileArgs g (as.map (Term.instantiateAt F.terms 0)) depth (F.scope ++ outer))
      (Codegen.compileArgs g (as.map (counted guards F.length)) depth (F.scope ++ outer)) := by
  induction as generalizing depth with
  | nil =>
    rw [List.map_nil, List.map_nil, compileArgs, Codegen.compileArgs]
    exact .pure trivial
  | cons a as ih =>
    rw [List.forall_mem_cons] at h
    rw [List.map_cons, List.map_cons, compileArgs, Codegen.compileArgs, Term.nodesOfArgs]
    exact ((h.1 F low hF depth).andThen (ih h.2 (depth + 1))).weaken (by omega)

theorem matches_argsRev {as : List Term} (h : ∀ a ∈ as, TermMatches f g guards outer a)
    (depth : Nat) : Matches f low (Term.nodesOfArgs as) (fun _ _ => True)
      (compileArgsRev g (as.map (Term.instantiateAt F.terms 0)) depth (F.scope ++ outer))
      (Codegen.compileArgsRev g (as.map (counted guards F.length)) depth (F.scope ++ outer)) := by
  induction as generalizing depth with
  | nil =>
    rw [List.map_nil, List.map_nil, compileArgsRev, Codegen.compileArgsRev]
    exact .pure trivial
  | cons a as ih =>
    rw [List.forall_mem_cons] at h
    rw [List.map_cons, List.map_cons, compileArgsRev, Codegen.compileArgsRev, List.length_map,
      List.length_map, Term.nodesOfArgs]
    exact ((ih h.2 depth).andThen ((h.1 F low hF (depth + as.length)).ignore ())).weaken
      (by omega)

theorem matches_projection {as : List Term} (h : ∀ a ∈ as, TermMatches f g guards outer a)
    (index : UInt32) (depth : Nat) : Matches f low (Term.nodesOfArgs as) (fun _ _ => True)
      (compileProjection g index (as.map (Term.instantiateAt F.terms 0)) depth (F.scope ++ outer))
      (Codegen.compileProjection g index (as.map (counted guards F.length)) depth
        (F.scope ++ outer)) := by
  cases as with
  | nil =>
    rw [List.map_nil, List.map_nil, compileProjection, Codegen.compileProjection]
    exact .throw rfl
  | cons subject extra =>
    rw [List.forall_mem_cons] at h
    rw [List.map_cons, List.map_cons, compileProjection, Codegen.compileProjection,
      List.length_map, List.length_map, Term.nodesOfArgs]
    exact ((matches_argsRev hF h.2 depth).andThen
      ((h.1 F low hF (depth + extra.length)).andThen
        ((Matches.of_steady (.emit _) fun _ => rfl).andThen
          (Matches.of_steady (.emitApplies _) fun _ => trivial)))).weaken (by omega)

omit hF in
/-- The values of a let are bound to the same slots, and what follows goes on in the frame that
    has all of them. -/
theorem matches_bindings {α β : Type} {R : α → β → Prop} {bs : List (String × Term)}
    (h : ∀ b ∈ bs, TermMatches f g guards outer b.2) (new : Frame)
    (hnew : Frame.Fresh (new ++ F) low) (depth : Nat) {k : List Local × Scope → Gen α}
    {k' : Scope → Gen β} {m : Nat}
    (hk : ∀ (new' : Frame) (low' : Nat), new'.length = new.length + bs.length →
      Frame.Fresh (new' ++ F) low' → Matches f low' m R
        (k (new'.locals, Frame.scope (new' ++ F) ++ outer))
        (k' (Frame.scope (new' ++ F) ++ outer))) :
    Matches f low (Term.nodesOfBindings bs + m) R
      (compileBindings g (Term.instantiateBindings F.terms new.length bs) new.locals depth
        (Frame.scope (new ++ F) ++ outer) >>= k)
      (Codegen.compileBindings g (Term.flattenBindings false
        (Term.instantiateBindings guards (new ++ F).length bs)) depth
        (Frame.scope (new ++ F) ++ outer) >>= k') := by
  induction bs generalizing new low depth with
  | nil =>
    rw [Term.instantiateBindings, Term.instantiateBindings, Term.flattenBindings, compileBindings,
      Codegen.compileBindings, pure_bind, pure_bind, Term.nodesOfBindings, Nat.zero_add]
    exact hk new low rfl hnew
  | cons b bs ih =>
    obtain ⟨name, v⟩ := b
    rw [List.forall_mem_cons] at h
    have hpos := v.nodes_pos
    rw [Term.instantiateBindings, Term.instantiateBindings, Term.flattenBindings, compileBindings,
      Codegen.compileBindings, bind_assoc, bind_assoc, Frame.instantiate_locals,
      Term.nodesOfBindings]
    simp only [bind_assoc]
    refine Matches.weaken (n := v.nodes - 1 + (Term.nodesOfBindings bs + m + 1))
      ((h.1 (new ++ F) low hnew depth).andThen (.fresh name fun l hl => ?_)) (by omega)
    rw [← Frame.locals_cons l depth new]
    -- the local is the innermost of the new ones, and later values see it
    refine ih h.2 ((l, depth) :: new) (hnew.cons hl depth) (depth + 1) fun new' low' hlen => ?_
    refine hk new' low' ?_
    rw [hlen, List.length_cons, List.length_cons]
    omega

/-- A let as a part of a chain, with what follows it. -/
def ChainMatches (f : Failure → ε) (g : Globals) (guards : List Term) (outer : Scope) (t : Term) :
    Prop :=
  ∀ (F : Frame) (low : Nat), F.Fresh low → ∀ count depth,
    Matches f low (t.nodes - 1) (fun _ _ => True)
      (continueLet g (t.instantiateAt F.terms 0) count depth (F.scope ++ outer))
      (compileTerm g (counted guards F.length t) (.letBody count) depth (F.scope ++ outer))

theorem matches_let {bs : List (String × Term)} {body : Term}
    (h : ∀ u : Term, u.nodes < (Term.letIn bs body).nodes →
      TermMatches f g guards outer u ∧ ChainMatches f g guards outer u) (count depth : Nat) :
    Matches f low ((Term.letIn bs body).nodes - 1) (fun _ _ => True)
      (compileLet g (Term.instantiateBindings F.terms 0 bs)
        (body.instantiateAt F.terms bs.length) count depth (F.scope ++ outer))
      (Codegen.compileBindings g (Term.flattenBindings false
          (Term.instantiateBindings guards F.length bs)) depth (F.scope ++ outer) >>= fun inner =>
        compileTerm g (body.instantiateAt guards (F.length + bs.length)).flatten
          (.letBody (count + bs.length)) (depth + bs.length) inner) := by
  have hpos := body.nodes_pos
  have hbs : ∀ b ∈ bs, TermMatches f g guards outer b.2 := by
    intro b hb
    have hle := Term.nodes_le_of_mem_bindings hb
    exact (h b.2 (by rw [Term.nodes]; omega)).1
  have hbody := (h body (by rw [Term.nodes]; omega)).2
  rw [compileLet, Term.length_instantiateBindings, Term.nodes]
  refine Matches.weaken (n := Term.nodesOfBindings bs + (body.nodes - 1))
    (matches_bindings hbs [] hF depth fun new low' hlen hfresh => ?_) (by omega)
  rw [List.length_nil, Nat.zero_add] at hlen
  rw [← hlen]
  have hchain := hbody (new ++ F) low' hfresh (count + new.length) (depth + new.length)
  rw [counted, List.length_append, Nat.add_comm new.length F.length] at hchain
  simpa only [Frame.instantiate_locals] using hchain

omit hF in
theorem openLambdas_of_arity {t : Term} (ht : t.arity = 0) (slot : Nat → Nat) (locals : List Local)
    (scope : Scope) : openLambdas slot t locals scope = pure (locals, scope) := by
  cases t with
  | lam binder body => cases ht
  | _ => rfl

omit hF in
theorem bodyOf_of_arity {t : Term} (ht : t.arity = 0) : bodyOf t = t := by
  cases t with
  | lam binder body => cases ht
  | _ => rfl

omit hF in
theorem arity_of_ne_lam {t : Term} (h : ∀ binder body, t ≠ .lam binder body) : t.arity = 0 := by
  cases t with
  | lam binder body => exact absurd rfl (h binder body)
  | _ => rfl

omit hF in
/-- An alternative under as many fields as have been opened. -/
theorem matches_fields (hguards : Guarded f guards outer) {t : Term}
    (h : TermMatches f g guards outer (bodyOf t)) (new : Frame)
    (hnew : Frame.Fresh (new ++ F) low) (depth : Nat) :
    Matches f low (t.nodes - 1) Eq
      (openLambdas (depth + ·) (t.instantiateAt F.terms new.length) new.locals
          (Frame.scope (new ++ F) ++ outer) >>= fun opened => do
        compileExpr g (instantiate (bodyOf (t.instantiateAt F.terms new.length)) opened.1)
          (depth + opened.1.length) opened.2
        dropValues opened.1.length
        return opened.1.length)
      (compileTerm g (counted guards (new ++ F).length t) (.alternative new.length)
        (depth + new.length) (Frame.scope (new ++ F) ++ outer)) := by
  induction t using bodyOf.induct generalizing new low with
  | case1 binder body ih =>
    have hpos := body.nodes_pos
    refine Matches.weaken (n := body.nodes - 1 + 1) ?_ (by rw [Term.nodes]; omega)
    -- both compilers open the lambda: one in `openLambdas`, the other in `compileTerm`
    show Matches f low _ Eq ((freshLocal binder >>= fun l => openLambdas (depth + ·)
        (body.instantiateAt F.terms (new.length + 1)) (new.locals ++ [l])
        (bind (Frame.scope (new ++ F) ++ outer) l (depth + new.locals.length))) >>= _)
      (Codegen.fresh >>= fun id => compileTerm g (counted guards ((new ++ F).length + 1) body)
        (.alternative (new.length + 1)) (depth + new.length + 1)
        (⟨id, depth + new.length⟩ :: (Frame.scope (new ++ F) ++ outer)))
    rw [bind_assoc, Frame.length_locals]
    refine .fresh binder fun l hl => ?_
    rw [← Frame.locals_cons l (depth + new.length) new]
    exact ih h ((l, depth + new.length) :: new) (hnew.cons hl (depth + new.length))
  | case2 t hnot =>
    have hzero := arity_of_ne_lam hnot
    have hopened : (t.instantiateAt F.terms new.length).arity = 0 := by
      rw [Term.arity_instantiateAt (fun u hu => ?_), hzero]
      obtain ⟨l, rfl⟩ := Frame.terms_shape u hu
      rfl
    have hcounted : (counted guards (new ++ F).length t).arity = 0 := by
      rw [counted, Term.arity_flatten, Term.arity_instantiateAt (fun u hu => ?_), hzero]
      rw [hguards.eq_absent u hu]
      rfl
    -- no lambda is left: all fields are put in at once, and the body is compiled and left
    rw [openLambdas_of_arity hopened, pure_bind, bodyOf_of_arity hopened, Frame.instantiate_locals,
      compileTerm_leave (fun _ _ => hcounted) (by rintro _ ⟨⟩), Frame.length_locals]
    rw [bodyOf_of_arity hzero] at h
    rw [leave_alternative]
    exact Matches.weaken (n := t.nodes - 1 + (0 + 0)) ((h (new ++ F) low hnew _).andThen
      ((Matches.of_steady (.dropValues _) fun _ => rfl).andThen (.pure rfl))) (Nat.le_refl _)

theorem matches_alternatives (hguards : Guarded f guards outer) {as : List Term}
    (h : ∀ a ∈ as, TermMatches f g guards outer (bodyOf a)) (depth : Nat) :
    Matches f low (Term.nodesOfArgs as) Eq
      (compileAlternatives g (as.map (Term.instantiateAt F.terms 0)) depth (F.scope ++ outer))
      (Codegen.compileAlternatives g (as.map (counted guards F.length)) depth
        (F.scope ++ outer)) := by
  induction as with
  | nil =>
    rw [List.map_nil, List.map_nil, compileAlternatives, Codegen.compileAlternatives]
    exact .pure rfl
  | cons a as ih =>
    rw [List.forall_mem_cons] at h
    have hpos := a.nodes_pos
    rw [List.map_cons, List.map_cons, compileAlternatives, Codegen.compileAlternatives,
      List.isEmpty_map, List.isEmpty_map, compileAlternative, Term.nodesOfArgs]
    refine Matches.weaken (n := 0 + (a.nodes - 1 + (0 + (Term.nodesOfArgs as + 0)))) ?_ (by omega)
    refine (Matches.of_steady .nextPc fun _ => rfl).bind ?_
    rintro entry - rfl
    refine (matches_fields hguards h.1 [] hF depth).bind ?_
    rintro fields - rfl
    -- with or without a jump at its end, an alternative is followed by the others
    have hrest : ∀ exit exit' : Option Nat, exit = exit' →
        Matches f low (Term.nodesOfArgs as + 0) Eq
          (compileAlternatives g (as.map (Term.instantiateAt F.terms 0)) depth (F.scope ++ outer)
            >>= fun more => pure (⟨entry, fields, exit⟩ :: more))
          (Codegen.compileAlternatives g (as.map (counted guards F.length)) depth
            (F.scope ++ outer) >>= fun more => pure (⟨entry, fields, exit'⟩ :: more)) := by
      rintro exit - rfl
      refine (ih h.2).bind ?_
      rintro more - rfl
      exact .pure rfl
    cases as.isEmpty with
    | true => exact (Matches.pure rfl).bind hrest
    | false => exact (Matches.of_steady ((Steady.emit _).map some) fun _ => rfl).bind hrest

theorem matches_analysis (hguards : Guarded f guards outer) {as : List Term}
    (h : ∀ a ∈ as, TermMatches f g guards outer a)
    (hbody : ∀ a ∈ as, TermMatches f g guards outer (bodyOf a)) (head : CaseHead) (depth : Nat) :
    Matches f low (Term.nodesOfArgs as) (fun _ _ => True)
      (compileAnalysis g head (as.map (Term.instantiateAt F.terms 0)) depth (F.scope ++ outer))
      (Codegen.compileAnalysis g head (as.map (counted guards F.length)) depth
        (F.scope ++ outer)) := by
  unfold compileAnalysis Codegen.compileAnalysis
  rw [List.length_map, List.length_map]
  by_cases hzero : head.alternatives = 0
  · rw [if_pos hzero, if_pos hzero]
    exact .throw rfl
  rw [if_neg hzero, if_neg hzero]
  by_cases hcount : UInt32.ofNat as.length ≠ head.alternatives + 1
  · rw [if_pos hcount, if_pos hcount]
    exact .throw rfl
  rw [if_neg hcount, if_neg hcount]
  cases as with
  | nil => exact .throw rfl
  | cons major alts =>
    rw [List.forall_mem_cons] at h hbody
    rw [Term.nodesOfArgs]
    refine Matches.weaken (n := major.nodes - 1 + (0 + (Term.nodesOfArgs alts + 0))) ?_ (by omega)
    refine (h.1 F low hF depth).andThen ((Matches.of_steady (.emit _) fun _ => rfl).bind ?_)
    rintro pc - rfl
    refine (matches_alternatives hF hguards hbody.2 depth).bind ?_
    rintro done - rfl
    exact .of_steady (.completeDispatch _ _ _) fun _ => trivial

omit hF in
/-- The code of an application follows what stands at its head. -/
theorem compileApp_eq (head : Term) (args : List Term) (depth : Nat) (scope : Scope) :
    compileApp g head args depth scope =
      (match g.head head with
        | .analysis head => compileAnalysis g head args depth scope
        | .cnstr index => do
            compileArgs g args depth scope
            let _ ← emit (.cnstr index (UInt32.ofNat args.length))
        | .proj index => compileProjection g index args depth scope
        | .neutral => do let _ ← emit (.scnstr 0)
        | .unreachable => do let _ ← emit .unreachable
        | .declared name => do
            let d ← g.resolve name
            compileArgsRev g args depth scope
            emitCall d args.length
        | .unusable marker => violated (.appliedMarker marker args.length)
        | .computed => do
            compileArgsRev g args depth scope
            compileExpr g head (depth + args.length) scope
            emitApplies args.length) := by
  conv_lhs => unfold compileApp
  cases head with
  | const name marker =>
    simp only [Globals.head]
    cases g.caseHead? name marker with
    | some head => simp
    | none => cases marker.kind <;> simp
  | _ => simp [Globals.head]

theorem matches_app (hguards : Guarded f guards outer) {head : Term} {as : List Term}
    (hhead : TermMatches f g guards outer head) (h : ∀ a ∈ as, TermMatches f g guards outer a)
    (hbody : ∀ a ∈ as, TermMatches f g guards outer (bodyOf a)) (depth : Nat) :
    Matches f low (head.nodes + Term.nodesOfArgs as) (fun _ _ => True)
      (compileApp g (head.instantiateAt F.terms 0) (as.map (Term.instantiateAt F.terms 0)) depth
        (F.scope ++ outer))
      (compileTerm g (.app (counted guards F.length head) (as.map (counted guards F.length)))
        .value depth (F.scope ++ outer)) := by
  have hopened : g.head (head.instantiateAt F.terms 0) = g.head head := by
    refine head_instantiateAt g (fun u hu => ?_) 0 head
    obtain ⟨l, rfl⟩ := Frame.terms_shape u hu
    rfl
  have hcounted : g.head (counted guards F.length head) = g.head head := by
    rw [counted, head_flatten]
    refine head_instantiateAt g (fun u hu => ?_) _ head
    rw [hguards.eq_absent u hu]
    rfl
  rw [compileApp_eq, compileTerm_app, hopened, hcounted, List.length_map, List.length_map]
  refine Matches.ignore (R := fun _ _ => True) ?_ 0
  cases g.head head with
  | analysis head => exact (matches_analysis hF hguards h hbody head depth).weaken (by omega)
  | cnstr index =>
    exact ((matches_args hF h depth).andThen
      ((Matches.of_steady (.emit _) fun _ => rfl).andThen (.pure trivial))).weaken (by omega)
  | proj index => exact (matches_projection hF h index depth).weaken (by omega)
  | neutral | unreachable =>
    exact ((Matches.of_steady (.emit _) fun _ => rfl).andThen (.pure trivial)).weaken (by omega)
  | declared name =>
    refine Matches.weaken (n := 0 + (Term.nodesOfArgs as + 0)) ?_ (by omega)
    refine (Matches.of_steady (.resolve g name) fun _ => rfl).bind ?_
    rintro d - rfl
    exact (matches_argsRev hF h depth).andThen (.of_steady (.emitCall d _) fun _ => trivial)
  | unusable marker => exact .throw rfl
  | computed =>
    exact ((matches_argsRev hF h depth).andThen ((hhead F low hF _).andThen
      (.of_steady (.emitApplies _) fun _ => trivial))).weaken (by omega)

omit hF

/-- A variable that is opened is found by its identity, and a loose one is refused. -/
theorem matches_var (hguards : Guarded f guards outer) (i : UInt32) :
    TermMatches f g guards outer (.var i) := by
  intro F low hF depth
  rcases Term.var_trichotomy F.terms 0 i with hlt | ⟨u, -, hu⟩ | ⟨j, -, hi⟩
  · exact absurd hlt (Nat.not_lt_zero _)
  · -- the variable of an opened binder
    rw [Nat.sub_zero, Frame.terms, List.getElem?_map, Option.map_eq_some_iff] at hu
    obtain ⟨b, hb, rfl⟩ := hu
    have hlt : i.toNat < F.length := (List.getElem?_eq_some_iff.mp hb).1
    have hslot : (F.scope ++ outer)[i.toNat]? = some ⟨b.1.id.toNat, b.2⟩ := by
      rw [List.getElem?_append_left (by rwa [Frame.length_scope]), Frame.scope, List.getElem?_map,
        hb]
      rfl
    have hopened : (Term.var i).instantiateAt F.terms 0 = b.1.term :=
      Term.instantiateAt_var_of_getElem? (Nat.zero_le _) (by
        rw [Nat.sub_zero, Frame.terms, List.getElem?_map, hb]
        rfl)
    have hcounted : counted guards F.length (.var i) = .var i := by
      rw [counted, Term.instantiateAt_var_of_lt hlt]
      rfl
    rw [hopened, hcounted, Local.term, compileExpr, compileTerm, hslot, hF.find? outer hb]
    exact (Matches.of_steady (.emit _) fun _ => rfl).andThen (.pure trivial)
  · -- the variable of no opened binder
    rw [Frame.length_terms] at hi
    rw [Term.instantiateAt_var_of_eq_add (Nat.zero_le _) (by rwa [Frame.length_terms]),
      compileExpr]
    cases hguards with
    | closed =>
      have hnone : (F.scope ++ [])[i.toNat]? = none :=
        List.getElem?_eq_none (by rw [List.append_nil, Frame.length_scope]; omega)
      have hloose : i.toNat - (F.scope ++ []).length = j.toNat := by
        rw [List.append_nil, Frame.length_scope]
        omega
      have hcounted : counted [] F.length (.var i) = .var i := by
        rw [counted, Term.instantiateAt_nil]
        rfl
      rw [hcounted, compileTerm, hnone, hloose]
      exact .throw rfl
    | absent habsent hall hblind =>
      have hguard : ∃ u, guards[i.toNat - F.length]? = some u :=
        ⟨_, List.getElem?_eq_getElem (Nat.lt_of_lt_of_le
          (Nat.lt_of_le_of_lt (Nat.sub_le _ _) i.toNat_lt) hall)⟩
      obtain ⟨u, hu⟩ := hguard
      have hcounted : counted guards F.length (.var i) = .absent := by
        rw [counted, Term.instantiateAt_var_of_getElem? (by omega) hu,
          habsent u (List.mem_of_getElem? hu)]
        rfl
      rw [hcounted, compileTerm]
      exact .throw (hblind _ _)

theorem continueLet_of_ne {t : Term} (h : ∀ bs b, t ≠ .letIn bs b) (count depth : Nat)
    (scope : Scope) : continueLet g t count depth scope =
      compileExpr g t depth scope >>= fun _ => dropValues count := by
  cases t with
  | letIn bs b => exact absurd rfl (h bs b)
  | _ => simp only [continueLet]

/-- Only a let becomes a let. -/
theorem instantiateAt_ne_letIn {subst : List Term} (h : ∀ u ∈ subst, ∀ bs b, u ≠ .letIn bs b)
    {t : Term} (ht : ∀ bs b, t ≠ .letIn bs b) (k : Nat) (bs : List (String × Term)) (b : Term) :
    t.instantiateAt subst k ≠ .letIn bs b := by
  cases t with
  | var i =>
    rcases Term.instantiateAt_var_mem subst k i with hmem | ⟨j, hj⟩
    · exact h _ hmem bs b
    · rw [hj]
      rintro ⟨⟩
  | letIn bs b => exact absurd rfl (ht bs b)
  | _ => rintro ⟨⟩

theorem flatten_ne_letIn {t : Term} (ht : ∀ bs b, t ≠ .letIn bs b) (bs : List (String × Term))
    (b : Term) : t.flatten ≠ .letIn bs b := by
  cases t with
  | app fn args =>
    rw [Term.flatten_app]
    rintro ⟨⟩
  | letIn bs b => exact absurd rfl (ht bs b)
  | _ => rintro ⟨⟩

/-- What is not a let ends a chain. -/
theorem chainMatches_of_ne (hguards : Guarded f guards outer) {t : Term}
    (ht : ∀ bs b, t ≠ .letIn bs b) (h : TermMatches f g guards outer t) :
    ChainMatches f g guards outer t := by
  intro F low hF count depth
  have hopened : ∀ bs b, t.instantiateAt F.terms 0 ≠ .letIn bs b := by
    refine instantiateAt_ne_letIn (fun u hu => ?_) ht 0
    obtain ⟨l, rfl⟩ := Frame.terms_shape u hu
    rintro _ _ ⟨⟩
  have hcounted : ∀ bs b, counted guards F.length t ≠ .letIn bs b := by
    refine flatten_ne_letIn (instantiateAt_ne_letIn (fun u hu => ?_) ht _)
    rw [hguards.eq_absent u hu]
    rintro _ _ ⟨⟩
  rw [continueLet_of_ne hopened,
    compileTerm_leave (by rintro _ ⟨⟩) (fun _ _ => hcounted), leave_letBody]
  exact Matches.weaken (n := t.nodes - 1 + 0) ((h F low hF depth).andThen
    ((Matches.of_steady (.dropValues count) fun _ => rfl).ignore count)) (Nat.le_refl _)

section Parts

variable (hguards : Guarded f guards outer) {t : Term}
  (ih : ∀ u : Term, u.nodes < t.nodes →
    TermMatches f g guards outer u ∧ ChainMatches f g guards outer u)

include hguards ih

theorem termMatches_of_parts : TermMatches f g guards outer t := by
  intro F low hF depth
  cases t with
  | var i => exact matches_var hguards i F low hF depth
  | app fn args =>
    have hsize := fn.nodes_spine_le
    have hspine : (Term.app fn args).spine.1.nodes
        + Term.nodesOfArgs (Term.app fn args).spine.2 < (Term.app fn args).nodes := by
      simp only [Term.spine, Term.nodesOfArgs_append, Term.nodes]
      omega
    have hargs : ∀ a ∈ (Term.app fn args).spine.2, a.nodes < (Term.app fn args).nodes := by
      intro a ha
      have := Term.nodes_le_of_mem ha
      omega
    have hopened := Term.spine_instantiateAt (k := 0) (fun u hu => by
      obtain ⟨l, rfl⟩ := F.terms_shape u hu
      rfl) (Term.app fn args)
    have hguard : ∀ u ∈ guards, u.isApp = false := by
      intro u hu
      rw [hguards.eq_absent u hu]
      rfl
    rw [Term.instantiateAt] at hopened ⊢
    rw [compileExpr, hopened, counted_app hguard]
    exact (matches_app hF hguards (ih _ (by omega)).1 (fun a ha => (ih a (hargs a ha)).1)
      (fun a ha => (ih _ (Nat.lt_of_le_of_lt (nodes_bodyOf_le a) (hargs a ha))).1) depth).weaken
      (by omega)
  | letIn bs body =>
    have hlet := (matches_let hF ih 0 depth).ignore 0
    rw [Nat.zero_add, bind_assoc] at hlet
    rw [Term.instantiateAt, Nat.zero_add, compileExpr, counted_letIn, compileTerm,
      length_countedBindings]
    exact hlet
  | ann name body =>
    have hbody := (ih body (by rw [Term.nodes]; omega)).1 F low hF depth
    rw [Term.instantiateAt, compileExpr]
    exact (hbody.ignore 0).weaken (Nat.sub_le _ _)
  | absent | sort level | mvar name | lam binder body | pi binder domain body
  | foreign name args =>
    simp only [Term.instantiateAt, compileExpr]
    exact .throw rfl
  | const name marker =>
    simp only [Term.instantiateAt, compileExpr]
    exact (Matches.of_steady (.compileConstant g name marker) fun _ => rfl).ignore 0
  | fvar id name =>
    simp only [Term.instantiateAt, compileExpr]
    show Matches f low _ _ _ (compileTerm g (.fvar id name) .value depth (F.scope ++ outer))
    rw [compileTerm]
    cases (F.scope ++ outer).find? fun b => b.id == id.toNat with
    | none => exact .throw rfl
    | some b => exact (Matches.of_steady (.emit _) fun _ => rfl).andThen (.pure trivial)
  | nat value =>
    simp only [Term.instantiateAt, compileExpr]
    exact (Matches.of_steady (.emit _) fun _ => rfl).andThen (.pure trivial)
  | quote body =>
    simp only [Term.instantiateAt, compileExpr]
    exact ((Matches.of_steady (.emit _) fun _ => rfl).andThen (.pure trivial)).weaken
      (Nat.zero_le _)

theorem chainMatches_of_parts : ChainMatches f g guards outer t := by
  cases t with
  | letIn bs body =>
    intro F low hF count depth
    have hlet := matches_let hF ih count depth
    rw [Term.instantiateAt, Nat.zero_add, continueLet, counted_letIn, compileTerm,
      length_countedBindings]
    exact hlet
  | _ => exact chainMatches_of_ne hguards (by rintro _ _ ⟨⟩) (termMatches_of_parts hguards ih)

end Parts

/-- Both compilers do the same with a term. -/
theorem matches_term (hguards : Guarded f guards outer) (t : Term) :
    TermMatches f g guards outer t ∧ ChainMatches f g guards outer t := by
  -- by size and not by structure: the head of a chain and the body of an alternative lie deeper
  induction hsize : t.nodes using Nat.strongRecOn generalizing t with
  | ind size ih =>
    subst hsize
    have hparts : ∀ u : Term, u.nodes < t.nodes →
        TermMatches f g guards outer u ∧ ChainMatches f g guards outer u :=
      fun u hu => ih u.nodes hu u rfl
    exact ⟨termMatches_of_parts hguards hparts, chainMatches_of_parts hguards hparts⟩

end Terms

/-! ## Expressions -/

/-- In whatever scope, an expression has the code that it has by the number of its binders once its
    loose variables are absent. -/
theorem compileExpr_eq_ok_iff {g : Globals} {guards : List Term}
    (habsent : ∀ u ∈ guards, u = .absent) (hall : 2 ^ 32 ≤ guards.length) {e : Term} {depth : Nat}
    {scope : Scope} {s s' : State} (hroom : s.lastId + e.nodes ≤ 2 ^ 64) :
    compileExpr g e depth scope s = .ok ((), s') ↔
      ∃ n, compileTerm g (e.instantiateAt guards 0).flatten .value depth scope s = .ok (n, s') := by
  have hpos := e.nodes_pos
  have hguards : Guarded (fun _ : Failure => ()) guards scope :=
    .absent habsent hall (fun _ _ => rfl) scope
  have hagree := (matches_term (g := g) hguards e).1 [] 0 (Frame.fresh_nil 0) depth s
    (Nat.zero_le _) (by omega)
  rw [Frame.terms, List.map_nil, Term.instantiateAt_nil, Frame.scope, List.map_nil,
    List.nil_append, counted, List.length_nil] at hagree
  generalize compileExpr g e depth scope s = r at hagree ⊢
  generalize compileTerm g _ _ _ _ s = r' at hagree ⊢
  cases hagree with
  | failed h => simp
  | done h hle hroom => simp

theorem exists_guards :
    ∃ guards : List Term, (∀ u ∈ guards, u = .absent) ∧ 2 ^ 32 ≤ guards.length :=
  ⟨List.replicate (2 ^ 32) .absent, fun _ => List.eq_of_mem_replicate,
    Nat.le_of_eq List.length_replicate.symm⟩

/-- An expression without loose variables has the code that it has by the number of its binders. -/
theorem compileExpr_eq_ok_iff_of_closed {g : Globals} {e : Term} (he : e.hasLooseVars = false)
    {depth : Nat} {scope : Scope} {s s' : State} (hroom : s.lastId + e.nodes ≤ 2 ^ 64) :
    compileExpr g e depth scope s = .ok ((), s') ↔
      ∃ n, compileTerm g e.flatten .value depth scope s = .ok (n, s') := by
  obtain ⟨guards, habsent, hall⟩ := exists_guards
  rw [compileExpr_eq_ok_iff habsent hall hroom, Term.instantiateAt_of_closed he]

/-! ## Procedures -/

/-- Opening lambdas takes an identity for each of them, and binds the innermost last. -/
theorem openLambdas_ok (slot : Nat → Nat) (t : Term) {F : Frame} {id : Nat} (b : Buffer)
    (hF : F.Fresh id) (hroom : id + t.arity < 2 ^ 64) :
    ∃ F' : Frame, openLambdas slot t F.locals F.scope ⟨b, id⟩
        = .ok ((F'.locals, F'.scope), ⟨b, id + t.arity⟩) ∧
      F'.Fresh (id + t.arity) ∧
      F'.scope = (List.range t.arity).map (fun k =>
        ⟨id + t.arity - k, slot (F.length + t.arity - 1 - k)⟩) ++ F.scope := by
  induction t using bodyOf.induct generalizing F id with
  | case1 binder body ih =>
    rw [Term.arity] at hroom ⊢
    have hid : (UInt64.ofNat (id + 1)).toNat = id + 1 :=
      UInt64.toNat_ofNat_of_lt' (Nat.lt_of_le_of_lt (by omega) hroom)
    have hfresh := hF.cons (l := ⟨UInt64.ofNat (id + 1), binder⟩) (by dsimp only; omega)
      (slot F.length)
    dsimp only at hfresh
    rw [hid] at hfresh
    obtain ⟨F', hrun, hF', hscope⟩ := ih hfresh (by omega)
    rw [Nat.add_right_comm id 1, Nat.add_assoc] at hrun hF'
    refine ⟨F', ?_, hF', ?_⟩
    · rw [Frame.locals_cons, ← Frame.length_locals F] at hrun
      exact hrun
    · have hlast : Frame.scope ((⟨UInt64.ofNat (id + 1), binder⟩, slot F.length) :: F)
          = ⟨id + 1, slot F.length⟩ :: F.scope :=
        congrArg (fun i => (⟨i, slot F.length⟩ : Binding) :: F.scope) hid
      rw [hscope, hlast, List.length_cons, List.range_succ, List.map_append, List.append_assoc,
        Nat.add_right_comm id 1, Nat.add_right_comm F.length 1, Nat.add_assoc id,
        Nat.add_assoc F.length, List.map_singleton, List.singleton_append,
        show id + (body.arity + 1) - body.arity = id + 1 by omega,
        show F.length + (body.arity + 1) - 1 - body.arity = F.length by omega]
  | case2 t hnot =>
    have hzero := arity_of_ne_lam hnot
    rw [openLambdas_of_arity hzero, hzero]
    exact ⟨F, rfl, hF, rfl⟩

/-- The scope of a procedure body is that of its parameters. -/
theorem openLambdas_parameters {value : Term} (h : value.arity < 2 ^ 64) :
    ∃ F : Frame, openLambdas (value.arity - 1 - ·) value [] [] ⟨.empty, 0⟩
        = .ok ((F.locals, F.scope), ⟨.empty, value.arity⟩) ∧
      F.Fresh value.arity ∧ F.scope = parameters value.arity := by
  obtain ⟨F, hrun, hF, hscope⟩ := openLambdas_ok (value.arity - 1 - ·) value .empty
    (Frame.fresh_nil 0) (by omega)
  rw [Nat.zero_add] at hrun hF
  refine ⟨F, hrun, hF, ?_⟩
  rw [hscope, parameters, Frame.scope, List.map_nil, List.append_nil]
  refine List.map_congr_left fun k hk => ?_
  have hlt := List.mem_range.mp hk
  rw [Nat.zero_add, List.length_nil, Nat.zero_add,
    show value.arity - 1 - (value.arity - 1 - k) = k by omega]

theorem compileBody_eq (g : Globals) {value : Term} (hnodes : value.nodes ≤ 2 ^ 64) :
    compileBody g value ⟨.empty, 0⟩ = Codegen.compileBody g value ⟨.empty, value.arity⟩ := by
  have hsize := nodes_bodyOf value
  have hpos := (bodyOf value).nodes_pos
  obtain ⟨F, hrun, hF, hscope⟩ := @openLambdas_parameters value (by omega)
  have hopened : instantiate (bodyOf value) F.locals = (bodyOf value).instantiateAt F.terms 0 := by
    have h := Frame.instantiate_locals F [] (bodyOf value)
    rwa [Frame.terms, List.map_nil, Term.instantiateAt_nil, List.append_nil] at h
  have hagree := (matches_term (f := id) (g := g) .closed (bodyOf value)).1 F value.arity hF
    value.arity ⟨.empty, value.arity⟩ (Nat.le_refl _) (by dsimp only; omega)
  rw [counted, Term.instantiateAt_nil, List.append_nil, hscope, ← hopened] at hagree
  -- what is left on both sides is the body and the instruction that ends it
  rw [compileBody, run_bind_ok hrun, hscope]
  dsimp only
  generalize hx : compileExpr g _ _ _ _ = r at hagree
  generalize hy : compileTerm g _ _ _ _ _ = r' at hagree
  cases hagree with
  | failed h =>
    rw [run_bind_error hx, Codegen.compileBody, run_bind_error hy]
    exact congrArg Except.error h
  | done => rw [run_bind_ok hx, Codegen.compileBody, run_bind_ok hy]

/-- Opening the binders of a declaration and counting them give the same procedure or the same
    failure, unless there are more binders than identities. -/
theorem compileProcedure_eq (g : Globals) (name : String) {value : Term}
    (hnodes : value.nodes ≤ 2 ^ 64) :
    compileProcedure g name value = Codegen.compileProcedure g name value := by
  rw [compileProcedure, Codegen.compileProcedure, StateT.run, StateT.run, compileBody_eq g hnodes]

end TermVM.Codegen.Opening
