/-
  TermVM.Proofs.Grammar.Tour

  Walks through a term in the order its code is generated in.

  Binders take the identities 1, 2, … as code generation comes to them, so the
  identity of a binder is a matter of order and of what is skipped.  A tour
  counts the binders without generating code, and notes every free local it
  meets with the identities that are in sight there.

  `sighted_of_mem_freeLocals` says what those identities are: numbers from 1 on,
  fewer than the nodes of the term.
-/
import TermVM.Proofs.Balance.Layout

namespace TermVM.Codegen

/-! ## Tours -/

/-- A free local where it stands, with the identities of the binders in sight there. -/
structure Sighting where
  id : UInt64
  inSight : List Nat
  deriving DecidableEq, Repr

/-- A local is bound when a binder in sight took its identity. -/
def Sighting.IsBound (s : Sighting) : Prop :=
  s.id.toNat ∈ s.inSight
  deriving Decidable

/-- What a walk through a term comes to: a value, the free locals it met, and the identity the
    last binder took. -/
structure Walked (α : Type) where
  value : α
  met : List Sighting
  lastId : Nat

/-- A walk takes the identity of the last binder.  It cannot fail. -/
def Tour (α : Type) : Type :=
  (lastId : Nat) → Walked α

namespace Tour

/-- Meets nothing. -/
def done {α : Type} (a : α) : Tour α :=
  fun id => ⟨a, [], id⟩

/-- Makes one tour after the other. -/
def andThen {α β : Type} (q : Tour α) (f : α → Tour β) : Tour β :=
  fun id =>
    let first := q id
    let second := f first.value first.lastId
    ⟨second.value, first.met ++ second.met, second.lastId⟩

instance : Monad Tour where
  pure := done
  bind := andThen

/-- The identity of a new binder. -/
def fresh : Tour Nat :=
  fun id => ⟨id + 1, [], id + 1⟩

/-- Notes a free local. -/
def meet (s : Sighting) : Tour Unit :=
  fun id => ⟨(), [s], id⟩

end Tour

mutual

/-- Walks through a flattened term in the order its code is generated in.  What an erased value or a
    dead branch is applied to is not visited, and neither is what is quoted. -/
def tour (g : Globals) : Term → (inSight : List Nat) → Tour Unit
  | .fvar id _, inSight => Tour.meet ⟨id, inSight⟩
  | .lam _ body, inSight => do
      let id ← Tour.fresh
      tour g body (id :: inSight)
  | .letIn bindings body, inSight => do
      let inner ← tourBindings g bindings inSight
      tour g body inner
  | .ann _ body, inSight => tour g body inSight
  | .app fn args, inSight =>
      match g.head fn with
      | .analysis _ | .cnstr _ => tourArgs g args inSight
      | .proj _ | .declared _ => tourArgsRev g args inSight
      | .computed => do
          tourArgsRev g args inSight
          tour g fn inSight
      | _ => return
  | _, _ => return

/-- Walks through terms first to last. -/
def tourArgs (g : Globals) : List Term → (inSight : List Nat) → Tour Unit
  | [], _ => return
  | a :: as, inSight => do
      tour g a inSight
      tourArgs g as inSight

/-- Walks through terms last to first. -/
def tourArgsRev (g : Globals) : List Term → (inSight : List Nat) → Tour Unit
  | [], _ => return
  | a :: as, inSight => do
      tourArgsRev g as inSight
      tour g a inSight

/-- Walks through the values of a let, and gives the identities in sight of its body. -/
def tourBindings (g : Globals) : List (String × Term) → (inSight : List Nat) → Tour (List Nat)
  | [], inSight => return inSight
  | (_, v) :: bs, inSight => do
      tour g v inSight
      let id ← Tour.fresh
      tourBindings g bs (id :: inSight)

end

/-- The identities of the binders of a scope. -/
def Scope.ids (scope : Scope) : List Nat :=
  scope.map (·.id)

/-- The free locals that code generation comes across in a procedure. -/
def freeLocals (g : Globals) (t : Term) : List Sighting :=
  (tour g (bodyOf t).flatten (parameters t.arity).ids t.arity).met

variable {g : Globals}

/-! ## The numbers of a tour -/

/-- The identities in sight are among those taken so far. -/
def Numbered (inSight : List Nat) (lastId : Nat) : Prop :=
  ∀ k ∈ inSight, 0 < k ∧ k ≤ lastId

theorem Numbered.mono {inSight : List Nat} {id id' : Nat} (h : Numbered inSight id) (hle : id ≤ id') :
    Numbered inSight id' :=
  fun k hk => ⟨(h k hk).1, Nat.le_trans (h k hk).2 hle⟩

theorem Numbered.cons {inSight : List Nat} {id : Nat} (h : Numbered inSight id) :
    Numbered ((id + 1) :: inSight) (id + 1) :=
  List.forall_mem_cons.mpr ⟨⟨Nat.succ_pos id, Nat.le_refl _⟩, h.mono (Nat.le_succ id)⟩

/-- From an identity on, a tour takes at most so many, meets locals only under a condition, and only
    where the identities in sight have been taken. -/
structure Tour.Counts {α : Type} (q : Tour α) (id binders : Nat) (C : Prop) : Prop where
  le_lastId : id ≤ (q id).lastId
  lastId_le : (q id).lastId ≤ id + binders
  met : ∀ s ∈ (q id).met, C ∧ Numbered s.inSight (q id).lastId

namespace Tour.Counts

variable {α β : Type} {q : Tour α} {id m n : Nat} {C D : Prop}

theorem pure (a : α) : Counts (Pure.pure a) id n C where
  le_lastId := Nat.le_refl id
  lastId_le := Nat.le_add_right id n
  met _ hs := absurd hs List.not_mem_nil

theorem fresh : Counts Tour.fresh id 1 C where
  le_lastId := Nat.le_succ id
  lastId_le := Nat.le_refl _
  met _ hs := absurd hs List.not_mem_nil

theorem bind {f : α → Tour β} (hq : Counts q id m C)
    (hf : Counts (f (q id).value) (q id).lastId n D) : Counts (q >>= f) id (m + n) (C ∨ D) where
  le_lastId := Nat.le_trans hq.le_lastId hf.le_lastId
  lastId_le := by
    have hfirst := hq.lastId_le
    have hsecond := hf.lastId_le
    show (f (q id).value (q id).lastId).lastId ≤ _
    omega
  met s hs := by
    rcases List.mem_append.mp hs with hs | hs
    · exact ⟨.inl (hq.met s hs).1, (hq.met s hs).2.mono hf.le_lastId⟩
    · exact ⟨.inr (hf.met s hs).1, (hf.met s hs).2⟩

theorem mono (h : Counts q id m C) (hle : m ≤ n) (himp : C → D) : Counts q id n D where
  le_lastId := h.le_lastId
  lastId_le := by
    have := h.lastId_le
    omega
  met s hs := ⟨himp (h.met s hs).1, (h.met s hs).2⟩

end Tour.Counts

/-- A term has more nodes than binders. -/
def TermCounts (g : Globals) (t : Term) : Prop :=
  ∀ inSight id, Numbered inSight id →
    (tour g t inSight).Counts id (t.nodes - 1) (t.hasLocal = true)

section Lists

variable {args : List Term} (h : ∀ a ∈ args, TermCounts g a) {inSight : List Nat}

include h

theorem counts_args {id : Nat} (hnum : Numbered inSight id) :
    (tourArgs g args inSight).Counts id (Term.nodesOfArgs args)
      (Term.hasLocalInArgs args = true) := by
  induction args generalizing id with
  | nil => exact .pure ()
  | cons a as ih =>
    rw [List.forall_mem_cons] at h
    have ha := h.1 inSight id hnum
    refine (ha.bind (ih h.2 (hnum.mono ha.le_lastId))).mono ?_ ?_
    · rw [Term.nodesOfArgs]
      omega
    · rw [Term.hasLocalInArgs, Bool.or_eq_true]
      exact fun hlocal => hlocal

theorem counts_argsRev {id : Nat} (hnum : Numbered inSight id) :
    (tourArgsRev g args inSight).Counts id (Term.nodesOfArgs args)
      (Term.hasLocalInArgs args = true) := by
  induction args with
  | nil => exact .pure ()
  | cons a as ih =>
    rw [List.forall_mem_cons] at h
    have has := ih h.2
    refine (has.bind (h.1 inSight _ (hnum.mono has.le_lastId))).mono ?_ ?_
    · rw [Term.nodesOfArgs]
      omega
    · rw [Term.hasLocalInArgs, Bool.or_eq_true]
      exact Or.symm

end Lists

theorem counts_bindings {bindings : List (String × Term)} (h : ∀ b ∈ bindings, TermCounts g b.2)
    {inSight : List Nat} {id : Nat} (hnum : Numbered inSight id) :
    (tourBindings g bindings inSight).Counts id (Term.nodesOfBindings bindings)
        (Term.hasLocalInBindings bindings = true) ∧
      Numbered (tourBindings g bindings inSight id).value
        (tourBindings g bindings inSight id).lastId := by
  induction bindings generalizing inSight id with
  | nil => exact ⟨.pure inSight, hnum⟩
  | cons b bs ih =>
    rw [List.forall_mem_cons] at h
    have hvalue := h.1 inSight id hnum
    obtain ⟨hrest, hinner⟩ := ih h.2 (hnum.mono hvalue.le_lastId).cons
    refine ⟨(hvalue.bind (Tour.Counts.fresh.bind (C := False) hrest)).mono ?_ ?_, hinner⟩
    · have hpos := b.2.nodes_pos
      rw [Term.nodesOfBindings]
      omega
    · rw [Term.hasLocalInBindings, Bool.or_eq_true]
      exact Or.imp_right (·.resolve_left not_false)

theorem counts_term (t : Term) : TermCounts g t := by
  induction t using Term.ind with
  | app fn args ihfn ihargs =>
    intro inSight id hnum
    have hforward := counts_args ihargs hnum
    have hbackward := counts_argsRev ihargs hnum
    have hfn := ihfn inSight _ (hnum.mono hbackward.le_lastId)
    have hnodes : (Term.app fn args).nodes - 1 = fn.nodes + Term.nodesOfArgs args := rfl
    have hlocal : (Term.app fn args).hasLocal = true ↔
        fn.hasLocal = true ∨ Term.hasLocalInArgs args = true := by
      rw [Term.hasLocal, Bool.or_eq_true]
    rw [tour, hnodes, hlocal]
    cases g.head fn with
    | analysis head => exact hforward.mono (by omega) .inr
    | cnstr index => exact hforward.mono (by omega) .inr
    | proj index => exact hbackward.mono (by omega) .inr
    | declared name => exact hbackward.mono (by omega) .inr
    | computed => exact (hbackward.bind hfn).mono (by omega) Or.symm
    | neutral => exact .pure ()
    | unreachable => exact .pure ()
    | unusable marker => exact .pure ()
  | letIn bindings body ihbindings ihbody =>
    intro inSight id hnum
    obtain ⟨hbindings, hinner⟩ := counts_bindings ihbindings hnum
    refine (hbindings.bind (ihbody _ _ hinner)).mono ?_ ?_
    · rw [Term.nodes]
      omega
    · rw [Term.hasLocal, Bool.or_eq_true]
      exact fun h => h
  | lam binder body ih =>
    intro inSight id hnum
    refine (Tour.Counts.fresh.bind (C := False) (ih _ _ hnum.cons)).mono ?_
      (·.resolve_left not_false)
    have hpos := body.nodes_pos
    rw [Term.nodes]
    omega
  | ann name body ih =>
    intro inSight id hnum
    exact (ih inSight id hnum).mono (Nat.sub_le _ _) fun h => h
  | fvar id name =>
    intro inSight last hnum
    refine ⟨Nat.le_refl last, Nat.le_refl last, fun s hs => ?_⟩
    obtain rfl := List.mem_singleton.mp hs
    exact ⟨rfl, hnum⟩
  | _ => exact fun inSight id hnum => .pure ()

/-! ## Procedures -/

/-- The free locals that are visited are free locals of the term, and the identities in sight of them
    are numbers of its binders. -/
theorem sighted_of_mem_freeLocals {t : Term} {s : Sighting} (hs : s ∈ freeLocals g t) :
    t.hasLocal = true ∧ Numbered s.inSight (t.nodes - 1) := by
  have hparameters : Numbered (parameters t.arity).ids t.arity := by
    intro k hk
    simp only [Scope.ids, parameters, List.map_map, List.mem_map, List.mem_range,
      Function.comp_apply] at hk
    obtain ⟨slot, hslot, rfl⟩ := hk
    omega
  have hcounts := counts_term (g := g) (bodyOf t).flatten _ _ hparameters
  obtain ⟨hlocal, hnum⟩ := hcounts.met s hs
  rw [Term.hasLocal_flatten, hasLocal_bodyOf] at hlocal
  refine ⟨hlocal, hnum.mono (Nat.le_trans hcounts.lastId_le ?_)⟩
  have hnodes := nodes_bodyOf t
  have hflat := (bodyOf t).nodes_flatten_le
  have hpos := (bodyOf t).flatten.nodes_pos
  omega

theorem freeLocals_eq_nil {t : Term} (h : t.hasLocal = false) : freeLocals g t = [] := by
  refine List.eq_nil_iff_forall_not_mem.mpr fun s hs => ?_
  have hlocal := (sighted_of_mem_freeLocals hs).1
  rw [h] at hlocal
  cases hlocal

end TermVM.Codegen
