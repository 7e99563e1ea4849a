/-
  TermVM.Proofs.Outline.Identities

  The identities that binders take do not show in an outline.

  Every binder takes the next identity, and an identity is looked at only when
  a free local of the term is resolved.  So a plan draws the same outline
  whatever identity it starts from, as long as that is not below an identity
  that the term mentions: the binders it passes then take identities that no
  local has.

  `Replays` compares two plans that start from different identities.  It
  composes along sequences, and `replays_term` carries it over every term.
-/
import TermVM.Proofs.Outline.Basic
import TermVM.Proofs.Term.Flatten

namespace TermVM

/-! ## Free locals -/

namespace Term

mutual

/-- The identities of the free locals of a term; a quotation is not entered. -/
def locals : Term → List UInt64
  | fvar id _ => [id]
  | app fn args => fn.locals ++ localsOfArgs args
  | lam _ body => body.locals
  | pi _ domain body => domain.locals ++ body.locals
  | letIn bindings body => localsOfBindings bindings ++ body.locals
  | ann _ body => body.locals
  | foreign _ args => localsOfArgs args
  | _ => []

/-- The identities of the free locals of a list of terms. -/
def localsOfArgs : List Term → List UInt64
  | [] => []
  | a :: as => a.locals ++ localsOfArgs as

/-- The identities of the free locals of the values of a list of bindings. -/
def localsOfBindings : List (String × Term) → List UInt64
  | [] => []
  | (_, v) :: bs => v.locals ++ localsOfBindings bs

end

theorem localsOfArgs_eq_flatMap (as : List Term) : localsOfArgs as = as.flatMap locals := by
  induction as with
  | nil => rfl
  | cons a as ih => exact congrArg (a.locals ++ ·) ih

theorem localsOfBindings_eq_flatMap (bs : List (String × Term)) :
    localsOfBindings bs = bs.flatMap (·.2.locals) := by
  induction bs with
  | nil => rfl
  | cons b bs ih => exact congrArg (b.2.locals ++ ·) ih

theorem locals_withArgs (t : Term) (pending : Option (List Term)) :
    (t.withArgs pending).locals = t.locals ++ localsOfArgs (pending.getD []) := by
  cases pending with
  | none => exact (List.append_nil t.locals).symm
  | some args => rfl

theorem localsOfArgs_flattenArgs {quotes : Bool} {as : List Term}
    (h : ∀ a ∈ as, (flattenWith quotes a none).locals = a.locals) :
    localsOfArgs (flattenArgs quotes as) = localsOfArgs as := by
  rw [localsOfArgs_eq_flatMap, localsOfArgs_eq_flatMap, flattenArgs_eq_map, List.flatMap_map]
  exact List.flatMap_congr h

theorem localsOfBindings_flattenBindings {quotes : Bool} {bs : List (String × Term)}
    (h : ∀ b ∈ bs, (flattenWith quotes b.2 none).locals = b.2.locals) :
    localsOfBindings (flattenBindings quotes bs) = localsOfBindings bs := by
  rw [localsOfBindings_eq_flatMap, localsOfBindings_eq_flatMap, flattenBindings_eq_map,
    List.flatMap_map]
  exact List.flatMap_congr h

theorem locals_flattenWith (quotes : Bool) (t : Term) (pending : Option (List Term)) :
    (flattenWith quotes t pending).locals = t.locals ++ localsOfArgs (pending.getD []) := by
  induction t using Term.ind generalizing pending with
  | app fn args ihfn ihargs =>
    have hargs : localsOfArgs (flattenArgs quotes args) = localsOfArgs args :=
      localsOfArgs_flattenArgs fun a ha => by simpa [localsOfArgs] using ihargs a ha none
    rw [localsOfArgs_eq_flatMap] at hargs
    simp [flattenWith, locals, ihfn, hargs, localsOfArgs_eq_flatMap]
  | letIn bindings body ihbindings ihbody =>
    have hbindings :
        localsOfBindings (flattenBindings quotes bindings) = localsOfBindings bindings :=
      localsOfBindings_flattenBindings fun b hb => by
        simpa [localsOfArgs] using ihbindings b hb none
    simp [flattenWith, locals_withArgs, locals, ihbody, hbindings, localsOfArgs]
  | foreign name args ih =>
    have hargs : localsOfArgs (flattenArgs quotes args) = localsOfArgs args :=
      localsOfArgs_flattenArgs fun a ha => by simpa [localsOfArgs] using ih a ha none
    simp [flattenWith, locals_withArgs, locals, hargs]
  | _ => simp_all [flattenWith, locals_withArgs, locals, localsOfArgs]

theorem locals_flatten (t : Term) : t.flatten.locals = t.locals := by
  simp [flatten, locals_flattenWith, localsOfArgs]

end Term

namespace Codegen

/-! ## Scopes -/

/-- Two scopes have the same slots in the same order, and the identities up to `m` find the same
    slots in them. -/
structure Scope.Agree (m : Nat) (scope scope' : Scope) : Prop where
  slots : scope'.map (·.slot) = scope.map (·.slot)
  found : ∀ id ≤ m, (scope'.find? fun b => b.id == id).map (·.slot)
    = (scope.find? fun b => b.id == id).map (·.slot)

namespace Scope.Agree

variable {m : Nat} {scope scope' : Scope}

theorem refl (m : Nat) (scope : Scope) : Agree m scope scope :=
  ⟨rfl, fun _ _ => rfl⟩

/-- Binders beyond `m` are found by none of the identities up to `m`. -/
theorem cons (h : Agree m scope scope') {id id' : Nat} (hid : m < id) (hid' : m < id')
    (slot : Nat) : Agree m (⟨id, slot⟩ :: scope) (⟨id', slot⟩ :: scope') where
  slots := by rw [List.map_cons, List.map_cons, h.slots]
  found k hk := by
    have hne : (id == k) = false := beq_eq_false_iff_ne.mpr (by omega)
    have hne' : (id' == k) = false := beq_eq_false_iff_ne.mpr (by omega)
    rw [List.find?_cons_of_neg (by simp [hne']), List.find?_cons_of_neg (by simp [hne]),
      h.found k hk]

/-- A binder at a position has one at the same position that is in the same slot. -/
theorem exists_getElem? (h : Agree m scope scope') {k : Nat} {b : Binding}
    (hb : scope[k]? = some b) : ∃ b', scope'[k]? = some b' ∧ b'.slot = b.slot := by
  rw [← Option.map_eq_some_iff, ← List.getElem?_map, h.slots, List.getElem?_map, hb]
  rfl

/-- A binder that is found by an identity up to `m` has one that is in the same slot. -/
theorem exists_find? (h : Agree m scope scope') {id : Nat} (hid : id ≤ m) {b : Binding}
    (hb : (scope.find? fun b => b.id == id) = some b) :
    ∃ b', (scope'.find? fun b => b.id == id) = some b' ∧ b'.slot = b.slot := by
  rw [← Option.map_eq_some_iff, h.found id hid, hb]
  rfl

end Scope.Agree

/-! ## Plans that follow each other -/

/-- What the first plan draws, the second draws too, when neither starts below `m`: the same
    outline, a value related by `R`, and as many identities taken. -/
def Replays {α : Type} (m : Nat) (R : α → α → Prop) (p q : Plan α) : Prop :=
  ∀ id id' d, m ≤ id → m ≤ id' → p id = .ok d →
    ∃ d', q id' = .ok d' ∧ R d.value d'.value ∧ d'.outline = d.outline ∧ id ≤ d.lastId ∧
      d'.lastId + id = d.lastId + id'

namespace Replays

variable {α β : Type} {m : Nat} {R : α → α → Prop} {S : β → β → Prop}

theorem pure {a a' : α} (h : R a a') : Replays m R (Pure.pure a) (Pure.pure a') := by
  rintro id id' d - - ⟨⟩
  exact ⟨_, rfl, h, rfl, Nat.le_refl id, Nat.add_comm ..⟩

theorem fail {f : Failure} {q : Plan α} : Replays m R (Plan.fail f) q := by
  rintro id id' d - - ⟨⟩

theorem fresh : Replays m (fun a a' => m < a ∧ m < a') Plan.fresh Plan.fresh := by
  rintro id id' d hid hid' ⟨⟩
  refine ⟨_, rfl, ⟨?_, ?_⟩, rfl, Nat.le_succ id, ?_⟩
  · exact Nat.lt_succ_of_le hid
  · exact Nat.lt_succ_of_le hid'
  · show id' + 1 + id = id + 1 + id'
    omega

theorem op (i : Instr) : Replays m Eq (Plan.op i) (Plan.op i) := by
  rintro id id' d - - ⟨⟩
  exact ⟨_, rfl, rfl, rfl, Nat.le_refl id, Nat.add_comm ..⟩

theorem bind {p q : Plan α} {f f' : α → Plan β} (hp : Replays m R p q)
    (hf : ∀ a a', R a a' → Replays m S (f a) (f' a')) : Replays m S (p >>= f) (q >>= f') := by
  intro id id' d hid hid' hd
  obtain ⟨first, hfirst, second, hsecond, rfl⟩ := Plan.bind_eq_ok.mp hd
  obtain ⟨first', hfirst', hvalue, houtline, hle, hsum⟩ := hp id id' first hid hid' hfirst
  obtain ⟨second', hsecond', hvalue', houtline', hle', hsum'⟩ :=
    hf _ _ hvalue first.lastId first'.lastId second (by omega) (by omega) hsecond
  refine ⟨_, Plan.bind_eq_ok.mpr ⟨first', hfirst', second', hsecond', rfl⟩, hvalue', ?_, ?_, ?_⟩
  · rw [houtline, houtline']
  · exact Nat.le_trans hle hle'
  · show second'.lastId + id = second.lastId + id'
    omega

/-- A sequence whose first value does not matter. -/
theorem andThen {p q : Plan α} {f f' : α → Plan β} (hp : Replays m Eq p q)
    (hf : ∀ a, Replays m S (f a) (f' a)) : Replays m S (p >>= f) (q >>= f') :=
  hp.bind fun a _ ha => ha ▸ hf a

theorem applies (n : Nat) : Replays m Eq (Plan.applies n) (Plan.applies n) := by
  induction n with
  | zero => exact Replays.pure rfl
  | succ n ih => exact (Replays.op .apply).andThen fun _ => ih

theorem dispatch (head : CaseHead)
    {alts alts' : Nat → Except Failure (List (Nat × Outline) × Nat)}
    (h : ∀ id id' os last, m ≤ id → m ≤ id' → alts id = .ok (os, last) →
      ∃ last', alts' id' = .ok (os, last') ∧ id ≤ last ∧ last' + id = last + id') :
    Replays m Eq (Plan.dispatch head alts) (Plan.dispatch head alts') := by
  intro id id' d hid hid' hd
  obtain ⟨⟨os, last⟩, hos, hd⟩ := Result.bind_eq_ok.mp hd
  obtain ⟨last', hos', hle, hsum⟩ := h id id' os last hid hid' hos
  dsimp only at hd
  split at hd
  next hcount =>
    cases hd
    refine ⟨⟨(), .dispatch head os, last'⟩, ?_, rfl, rfl, hle, hsum⟩
    refine Result.bind_eq_ok.mpr ⟨_, hos', ?_⟩
    dsimp only
    rw [if_pos hcount]
  next => cases hd

end Replays

/-! ## Leaves and calls -/

section

variable {m : Nat}

theorem replays_leave (role : Role) : Replays m Eq role.plan role.plan := by
  have hleave : ∀ n, Replays m Eq (do if 0 < n then Plan.op (.drop (UInt32.ofNat n))
                                      return n)
      (do if 0 < n then Plan.op (.drop (UInt32.ofNat n))
          return n) := by
    intro n
    by_cases hpos : 0 < n
    · simp only [hpos, if_true]
      exact (Replays.op (.drop (UInt32.ofNat n))).andThen fun _ => Replays.pure rfl
    · simp only [hpos, if_false]
      exact Replays.pure rfl
  cases role with
  | value => exact Replays.pure rfl
  | alternative n => exact hleave n
  | letBody n => exact hleave n

/-- Of a binder that was resolved, the slot alone shows. -/
theorem replays_push {b b' : Binding} (h : b'.slot = b.slot) (role : Role) :
    Replays m Eq (Plan.op (.push (UInt32.ofNat b.slot)) >>= fun _ => role.plan)
      (Plan.op (.push (UInt32.ofNat b'.slot)) >>= fun _ => role.plan) := by
  rw [h]
  exact (Replays.op (.push (UInt32.ofNat b.slot))).andThen fun _ => replays_leave role

theorem replays_call (d : Decl) (arguments : Nat) :
    Replays m Eq (planCall d arguments) (planCall d arguments) := by
  unfold planCall
  split
  · exact Replays.op _
  · exact (Replays.op _).andThen fun _ => Replays.applies _

theorem replays_resolve (g : Globals) (name : String) :
    Replays m Eq (g.planResolve name) (g.planResolve name) := by
  unfold Globals.planResolve
  cases g.table.lookup? name with
  | none => exact Replays.fail
  | some d => exact Replays.pure rfl

theorem replays_constant (g : Globals) (name : String) (marker : Marker) :
    Replays m Eq (planConstant g name marker) (planConstant g name marker) := by
  unfold planConstant
  cases marker.kind with
  | neutral => exact Replays.op (.scnstr 0)
  | unreachable => exact Replays.op .unreachable
  | cnstr => exact Replays.op (.scnstr marker.index)
  | plain =>
    by_cases hzero : name = Term.natZero
    · simp only [hzero, if_true]
      exact Replays.op (.literal 0)
    · simp only [hzero, if_false]
      exact (replays_resolve g name).andThen fun d => replays_call d 0
  | proj => exact Replays.fail
  | cases => exact Replays.fail
  | other code reserved => exact Replays.fail

end

/-! ## Lists of terms -/

/-- In scopes that agree up to `m`, a term has the same plan from every identity that is not
    below `m`. -/
def TermReplays (m : Nat) (g : Globals) (t : Term) : Prop :=
  ∀ role depth scope scope', Scope.Agree m scope scope' →
    Replays m Eq (planTerm g t role depth scope) (planTerm g t role depth scope')

section Lists

variable {m : Nat} {g : Globals} {args : List Term} (hargs : ∀ a ∈ args, TermReplays m g a)
  {scope scope' : Scope} (hscope : Scope.Agree m scope scope')

include hargs hscope

theorem replays_args (depth : Nat) :
    Replays m Eq (planArgs g args depth scope) (planArgs g args depth scope') := by
  induction args generalizing depth with
  | nil => exact Replays.pure rfl
  | cons a as ih =>
    rw [List.forall_mem_cons] at hargs
    exact (hargs.1 .value depth _ _ hscope).andThen fun _ => ih hargs.2 (depth + 1)

theorem replays_argsRev (depth : Nat) :
    Replays m Eq (planArgsRev g args depth scope) (planArgsRev g args depth scope') := by
  induction args with
  | nil => exact Replays.pure rfl
  | cons a as ih =>
    rw [List.forall_mem_cons] at hargs
    exact (ih hargs.2).andThen fun _ =>
      (hargs.1 .value (depth + as.length) _ _ hscope).andThen fun _ => Replays.pure rfl

theorem replays_projection (index : UInt32) (depth : Nat) :
    Replays m Eq (planProjection g index args depth scope)
      (planProjection g index args depth scope') := by
  cases args with
  | nil => exact Replays.fail
  | cons subject extra =>
    rw [List.forall_mem_cons] at hargs
    exact (replays_argsRev hargs.2 hscope depth).andThen fun _ =>
      (hargs.1 .value (depth + extra.length) _ _ hscope).andThen fun _ =>
        (Replays.op (.proj index)).andThen fun _ => Replays.applies extra.length

theorem planAlternatives_replays {depth id id' last : Nat} {os : List (Nat × Outline)}
    (hid : m ≤ id) (hid' : m ≤ id')
    (hos : planAlternatives g args depth scope id = .ok (os, last)) :
    ∃ last', planAlternatives g args depth scope' id' = .ok (os, last') ∧ id ≤ last ∧
      last' + id = last + id' := by
  induction args generalizing id id' last os with
  | nil =>
    cases hos
    exact ⟨id', rfl, Nat.le_refl id, Nat.add_comm ..⟩
  | cons alt rest ih =>
    rw [List.forall_mem_cons] at hargs
    obtain ⟨first, hfirst, hos⟩ := Result.bind_eq_ok.mp hos
    obtain ⟨⟨more, last₂⟩, hmore, hos⟩ := Result.bind_eq_ok.mp hos
    cases hos
    obtain ⟨first', hfirst', hvalue, houtline, hle, hsum⟩ :=
      hargs.1 (.alternative 0) depth _ _ hscope id id' first hid hid' hfirst
    obtain ⟨last', hmore', hle', hsum'⟩ :=
      @ih hargs.2 first.lastId first'.lastId last more (by omega) (by omega) hmore
    refine ⟨last', ?_, by omega, by omega⟩
    rw [planAlternatives, hfirst', Result.ok_bind, hmore', Result.ok_bind, hvalue, houtline]
    rfl

theorem replays_analysis (head : CaseHead) (depth : Nat) :
    Replays m Eq (planAnalysis g head args depth scope)
      (planAnalysis g head args depth scope') := by
  unfold planAnalysis
  split
  · exact Replays.fail
  · split
    · exact Replays.fail
    · cases args with
      | nil => exact Replays.fail
      | cons major alts =>
        rw [List.forall_mem_cons] at hargs
        exact (hargs.1 .value depth _ _ hscope).andThen fun _ =>
          Replays.dispatch head fun id id' os last hid hid' hos =>
            planAlternatives_replays hargs.2 hscope hid hid' hos

theorem replays_app {fn : Term} (hfn : TermReplays m g fn) (role : Role) (depth : Nat) :
    Replays m Eq (planTerm g (.app fn args) role depth scope)
      (planTerm g (.app fn args) role depth scope') := by
  rw [planTerm, planTerm]
  refine Replays.andThen ?_ fun _ => replays_leave role
  cases g.head fn with
  | analysis head => exact replays_analysis hargs hscope head depth
  | cnstr index =>
    exact (replays_args hargs hscope depth).andThen fun _ =>
      Replays.op (.cnstr index (UInt32.ofNat args.length))
  | proj index => exact replays_projection hargs hscope index depth
  | neutral => exact Replays.op (.scnstr 0)
  | unreachable => exact Replays.op .unreachable
  | declared name =>
    exact (replays_resolve g name).andThen fun d =>
      (replays_argsRev hargs hscope depth).andThen fun _ => replays_call d args.length
  | unusable marker => exact Replays.fail
  | computed =>
    exact (replays_argsRev hargs hscope depth).andThen fun _ =>
      (hfn .value (depth + args.length) _ _ hscope).andThen fun _ => Replays.applies args.length

end Lists

section

variable {m : Nat} {g : Globals}

/-- The scopes that two let chains end with agree: their binders are beyond `m` in both. -/
theorem replays_bindings {bindings : List (String × Term)}
    (hbindings : ∀ b ∈ bindings, TermReplays m g b.2) (depth : Nat) {scope scope' : Scope}
    (hscope : Scope.Agree m scope scope') :
    Replays m (Scope.Agree m) (planBindings g bindings depth scope)
      (planBindings g bindings depth scope') := by
  induction bindings generalizing depth scope scope' with
  | nil => exact Replays.pure hscope
  | cons b bs ih =>
    rw [List.forall_mem_cons] at hbindings
    exact (hbindings.1 .value depth _ _ hscope).andThen fun _ =>
      Replays.fresh.bind fun _ _ hids =>
        ih hbindings.2 (depth + 1) (hscope.cons hids.1 hids.2 depth)

theorem replays_let {bindings : List (String × Term)} {body : Term}
    (hbindings : ∀ b ∈ bindings, TermReplays m g b.2) (hbody : TermReplays m g body) :
    TermReplays m g (.letIn bindings body) := by
  intro role depth scope scope' hscope
  have hvalues := replays_bindings hbindings depth hscope
  have hclosed := fun inner inner' (hinner : Scope.Agree m inner inner') =>
    (hbody (.letBody bindings.length) (depth + bindings.length) _ _ hinner).andThen
      fun _ => replays_leave role
  rw [planTerm, planTerm]
  cases role with
  | value => exact hvalues.bind hclosed
  | alternative n => exact hvalues.bind hclosed
  | letBody n => exact hvalues.bind fun inner inner' hinner => hbody _ _ _ _ hinner

/-! ## Terms -/

/-- Where no local of a term has an identity beyond `m`, its plan does not depend on the identities
    that binders beyond `m` take. -/
theorem replays_term {t : Term} (ht : ∀ id ∈ t.locals, id.toNat ≤ m) : TermReplays m g t := by
  induction t using Term.ind with
  | app fn args ihfn ihargs =>
    rw [Term.locals, List.forall_mem_append, Term.localsOfArgs_eq_flatMap,
      List.forall_mem_flatMap] at ht
    exact fun role depth scope scope' hscope =>
      replays_app (fun a ha => ihargs a ha (ht.2 a ha)) hscope (ihfn ht.1) role depth
  | letIn bindings body ihbindings ihbody =>
    rw [Term.locals, List.forall_mem_append, Term.localsOfBindings_eq_flatMap,
      List.forall_mem_flatMap] at ht
    exact replays_let (fun b hb => ihbindings b hb (ht.1 b hb)) (ihbody ht.2)
  | absent => exact fun role depth scope scope' hscope => Replays.fail
  | sort level => exact fun role depth scope scope' hscope => Replays.fail
  | mvar name => exact fun role depth scope scope' hscope => Replays.fail
  | pi binder domain body => exact fun role depth scope scope' hscope => Replays.fail
  | foreign name args => exact fun role depth scope scope' hscope => Replays.fail
  | var i =>
    intro role depth scope scope' hscope
    rw [planTerm, planTerm]
    cases hb : scope[i.toNat]? with
    | none => exact Replays.fail
    | some b =>
      obtain ⟨b', hb', hslot⟩ := hscope.exists_getElem? hb
      rw [hb']
      exact replays_push hslot role
  | fvar id name =>
    intro role depth scope scope' hscope
    rw [planTerm, planTerm]
    cases hb : scope.find? fun b => b.id == id.toNat with
    | none => exact Replays.fail
    | some b =>
      obtain ⟨b', hb', hslot⟩ := hscope.exists_find? (ht id (List.mem_singleton.mpr rfl)) hb
      rw [hb']
      exact replays_push hslot role
  | const name marker =>
    exact fun role depth scope scope' hscope =>
      (replays_constant g name marker).andThen fun _ => replays_leave role
  | nat value =>
    exact fun role depth scope scope' hscope =>
      (Replays.op (.literal value)).andThen fun _ => replays_leave role
  | quote body =>
    exact fun role depth scope scope' hscope =>
      (Replays.op (.quotation body)).andThen fun _ => replays_leave role
  | ann name body ih =>
    exact fun role depth scope scope' hscope =>
      (ih ht .value depth _ _ hscope).andThen fun _ => replays_leave role
  | lam binder body ih =>
    intro role depth scope scope' hscope
    cases role with
    | value => exact Replays.fail
    | letBody n => exact Replays.fail
    | alternative n =>
      exact Replays.fresh.bind fun _ _ hids =>
        ih ht (.alternative (n + 1)) (depth + 1) _ _ (hscope.cons hids.1 hids.2 depth)

end

end Codegen

end TermVM
