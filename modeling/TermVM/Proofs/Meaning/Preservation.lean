/-
  TermVM.Proofs.Meaning.Preservation

  Code generation preserves meaning.

  `Means p frame x R` compares a plan with a computation of the evaluator: the
  outline that the plan draws, run on the frame, ends as the computation does,
  and where both end with a result, `R` relates the value of the plan, the
  result and the frame.  The relation composes along sequences, so the proof
  follows the evaluator construct by construct.

  What ties the two together is `Scope.Holds`: the slots of the binders in
  scope hold the values of the environment.  Every construct only adds values
  on top of the frame while it is at work, so it stays true of all enclosing
  binders.
-/
import TermVM.Proofs.Meaning.Machine

namespace TermVM.Codegen

open Meaning Machine Outline

variable {V : Type}

/-! ## Plans and computations -/

/-- A run ends as a computation does, and not because something has no meaning. -/
def Ends {β : Type} (r : Outcome (List V)) : Outcome β → (β → List V → Prop) → Prop
  | .ok b, R => ∃ frame, r = .ok frame ∧ R b frame
  | .error h, _ => r = .error h ∧ h ≠ .stuck

/-- Whatever outline a plan draws ends on a frame as a computation does. -/
def Means {α β : Type} (I : Interp V) (table : DeclTable) (p : Plan α) (frame : List V)
    (x : Outcome β) (R : α → β → List V → Prop) : Prop :=
  ∀ id d, p id = .ok d → Ends (exec I table d.outline frame) x (R d.value)

/-- A value has been put on top of a frame. -/
def Pushed {α : Type} (frame : List V) (_ : α) (v : V) (frame' : List V) : Prop :=
  frame' = frame ++ [v]

namespace Means

variable {α β γ δ : Type} {I : Interp V} {table : DeclTable} {frame : List V}

theorem pure {a : α} {b : β} {R : α → β → List V → Prop} (h : R a b frame) :
    Means I table (Pure.pure a) frame (.ok b) R := by
  rintro id d ⟨⟩
  exact ⟨frame, rfl, h⟩

theorem fail {f : Failure} {x : Outcome β} {R : α → β → List V → Prop} :
    Means I table (Plan.fail f) frame x R := by
  rintro id d ⟨⟩

theorem op {i : Instr} {b : β} {frame' : List V} {R : Unit → β → List V → Prop}
    (hi : perform I table i frame = .ok frame') (h : R () b frame') :
    Means I table (Plan.op i) frame (.ok b) R := by
  rintro id d ⟨⟩
  exact ⟨frame', hi, h⟩

theorem trap {R : Unit → β → List V → Prop} :
    Means I table (Plan.op .unreachable) frame (.error .trap) R := by
  rintro id d ⟨⟩
  exact ⟨rfl, by decide⟩

theorem bind {p : Plan α} {f : α → Plan γ} {x : Outcome β} {y : β → Outcome δ}
    {R : α → β → List V → Prop} {S : γ → δ → List V → Prop} (hp : Means I table p frame x R)
    (hf : ∀ a b frame', R a b frame' → Means I table (f a) frame' (y b) S) :
    Means I table (p >>= f) frame (x >>= y) S := by
  intro id d hd
  obtain ⟨first, hfirst, second, hsecond, rfl⟩ := Plan.bind_eq_ok.mp hd
  have hp := hp id first hfirst
  simp only [exec]
  cases x with
  | error h =>
    rw [hp.1]
    exact ⟨rfl, hp.2⟩
  | ok b =>
    obtain ⟨frame', hrun, hR⟩ := hp
    rw [hrun]
    exact hf first.value b frame' hR first.lastId second hsecond

/-- A plan that does its part on its own. -/
theorem andThen {p : Plan α} {f : α → Plan γ} {b : β} {y : Outcome δ}
    {R : α → β → List V → Prop} {S : γ → δ → List V → Prop} (hp : Means I table p frame (.ok b) R)
    (hf : ∀ a frame', R a b frame' → Means I table (f a) frame' y S) :
    Means I table (p >>= f) frame y S := by
  intro id d hd
  obtain ⟨first, hfirst, second, hsecond, rfl⟩ := Plan.bind_eq_ok.mp hd
  obtain ⟨frame', hrun, hR⟩ := hp id first hfirst
  simp only [exec, hrun, Result.ok_bind]
  exact hf first.value frame' hR first.lastId second hsecond

/-- A computation that only rearranges a result. -/
theorem map {p : Plan α} {x : Outcome β} {k : β → δ} {R : α → β → List V → Prop}
    {S : α → δ → List V → Prop} (hp : Means I table p frame x R)
    (hS : ∀ a b frame', R a b frame' → S a (k b) frame') :
    Means I table p frame (x >>= fun b => .ok (k b)) S := by
  intro id d hd
  have hp := hp id d hd
  cases x with
  | error h => exact hp
  | ok b =>
    obtain ⟨frame', hrun, hR⟩ := hp
    exact ⟨frame', hrun, hS _ _ _ hR⟩

theorem op_andThen {i : Instr} {p : Plan γ} {frame' : List V} {y : Outcome δ}
    {S : γ → δ → List V → Prop} (hi : perform I table i frame = .ok frame')
    (hp : Means I table p frame' y S) : Means I table (Plan.op i >>= fun _ => p) frame y S :=
  (Means.op (b := ()) (R := fun _ _ f => f = frame') hi rfl).andThen fun _ _ hf => hf ▸ hp

theorem fresh_andThen {f : Nat → Plan γ} {y : Outcome δ} {S : γ → δ → List V → Prop}
    (hf : ∀ id, Means I table (f id) frame y S) : Means I table (Plan.fresh >>= f) frame y S := by
  intro id d hd
  obtain ⟨first, hfirst, second, hsecond, rfl⟩ := Plan.bind_eq_ok.mp hd
  cases hfirst
  exact hf (id + 1) (id + 1) second hsecond

end Means

/-! ## Instructions -/

section Instructions

variable {I : Interp V} {table : DeclTable} {frame : List V}

theorem perform_push {slot : Nat} {v : V} (hv : frame[slot]? = some v)
    (hlen : frame.length < 2 ^ 32) :
    perform I table (.push (UInt32.ofNat slot)) frame = .ok (frame ++ [v]) := by
  have hslot := (List.getElem?_eq_some_iff.mp hv).1
  have hword : (UInt32.ofNat slot).toNat = slot :=
    UInt32.toNat_ofNat_of_lt' (show slot < 2 ^ 32 by omega)
  simp [perform, Instr.push, hword, hv]

theorem perform_drop {taken : List V} {v : V} (hlen : taken.length < 2 ^ 32) :
    perform I table (.drop (UInt32.ofNat taken.length)) (frame ++ taken ++ [v])
      = .ok (frame ++ [v]) := by
  have hword : (UInt32.ofNat taken.length).toNat = taken.length := UInt32.toNat_ofNat_of_lt' hlen
  simp only [perform, Instr.drop, hword, popTop_append, Result.ok_bind, pop_append frame taken rfl,
    Result.pure_eq]

theorem perform_cnstr {fields : List V} (index : UInt32) (hlen : fields.length < 2 ^ 32) :
    perform I table (.cnstr index (UInt32.ofNat fields.length)) (frame ++ fields)
      = .ok (frame ++ [I.cnstr index fields]) := by
  have hword : (UInt32.ofNat fields.length).toNat = fields.length :=
    UInt32.toNat_ofNat_of_lt' hlen
  simp only [perform, Instr.cnstr, hword, Result.ok_bind, pop_append frame fields rfl,
    Result.pure_eq]

theorem perform_apply (callable argument : V) :
    perform I table .apply (frame ++ [argument] ++ [callable])
      = .ok (frame ++ [I.apply callable argument]) := by
  simp only [perform, Instr.apply, popTop_append, Result.ok_bind, Result.pure_eq]

theorem perform_proj (index : UInt32) (v : V) :
    perform I table (.proj index) (frame ++ [v]) = .ok (frame ++ [I.proj index v]) := by
  simp only [perform, Instr.proj, popTop_append, Result.ok_bind, Result.pure_eq]

theorem perform_closure {args : List V} (index : UInt32) (hlen : args.length < 2 ^ 32) :
    perform I table (.closure index (UInt32.ofNat args.length)) (frame ++ args.reverse)
      = .ok (frame ++ [I.close index args]) := by
  have hword : (UInt32.ofNat args.length).toNat = args.length := UInt32.toNat_ofNat_of_lt' hlen
  simp only [perform, Instr.closure, hword, Result.ok_bind,
    pop_append frame args.reverse (List.length_reverse ..), Result.pure_eq, List.reverse_reverse]

theorem perform_invoke {d : Decl} {m : Mnemonic} {args : List V}
    (hat : table.at? d.index = some d)
    (hm : m ∈ [.invokeGlobal, .invokeBuiltin, .invokeNative]) (hkind : d.kind = Verify.callee m)
    (hargs : args.length = d.arity.toNat) :
    perform I table (.invoke m d.index) (frame ++ args.reverse)
      = .ok (frame ++ [I.call d.index args]) := by
  have hpop := pop_append frame args.reverse ((List.length_reverse ..).trans hargs)
  simp only [List.mem_cons, List.not_mem_nil, or_false] at hm
  rcases hm with rfl | rfl | rfl <;>
    simp [perform, perform.invoke, Instr.invoke, hat, hkind, hpop]

end Instructions

/-! ## Leaves and calls -/

section Leaves

variable {I : Interp V} {g : Globals} {frame : List V}

theorem means_applies (f : V) (args : List V) :
    Means I g.table (Plan.applies args.length) (frame ++ args.reverse ++ [f])
      (.ok (I.applyAll f args)) (Pushed frame) := by
  induction args generalizing f with
  | nil => exact Means.pure (by simp [Pushed, Interp.applyAll])
  | cons a as ih =>
    rw [List.reverse_cons, ← List.append_assoc]
    exact Means.op_andThen (perform_apply f a) (ih (I.apply f a))

theorem means_leave {rest taken : List V} {v : V} {role : Role} (htaken : taken.length = role.bound)
    (hlen : role.bound < 2 ^ 32) :
    Means I g.table role.plan (rest ++ taken ++ [v]) (.ok v) (Pushed rest) := by
  have hleave : ∀ n, taken.length = n → n < 2 ^ 32 → Means I g.table
      (do if 0 < n then Plan.op (.drop (UInt32.ofNat n))
          return n) (rest ++ taken ++ [v]) (.ok v) (Pushed rest) := by
    rintro n rfl hn
    by_cases hpos : 0 < taken.length
    · simp only [hpos, if_true]
      exact Means.op_andThen (perform_drop hn) (Means.pure rfl)
    · obtain rfl : taken = [] := List.length_eq_zero_iff.mp (by omega)
      simp only [hpos, if_false]
      exact Means.pure (by simp [Pushed])
  cases role with
  | value =>
    obtain rfl : taken = [] := List.length_eq_zero_iff.mp htaken
    exact Means.pure (by simp [Pushed])
  | alternative n => exact hleave n htaken hlen
  | letBody n => exact hleave n htaken hlen

/-- What pushes a value, followed by the removal of what the surroundings had bound. -/
theorem Means.leave {α : Type} {rest taken : List V} {role : Role} {p : Plan α} {x : Outcome V}
    (hp : Means I g.table p (rest ++ taken) x (Pushed (rest ++ taken)))
    (htaken : taken.length = role.bound) (hlen : role.bound < 2 ^ 32) :
    Means I g.table (p >>= fun _ => role.plan) (rest ++ taken) x (Pushed rest) := by
  rw [← Result.bind_ok x]
  exact hp.bind fun _ v frame' hframe => hframe ▸ means_leave htaken hlen

/-- A global that has a record. -/
theorem means_resolve {α : Type} {name : String} {f : Decl → Plan α} {y : Decl → Outcome V}
    {S : α → V → List V → Prop}
    (hf : ∀ d, g.table.lookup? name = some d → Means I g.table (f d) frame (y d) S) :
    Means I g.table (g.planResolve name >>= f) frame
      (match g.table.lookup? name with
        | none => .error .stuck
        | some d => y d) S := by
  unfold Globals.planResolve
  cases hd : g.table.lookup? name with
  | none => exact Means.fail.andThen (b := ()) (R := fun _ _ _ => False) fun _ _ h => h.elim
  | some d =>
    refine (Means.pure (b := ()) (R := fun a _ f => a = d ∧ f = frame) ⟨rfl, rfl⟩).andThen ?_
    rintro _ _ ⟨rfl, rfl⟩
    exact hf _ hd

variable (hwf : g.table.WellFormed) (hsize : g.table.size ≤ 2 ^ 32)

include hwf hsize

theorem means_call {d : Decl} {name : String} (hd : g.table.lookup? name = some d)
    (args : List V) :
    Means I g.table (planCall d args.length) (frame ++ args.reverse) (.ok (I.enter d args))
      (Pushed frame) := by
  have hat := hwf.at?_index hsize hd
  have hkind := hwf.kind_of_lookup? hd
  have harity : d.arity.toNat < 2 ^ 32 := d.arity.toNat_lt
  unfold planCall Interp.enter
  by_cases hless : args.length < d.arity.toNat
  · rw [if_pos hless, if_pos hless]
    exact Means.op (perform_closure d.index (by omega)) rfl
  · rw [if_neg hless, if_neg hless]
    -- the call takes the first arguments, which are on top
    have hsplit : args.reverse =
        (args.drop d.arity.toNat).reverse ++ (args.take d.arity.toNat).reverse := by
      rw [← List.reverse_append, List.take_append_drop]
    have htake : (args.take d.arity.toNat).length = d.arity.toNat := by
      rw [List.length_take]
      omega
    rw [hsplit, ← List.append_assoc, ← List.length_drop]
    refine Means.op_andThen (perform_invoke hat ?_ ?_ htake) (means_applies _ _)
    · cases d.kind <;> simp
    · cases hk : d.kind with
      | other code h => simp [hk] at hkind
      | _ => rfl

theorem means_constant (name : String) (marker : Marker) :
    Means I g.table (planConstant g name marker) frame (bare I g.table name marker)
      (Pushed frame) := by
  unfold planConstant bare
  cases marker.kind with
  | neutral => exact Means.op rfl rfl
  | unreachable => exact Means.trap
  | cnstr => exact Means.op rfl rfl
  | plain =>
    by_cases hzero : name = Term.natZero
    · simp only [hzero, if_true]
      exact Means.op rfl rfl
    · simp only [hzero, if_false]
      exact means_resolve fun d hd => by
        simpa [lastToFirst] using @means_call V I g frame hwf hsize d name hd []
  | proj => exact Means.fail
  | cases => exact Means.fail
  | other code h => exact Means.fail

end Leaves

/-! ## Scopes and environments -/

/-- The slots of the binders in scope hold the values of the environment. -/
def Scope.Holds (scope : Scope) (frame env : List V) : Prop :=
  scope.map (fun b => frame[b.slot]?) = env.map some

section Scopes

variable {scope : Scope} {frame env : List V}

theorem Scope.Holds.lookup (h : scope.Holds frame env) {i : Nat} {b : Binding}
    (hb : scope[i]? = some b) : ∃ v, frame[b.slot]? = some v ∧ env[i]? = some v := by
  have hi := congrArg (·[i]?) h
  simp only [List.getElem?_map, hb, Option.map_some] at hi
  cases hv : env[i]? with
  | none => simp [hv] at hi
  | some v => exact ⟨v, by simpa [hv] using hi, rfl⟩

theorem Scope.Holds.slot_lt (h : scope.Holds frame env) : scope.Within frame.length := by
  intro b hb
  obtain ⟨i, hi⟩ := List.getElem?_of_mem hb
  obtain ⟨v, hv, -⟩ := h.lookup hi
  exact (List.getElem?_eq_some_iff.mp hv).1

/-- Values on top of the frame leave the slots in scope alone. -/
theorem Scope.Holds.append (h : scope.Holds frame env) (more : List V) :
    scope.Holds (frame ++ more) env := by
  refine Eq.trans (List.map_congr_left fun b hb => ?_) h
  exact List.getElem?_append_left (h.slot_lt b hb)

theorem Scope.Holds.cons (h : scope.Holds frame env) (id : Nat) (v : V) :
    Scope.Holds (⟨id, frame.length⟩ :: scope) (frame ++ [v]) (v :: env) := by
  have hrest : scope.Holds (frame ++ [v]) env := h.append [v]
  unfold Scope.Holds at hrest ⊢
  simp [hrest]

theorem holds_parameters (frame : List V) : (parameters frame.length).Holds frame frame := by
  refine List.ext_getElem? fun i => ?_
  rcases Nat.lt_or_ge i frame.length with hi | hi
  · simp [parameters, hi]
  · simp [parameters, hi]

end Scopes

/-! ## Lists of terms -/

/-- The use that the surroundings make of a term. -/
def Role.use (role : Role) (fields : List V) : Use V :=
  match role with
  | alternative _ => .branch fields
  | _ => .chain none

/-- The code of a term does what evaluation does, in whatever surroundings: above `rest` the frame
    holds what the surroundings have bound, and the fields that the term still takes. -/
def TermMeans (I : Interp V) (g : Globals) (t : Term) : Prop :=
  ∀ (role : Role) (rest taken fields : List V) (scope : Scope) (env : List V),
    taken.length = role.bound → fields.length = role.pending t →
    scope.Holds (rest ++ taken) env → rest.length + role.bound + t.nodes < 2 ^ 32 →
    Means I g.table (planTerm g t role (rest.length + role.bound) scope) (rest ++ taken ++ fields)
      (eval I g t env (role.use fields)) (Pushed rest)

section Lists

variable {I : Interp V} {g : Globals}

theorem TermMeans.value {t : Term} (h : TermMeans I g t) {frame : List V} {scope : Scope}
    {env : List V} (hscope : scope.Holds frame env) (hfits : frame.length + t.nodes < 2 ^ 32) :
    Means I g.table (planTerm g t .value frame.length scope) frame (eval I g t env (.chain none))
      (Pushed frame) := by
  have hvalue := h .value frame [] [] scope env rfl rfl (by simpa using hscope) hfits
  simpa [Role.bound, Role.use] using hvalue

theorem means_args {args : List Term} (h : ∀ a ∈ args, TermMeans I g a) {frame : List V}
    {scope : Scope} {env : List V} (hscope : scope.Holds frame env)
    (hfits : frame.length + Term.nodesOfArgs args < 2 ^ 32) :
    Means I g.table (planArgs g args frame.length scope) frame (firstToLast (evalArgs I g args env))
      fun _ vs frame' => vs.length = args.length ∧ frame' = frame ++ vs := by
  induction args generalizing frame with
  | nil => exact Means.pure ⟨rfl, by simp⟩
  | cons a as ih =>
    rw [List.forall_mem_cons] at h
    have hpos := a.nodes_pos
    simp only [Term.nodesOfArgs] at hfits
    refine (h.1.value hscope (by omega)).bind fun _ v frame' hframe => ?_
    subst hframe
    have hrest := @ih h.2 (frame ++ [v]) (hscope.append [v]) (by simp; omega)
    rw [List.length_append, List.length_singleton] at hrest
    refine hrest.map ?_
    rintro _ vs _ ⟨hlen, rfl⟩
    exact ⟨by simp [hlen], by simp⟩

theorem means_argsRev {args : List Term} (h : ∀ a ∈ args, TermMeans I g a) {frame : List V}
    {scope : Scope} {env : List V} (hscope : scope.Holds frame env)
    (hfits : frame.length + Term.nodesOfArgs args < 2 ^ 32) :
    Means I g.table (planArgsRev g args frame.length scope) frame
      (lastToFirst (evalArgs I g args env))
      fun _ vs frame' => vs.length = args.length ∧ frame' = frame ++ vs.reverse := by
  induction args with
  | nil => exact Means.pure ⟨rfl, by simp⟩
  | cons a as ih =>
    rw [List.forall_mem_cons] at h
    have hlen := Term.length_le_nodesOfArgs as
    have hpos := a.nodes_pos
    simp only [Term.nodesOfArgs] at hfits
    refine (ih h.2 (by omega)).bind ?_
    rintro _ vs _ ⟨hvs, rfl⟩
    have hfirst := @TermMeans.value V I g a h.1 (frame ++ vs.reverse) scope env
      (hscope.append _) (by simp only [List.length_append, List.length_reverse]; omega)
    rw [List.length_append, List.length_reverse, hvs] at hfirst
    refine hfirst.bind ?_
    rintro _ v _ rfl
    exact Means.pure ⟨by simp [hvs], by simp⟩

theorem means_bindings {bindings : List (String × Term)} (h : ∀ b ∈ bindings, TermMeans I g b.2)
    {frame : List V} {scope : Scope} {env : List V} (hscope : scope.Holds frame env)
    (hfits : frame.length + Term.nodesOfBindings bindings < 2 ^ 32) :
    Means I g.table (planBindings g bindings frame.length scope) frame
      (evalBindings I g bindings env)
      fun inner env' frame' => ∃ values : List V, values.length = bindings.length ∧
        frame' = frame ++ values ∧ inner.Holds frame' env' := by
  induction bindings generalizing frame scope env with
  | nil => exact Means.pure ⟨[], rfl, by simp, by simpa using hscope⟩
  | cons b bs ih =>
    rw [List.forall_mem_cons] at h
    have hpos := b.2.nodes_pos
    simp only [Term.nodesOfBindings] at hfits
    refine (h.1.value hscope (by omega)).bind ?_
    rintro _ v _ rfl
    refine Means.fresh_andThen fun id => ?_
    have hrest := @ih h.2 (frame ++ [v]) _ _ (hscope.cons id v) (by simp; omega)
    rw [List.length_append, List.length_singleton] at hrest
    rw [← Result.bind_ok (evalBindings I g bs (v :: env))]
    refine hrest.map ?_
    rintro inner env' _ ⟨values, hlen, rfl, hinner⟩
    exact ⟨v :: values, by simp [hlen], by simp, hinner⟩

theorem means_projection {index : UInt32} {subject : Term} {extra : List Term}
    (h : ∀ a ∈ subject :: extra, TermMeans I g a) {frame : List V} {scope : Scope} {env : List V}
    (hscope : scope.Holds frame env)
    (hfits : frame.length + Term.nodesOfArgs (subject :: extra) < 2 ^ 32) :
    Means I g.table (planProjection g index (subject :: extra) frame.length scope) frame
      (do let vs ← lastToFirst (evalArgs I g extra env)
          let v ← eval I g subject env (.chain none)
          return I.applyAll (I.proj index v) vs)
      (Pushed frame) := by
  rw [List.forall_mem_cons] at h
  have hlen := Term.length_le_nodesOfArgs extra
  have hpos := subject.nodes_pos
  simp only [Term.nodesOfArgs] at hfits
  refine (means_argsRev h.2 hscope (by omega)).bind ?_
  rintro _ vs _ ⟨hvs, rfl⟩
  have hsubject := @TermMeans.value V I g subject h.1 (frame ++ vs.reverse) scope env
    (hscope.append _) (by simp only [List.length_append, List.length_reverse]; omega)
  rw [List.length_append, List.length_reverse, hvs] at hsubject
  refine hsubject.bind ?_
  rintro _ v _ rfl
  exact Means.op_andThen (perform_proj index v) (hvs ▸ means_applies _ vs)

/-! ## Dispatches -/

variable (hwf : g.table.WellFormed) (hsize : g.table.size ≤ 2 ^ 32)

include hwf hsize

/-- The alternatives of a dispatch, whichever is chosen and whatever fields it is entered with. -/
theorem ends_alternatives {alts : List Term} (h : ∀ a ∈ alts, TermMeans I g a) {frame : List V}
    {scope : Scope} {env : List V} (hscope : scope.Holds frame env)
    (hfits : frame.length + Term.nodesOfArgs alts < 2 ^ 32) {id id' : Nat}
    {os : List (Nat × Outline)}
    (hos : planAlternatives g alts frame.length scope id = .ok (os, id')) (k : Nat)
    (fields : List V) :
    Ends (execAlternatives I g.table os k frame fields)
      (match (evalArgs I g alts env)[k]? with
        | some a => a.branch fields
        | none => .error .mismatch) (Pushed frame ()) := by
  induction alts generalizing k id os with
  | nil =>
    cases hos
    exact ⟨rfl, by decide⟩
  | cons alt rest ih =>
    rw [List.forall_mem_cons] at h
    have hpos := alt.nodes_pos
    simp only [Term.nodesOfArgs] at hfits
    obtain ⟨first, hfirst, hos⟩ := Result.bind_eq_ok.mp hos
    obtain ⟨⟨more, id₂⟩, hmore, hos⟩ := Result.bind_eq_ok.mp hos
    cases hos
    cases k with
    | succ k => exact ih h.2 (by omega) hmore k
    | zero =>
      have hvalue : first.value = alt.arity := by
        have hdraws := draws_term hwf hsize alt (.alternative 0) frame.length scope hscope.slot_lt
          (by simp only [Role.bound]; omega)
        simpa using (hdraws id first hfirst).2.2 0 rfl
      rw [execAlternatives, hvalue]
      show Ends _ (eval I g alt env (.branch fields)) _
      by_cases hlen : fields.length = alt.arity
      · rw [if_pos hlen]
        have hmeans := h.1 (.alternative 0) frame [] fields scope env rfl hlen
          (by simpa using hscope) (by simp only [Role.bound]; omega)
        rw [List.append_nil] at hmeans
        exact hmeans id first hfirst
      · rw [if_neg hlen, eval_branch_mismatch I alt env fields hlen]
        exact ⟨rfl, by decide⟩

theorem means_analysis {head : CaseHead} {args : List Term} (h : ∀ a ∈ args, TermMeans I g a)
    {frame : List V} {scope : Scope} {env : List V} (hscope : scope.Holds frame env)
    (hfits : frame.length + Term.nodesOfArgs args < 2 ^ 32) :
    Means I g.table (planAnalysis g head args frame.length scope) frame
      (analyse I head.dispatch (evalArgs I g args env)) (Pushed frame) := by
  unfold planAnalysis
  split
  · exact Means.fail
  split
  · exact Means.fail
  cases args with
  | nil => exact Means.fail
  | cons major alts =>
    rw [List.forall_mem_cons] at h
    have hpos := major.nodes_pos
    simp only [Term.nodesOfArgs] at hfits
    refine (h.1.value hscope (by omega)).bind ?_
    rintro _ v _ rfl id d hd
    obtain ⟨⟨os, id'⟩, hos, hd⟩ := Result.bind_eq_ok.mp hd
    dsimp only at hd
    split at hd
    · cases hd
      simp only [exec, popTop_append, Result.ok_bind]
      exact ends_alternatives hwf hsize h.2 hscope (by omega) hos _ _
    · cases hd

end Lists

/-! ## Applications -/

section Terms

variable {I : Interp V} {g : Globals}

/-- A constant at the head of an application means what code generation takes it for. -/
theorem applied_eq (name : String) (marker : Marker) (args : List (Arg V)) :
    applied I g name marker args =
      match g.head (.const name marker) with
      | .analysis head => analyse I head.dispatch args
      | .cnstr index => firstToLast args >>= fun vs => .ok (I.cnstr index vs)
      | .proj index =>
          match args with
          | [] => .error .stuck
          | subject :: extra => do
              let vs ← lastToFirst extra
              let v ← subject.value
              return I.applyAll (I.proj index v) vs
      | .neutral => .ok (I.cnstr 0 [])
      | .unreachable => .error .trap
      | .declared name => callGlobal I g.table name args
      | .unusable _ => .error .stuck
      | .computed => .error .stuck := by
  unfold applied Globals.head Globals.caseHead?
  cases hkind : marker.kind with
  | plain =>
    by_cases hnat : name = Term.natCasesOn
    · simp [hkind, hnat, CaseHead.dispatch]
    · cases ha : g.analyzers.bind (·.lookup? name) with
      | none => simp [hkind, hnat, ha]
      | some a => simp [hkind, hnat, ha, CaseHead.dispatch]
  | proj => cases args <;> simp [hkind]
  | _ => simp [hkind, CaseHead.dispatch]

theorem head_const_ne_computed (name : String) (marker : Marker) :
    g.head (.const name marker) ≠ .computed := by
  cases hcase : g.caseHead? name marker with
  | some head => simp [Globals.head, hcase]
  | none => cases hkind : marker.kind <;> simp [Globals.head, hcase, hkind]

/-- A head that is neither a constant nor an application is evaluated after its arguments. -/
theorem means_computed {fn : Term} {args : List Term} (hfn : TermMeans I g fn)
    (hargs : ∀ a ∈ args, TermMeans I g a) {frame : List V} {scope : Scope} {env : List V}
    (hscope : scope.Holds frame env)
    (hfits : frame.length + (fn.nodes + Term.nodesOfArgs args) < 2 ^ 32) :
    Means I g.table
      (planArgsRev g args frame.length scope >>= fun _ =>
        planTerm g fn .value (frame.length + args.length) scope >>= fun _ =>
          Plan.applies args.length) frame
      (feed I (eval I g fn env (.chain none)) (some (evalArgs I g args env))) (Pushed frame) := by
  have hlen := Term.length_le_nodesOfArgs args
  refine (means_argsRev hargs hscope (by omega)).bind ?_
  rintro _ vs _ ⟨hvs, rfl⟩
  have hhead := @TermMeans.value V I g fn hfn (frame ++ vs.reverse) scope env
    (hscope.append _) (by simp only [List.length_append, List.length_reverse]; omega)
  rw [List.length_append, List.length_reverse, hvs] at hhead
  refine hhead.bind ?_
  rintro _ f _ rfl
  exact hvs ▸ means_applies f vs

/-- What has the value of the head alone. -/
theorem Means.leaf {α : Type} {t : Term} {role : Role} {rest taken fields env : List V}
    {p : Plan α} (ht : t.arity = 0) (htaken : taken.length = role.bound)
    (hfields : fields.length = role.pending t) (hlen : role.bound < 2 ^ 32)
    (hp : Means I g.table p (rest ++ taken) (eval I g t env (.chain none))
      (Pushed (rest ++ taken))) :
    Means I g.table (p >>= fun _ => role.plan) (rest ++ taken ++ fields)
      (eval I g t env (role.use fields)) (Pushed rest) := by
  obtain rfl : fields = [] :=
    List.length_eq_zero_iff.mp (by cases role <;> simp_all [Role.pending])
  have huse : eval I g t env (role.use []) = eval I g t env (.chain none) := by
    cases role with
    | alternative n => exact eval_branch_nil I ht env
    | _ => rfl
  rw [List.append_nil, huse]
  exact hp.leave htaken hlen

theorem means_let {bindings : List (String × Term)} {body : Term}
    (hbindings : ∀ b ∈ bindings, TermMeans I g b.2) (hbody : TermMeans I g body) :
    TermMeans I g (.letIn bindings body) := by
  intro role rest taken fields scope env htaken hfields hscope hfits
  obtain rfl : fields = [] := List.length_eq_zero_iff.mp (by cases role <;> exact hfields)
  have heval : eval I g (.letIn bindings body) env (role.use []) =
      evalBindings I g bindings env >>= fun inner => eval I g body inner (.chain none) := by
    cases role <;> rfl
  have hpos := body.nodes_pos
  have hlen := Term.length_le_nodesOfBindings bindings
  have hdepth : (rest ++ taken).length = rest.length + role.bound := by simp [htaken]
  simp only [Term.nodes] at hfits
  have hvalues := means_bindings hbindings hscope (by omega)
  rw [hdepth] at hvalues
  rw [List.append_nil, planTerm, heval]
  refine hvalues.bind ?_
  rintro inner env' _ ⟨values, hcount, rfl, hinner⟩
  -- a let that does not continue a chain drops its own values
  have hclosed : Means I g.table
      (planTerm g body (.letBody bindings.length) (rest.length + role.bound + bindings.length) inner
        >>= fun _ => role.plan) (rest ++ taken ++ values) (eval I g body env' (.chain none))
      (Pushed rest) := by
    have hinside := hbody (.letBody bindings.length) (rest ++ taken) values [] inner env' hcount rfl
      hinner (by simp only [Role.bound]; omega)
    rw [List.append_nil, hdepth] at hinside
    rw [← Result.bind_ok (eval I g body env' (.chain none))]
    refine hinside.bind ?_
    rintro _ v _ rfl
    exact means_leave htaken (by omega)
  cases role with
  | value => exact hclosed
  | alternative n => exact hclosed
  | letBody n =>
    simp only [Role.bound, Nat.add_assoc] at htaken hfits ⊢
    have hinside := hbody (.letBody (n + bindings.length)) rest (taken ++ values) [] inner env'
      (by simp [Role.bound, htaken, hcount]) rfl (by simpa using hinner)
      (by simp only [Role.bound]; omega)
    simpa [Role.use, Role.bound] using hinside

variable (hwf : g.table.WellFormed) (hsize : g.table.size ≤ 2 ^ 32)

include hwf hsize

theorem means_app {fn : Term} {args : List Term} (hfn : TermMeans I g fn)
    (hargs : ∀ a ∈ args, TermMeans I g a) (happ : fn.isApp = false) :
    TermMeans I g (.app fn args) := by
  intro role rest taken fields scope env htaken hfields hscope hfits
  obtain rfl : fields = [] := List.length_eq_zero_iff.mp (by cases role <;> exact hfields)
  have heval : eval I g (.app fn args) env (role.use []) =
      eval I g fn env (.chain (some (evalArgs I g args env))) := by
    cases role <;> simp [Role.use, eval, Use.settle]
  have hpos := fn.nodes_pos
  have hlen := Term.length_le_nodesOfArgs args
  have hdepth : rest.length + role.bound = (rest ++ taken).length := by simp [htaken]
  simp only [Term.nodes] at hfits
  rw [List.append_nil, planTerm, heval]
  refine Means.leave ?_ htaken (by omega)
  rw [hdepth] at hfits ⊢
  generalize rest ++ taken = frame at hscope hfits
  cases fn with
  | app fn args => cases happ
  | const name marker =>
    show Means _ _ _ _ (applied I g name marker (evalArgs I g args env)) _
    rw [applied_eq]
    cases hhead : g.head (.const name marker) with
    | analysis head => exact means_analysis hwf hsize hargs hscope (by omega)
    | cnstr index =>
      refine (means_args hargs hscope (by omega)).bind ?_
      rintro _ vs _ ⟨hvs, rfl⟩
      exact hvs ▸ Means.op (perform_cnstr index (by omega)) rfl
    | proj index =>
      cases args with
      | nil => exact Means.fail
      | cons subject extra => exact means_projection hargs hscope (by omega)
    | neutral => exact Means.op rfl rfl
    | unreachable => exact Means.trap
    | declared name =>
      refine means_resolve fun d hd => ?_
      refine (means_argsRev hargs hscope (by omega)).bind ?_
      rintro _ vs _ ⟨hvs, rfl⟩
      exact hvs ▸ means_call hwf hsize hd vs
    | unusable marker => exact Means.fail
    | computed => exact absurd hhead (head_const_ne_computed name marker)
  | _ => exact means_computed hfn hargs hscope (by omega)

theorem means_term (t : Term) (hflat : t.isFlat = true) (hlocal : t.hasLocal = false) :
    TermMeans I g t := by
  induction t using Term.ind with
  | app fn args ihfn ihargs =>
    simp only [Term.isFlat, Bool.and_eq_true, Bool.not_eq_true'] at hflat
    simp only [Term.hasLocal, Bool.or_eq_false_iff] at hlocal
    exact means_app hwf hsize (ihfn hflat.1.2 hlocal.1)
      (fun a ha => ihargs a ha (Term.isFlat_of_mem hflat.2 ha) (Term.hasLocal_of_mem hlocal.2 ha))
      hflat.1.1
  | letIn bindings body ihbindings ihbody =>
    simp only [Term.isFlat, Bool.and_eq_true] at hflat
    simp only [Term.hasLocal, Bool.or_eq_false_iff] at hlocal
    exact means_let
      (fun b hb => ihbindings b hb (Term.isFlat_of_mem_bindings hflat.1 hb)
        (Term.hasLocal_of_mem_bindings hlocal.1 hb))
      (ihbody hflat.2 hlocal.2)
  | absent => exact fun role rest taken fields scope env _ _ _ _ => Means.fail
  | sort level => exact fun role rest taken fields scope env _ _ _ _ => Means.fail
  | mvar name => exact fun role rest taken fields scope env _ _ _ _ => Means.fail
  | pi binder domain body => exact fun role rest taken fields scope env _ _ _ _ => Means.fail
  | foreign name args => exact fun role rest taken fields scope env _ _ _ _ => Means.fail
  | fvar id name => cases hlocal
  | var i =>
    intro role rest taken fields scope env htaken hfields hscope hfits
    rw [planTerm]
    cases hb : scope[i.toNat]? with
    | none => exact Means.fail
    | some b =>
      obtain ⟨v, hslot, hv⟩ := hscope.lookup hb
      refine Means.leaf rfl htaken hfields (by omega) ?_
      have heval : eval I g (.var i) env (.chain none) = .ok v := by
        simp [eval, Use.settle, feed, hv]
      rw [heval]
      exact Means.op (perform_push hslot (by rw [List.length_append]; omega)) rfl
  | const name marker =>
    intro role rest taken fields scope env htaken hfields hscope hfits
    exact Means.leaf rfl htaken hfields (by omega) (means_constant hwf hsize name marker)
  | nat value =>
    intro role rest taken fields scope env htaken hfields hscope hfits
    exact Means.leaf rfl htaken hfields (by omega) (Means.op rfl rfl)
  | quote body =>
    intro role rest taken fields scope env htaken hfields hscope hfits
    exact Means.leaf rfl htaken hfields (by omega) (Means.op rfl rfl)
  | ann name body ih =>
    intro role rest taken fields scope env htaken hfields hscope hfits
    have hdepth : rest.length + role.bound = (rest ++ taken).length := by simp [htaken]
    simp only [Term.nodes] at hfits
    refine Means.leaf rfl htaken hfields (by omega) ?_
    rw [hdepth] at hfits ⊢
    exact (ih hflat hlocal).value hscope (by omega)
  | lam binder body ih =>
    intro role rest taken fields scope env htaken hfields hscope hfits
    cases role with
    | value => exact Means.fail
    | letBody n => exact Means.fail
    | alternative n =>
      -- the lambda takes the next field
      obtain ⟨field, fields, rfl⟩ : ∃ field fields', fields = field :: fields' :=
        List.exists_cons_of_length_eq_add_one hfields
      simp only [Role.bound] at htaken
      simp only [Term.nodes, Role.bound] at hfits
      have hslot : (rest ++ taken).length = rest.length + n := by simp [htaken]
      refine Means.fresh_andThen fun id => ?_
      have hbody := ih hflat hlocal (.alternative (n + 1)) rest (taken ++ [field]) fields
        (⟨id, rest.length + n⟩ :: scope) (field :: env) (by simp [Role.bound, htaken])
        (by simpa [Role.pending, Term.arity] using hfields)
        (by rw [← List.append_assoc, ← hslot]; exact hscope.cons id field)
        (by simp only [Role.bound]; omega)
      simpa [Role.use, eval, Role.bound, ← Nat.add_assoc] using hbody

end Terms

/-! ## Procedures -/

theorem run_ret {I : Interp V} {table : DeclTable} {code : Code} {pc : Nat} (frame : List V) (v : V)
    (hret : code[pc]? = some .ret) (steps : Nat) :
    run I table code (steps + 1) ⟨pc, frame ++ [v]⟩ = some (.ok v) := by
  have hstep : step I table code ⟨pc, frame ++ [v]⟩ = .ok (.inr v) := by
    simp [step, hret, Instr.ret]
  rw [run, hstep]

/-- The outline of a procedure's body does on the arguments what evaluation does. -/
theorem ends_body {I : Interp V} {g : Globals} (hwf : g.table.WellFormed)
    (hsize : g.table.size ≤ 2 ^ 32) {t : Term} (hlocal : t.hasLocal = false)
    (ht : t.nodes < 2 ^ 30) {d : Drawing Nat} (hd : planBody g t = .ok d) {args : List V}
    (hargs : args.length = t.arity) :
    Ends (exec I g.table d.outline args.reverse) (eval I g t [] (.branch args))
      (Pushed args.reverse ()) := by
  have hnodes := nodes_bodyOf t
  have hflat := (bodyOf t).nodes_flatten_le
  have hterm := @means_term V I g hwf hsize (bodyOf t).flatten (bodyOf t).isFlat_flatten
    (by rw [Term.hasLocal_flatten, hasLocal_bodyOf, hlocal])
  have hframe : args.reverse.length = t.arity := by rw [List.length_reverse, hargs]
  have hvalue := hterm.value (holds_parameters args.reverse) (by omega)
  rw [hframe, eval_flatten] at hvalue
  rw [eval_branch I t [] args hargs, List.append_nil]
  exact hvalue t.arity d hd

end TermVM.Codegen

namespace TermVM

open Codegen Meaning

/-- Code generation preserves meaning.  Whatever the values and the primitive operations, the code
    generated for a term with `k` leading lambdas, run on `k` arguments, returns the value that
    evaluation of the term gives, and halts for the same reason when evaluation gives none; it ends
    within as many steps as it has instructions and never does anything that has no meaning.  The
    index of a record has 32 bits, so the table may hold as many records as that. -/
theorem Codegen.run_compileProcedure {V : Type} (I : Interp V) (g : Globals)
    (hreach : g.table.Reachable) (hsize : g.table.size ≤ 2 ^ 32) (name : String) (t : Term)
    (hlocal : t.hasLocal = false) (ht : t.nodes < 2 ^ 30) (p : Procedure)
    (hp : compileProcedure g name t = .ok p) (args : List V) (hargs : args.length = t.arity) :
    eval I g t [] (.branch args) ≠ .error .stuck ∧
      ∀ steps, p.code.length ≤ steps →
        Machine.run I g.table p.code steps ⟨0, args.reverse⟩ =
          some (eval I g t [] (.branch args)) := by
  have hwf := hreach.wellFormed
  obtain ⟨d, hd, rfl⟩ := compileProcedure_eq_ok_iff.mp hp
  obtain ⟨hmoves, hlength⟩ := moves_body hwf hsize ht hd
  have hends := @ends_body V I g hwf hsize t hlocal ht d hd args hargs
  obtain ⟨n, hn, hrun⟩ := hmoves.simulates (I := I) (Outline.embeds_self _ [.ret]) (by omega)
    args.reverse
  have hret : (d.outline.layout 0 ++ [Instr.ret])[0 + d.outline.size]? = some .ret := by
    rw [Nat.zero_add, ← Outline.length_layout 0 d.outline, Outline.getElem?_behind]
    rfl
  cases hx : eval I g t [] (.branch args) with
  | error h =>
    rw [hx] at hends
    refine ⟨fun hstuck => hends.2 (Except.error.inj hstuck), fun steps hsteps => ?_⟩
    rw [List.length_append, Outline.length_layout, List.length_singleton] at hsteps
    obtain ⟨fuel, rfl⟩ : ∃ fuel, steps = n + fuel := ⟨steps - n, by omega⟩
    rw [hrun, hends.1]
    rfl
  | ok v =>
    rw [hx] at hends
    obtain ⟨frame, hexec, rfl⟩ := hends
    refine ⟨by simp, fun steps hsteps => ?_⟩
    rw [List.length_append, Outline.length_layout, List.length_singleton] at hsteps
    obtain ⟨fuel, rfl⟩ : ∃ fuel, steps = n + (fuel + 1) := ⟨steps - n - 1, by omega⟩
    rw [hrun, hexec]
    exact run_ret args.reverse v hret fuel

/-- Integers for values: an odd number has a predecessor, and everything else that is taken apart
    has itself for both of its fields. -/
def Codegen.integers : Interp Int where
  cnstr index fields := index.toNat + fields.foldr (· + ·) 0
  literal value := value
  quotation _ := 0
  proj index v := v + index.toNat
  apply f a := 10 * f + a
  call index args := 100 * index.toNat + args.foldr (· + ·) 0
  close index args := 1000 * index.toNat + args.foldr (· + ·) 0
  dispatch
    | .natural, v => if v % 2 = 0 then (0, []) else (1, [v - 1])
    | _, v => (0, [v, v])

/-- One pair of arguments leads through both matches to a value, another one into the trap. -/
theorem Codegen.tangle_run :
    arithmetic.Reachable ∧ tangle.hasLocal = false ∧ tangle.nodes < 2 ^ 30 ∧
      ∃ p, compileProcedure ⟨arithmetic, none⟩ "tangle" tangle = .ok p ∧
        Machine.run integers arithmetic p.code 26 ⟨0, [3, 2]⟩ = some (.ok 11662) ∧
        Machine.run integers arithmetic p.code 26 ⟨0, [2, 3]⟩ = some (.error .trap) := by
  obtain ⟨p, hp, hlen⟩ := compile_tangle
  have hrun := fun args hargs => (run_compileProcedure integers ⟨arithmetic, none⟩
    reachable_arithmetic (by decide) "tangle" tangle rfl (by decide) p hp args hargs).2 26
    (Nat.le_of_eq hlen)
  have hvalue : eval integers ⟨arithmetic, none⟩ tangle [] (.branch [2, 3]) = .ok 11662 := by
    decide +kernel
  have htrap : eval integers ⟨arithmetic, none⟩ tangle [] (.branch [3, 2]) = .error .trap := by
    decide +kernel
  exact ⟨reachable_arithmetic, rfl, by decide, p, hp, hvalue ▸ hrun [2, 3] rfl,
    htrap ▸ hrun [3, 2] rfl⟩

end TermVM
