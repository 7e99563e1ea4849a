/-
  TermVM.Proofs.Build.Independence

  A batch ends the same however its bodies are scheduled.

  Several bodies of a batch may be compiled at a time; they end in some order,
  and once one has failed others need not begin.  Without a store no body sees
  another: each leaves its result at its own place, and the failure that came
  first is remembered.  When all have ended, a crash at the lowest place goes
  before the first failure, and a batch without either goes on with its bodies
  in order.

  So a schedule can choose which of several failures is reported, and nothing
  else.  What a batch needs is that its names are distinct and free and that
  code generation accepts its terms; the checks that follow cannot fail, as
  slots are reserved with the arities that the code will have and generated
  code passes verification: `outcome_of_schedule`.
-/
import Mathlib.Data.List.Forall2
import TermVM.Proofs.Build.Redeclaration
import TermVM.Proofs.Build.Schedule
import TermVM.Proofs.Build.Tracing

open TermVM.Result

namespace TermVM.Build

/-! ## Schedules -/

/-- How the bodies of a batch come to their ends: in which order, each with its place in the batch,
    and which of them do not begin if another has failed before. -/
structure Schedule (batch : List Declaration) where
  order : List (Task × Nat)
  perm : order.Perm (tasks batch).zipIdx
  skips : Nat → Bool

/-- The bodies of a batch that have ended, at their places, and the failure that came first. -/
structure Tally where
  results : List (Option (Except Failure Body))
  first : Option Failure

/-- The failure that a body ended with. -/
def failure? : Except Failure Body → Option Failure
  | .ok _ => none
  | .error e => some e

/-- The crash that a place holds. -/
def crash? : Option (Except Failure Body) → Option Crash
  | some (.error (.crash c)) => some c
  | _ => none

/-- Compiles the body at a place, unless another has failed and this one does not begin. -/
def Tally.take (s : Settings) (table : DeclTable) (skips : Nat → Bool) (x : Tally)
    (entry : Task × Nat) : Tally :=
  if x.first.isSome && skips entry.2 then x
  else
    let result := (compileBody s none table entry.1.1 entry.1.2).2
    ⟨x.results.set entry.2 (some result), x.first.or (failure? result)⟩

/-- All bodies of a batch, in the order of a schedule. -/
def Schedule.tally {batch : List Declaration} (σ : Schedule batch) (s : Settings)
    (table : DeclTable) : Tally :=
  σ.order.foldl (Tally.take s table σ.skips) ⟨List.replicate (tasks batch).length none, none⟩

/-- How the bodies of a batch have ended together. -/
def Tally.settle (x : Tally) : Except Failure (List Body) :=
  match x.results.findSome? crash? with
  | some c => .error (.crash c)
  | none =>
      match x.first with
      | some e => .error e
      | none => .ok (x.results.filterMap fun r => r.bind (·.toOption))

/-- Compiles a batch without a store, its bodies in the order of a schedule. -/
def runScheduled (s : Settings) (table : DeclTable) {batch : List Declaration}
    (σ : Schedule batch) : Except Failure Outcome := do
  let reserved ← reserve table batch
  let bodies ← (σ.tally s reserved).settle
  conclude s reserved bodies

/-! ## Bodies that have ended -/

section

variable {s : Settings} {table : DeclTable}

/-- A body by itself, as the task it is. -/
def taskAlone (s : Settings) (table : DeclTable) (task : Task) : Except Failure Body :=
  bodyAlone s table task.1 task.2

theorem Tally.take_eq (skips : Nat → Bool) (x : Tally) (entry : Task × Nat) :
    x.take s table skips entry =
      if x.first.isSome && skips entry.2 then x
      else ⟨x.results.set entry.2 (some (taskAlone s table entry.1)),
        x.first.or (failure? (taskAlone s table entry.1))⟩ := by
  unfold take taskAlone
  rw [compileBody_none]

/-- Whatever the schedule, a result is that of the body at its place, the first failure is that of
    some body, and as long as there is none all results are bodies. -/
structure Tally.Sound (s : Settings) (table : DeclTable) (ts : List Task) (x : Tally) : Prop where
  length_eq : x.results.length = ts.length
  result_eq : ∀ (i : Nat) r, x.results[i]? = some (some r) →
    ∃ task, ts[i]? = some task ∧ taskAlone s table task = r
  first_mem : ∀ e, x.first = some e → ∃ task ∈ ts, taskAlone s table task = .error e
  body_of_none : x.first = none → ∀ (i : Nat) r, x.results[i]? = some (some r) → ∃ b, r = .ok b

/-- Putting a result at a place leaves the others where they are. -/
theorem getElem?_set_some {α : Type} {xs : List (Option α)} {i k : Nat} {a b : α}
    (h : (xs.set k (some b))[i]? = some (some a)) : (i = k ∧ a = b) ∨ xs[i]? = some (some a) := by
  by_cases hik : k = i
  · subst hik
    rw [List.getElem?_set_self'] at h
    obtain ⟨c, -, hc⟩ := Option.map_eq_some_iff.mp h
    exact .inl ⟨rfl, (Option.some.inj hc).symm⟩
  · rw [List.getElem?_set_ne hik] at h
    exact .inr h

theorem Tally.Sound.take {ts : List Task} {x : Tally} (hx : x.Sound s table ts)
    (skips : Nat → Bool) {entry : Task × Nat} (hentry : ts[entry.2]? = some entry.1) :
    (x.take s table skips entry).Sound s table ts := by
  rw [take_eq]
  split
  · exact hx
  · constructor
    · rw [List.length_set, hx.length_eq]
    · intro i r hr
      rcases getElem?_set_some hr with ⟨rfl, rfl⟩ | hold
      · exact ⟨entry.1, hentry, rfl⟩
      · exact hx.result_eq i r hold
    · intro e he
      rcases Option.or_eq_some_iff.mp he with hfirst | ⟨-, hfailure⟩
      · exact hx.first_mem e hfirst
      · refine ⟨entry.1, List.mem_of_getElem? hentry, ?_⟩
        cases hresult : taskAlone s table entry.1 with
        | ok b =>
          rw [hresult] at hfailure
          cases hfailure
        | error e' =>
          rw [hresult] at hfailure
          exact congrArg Except.error (Option.some.inj hfailure)
    · intro hnone i r hr
      obtain ⟨hfirst, hfailure⟩ := Option.or_eq_none_iff.mp hnone
      rcases getElem?_set_some hr with ⟨rfl, rfl⟩ | hold
      · cases hresult : taskAlone s table entry.1 with
        | ok b => exact ⟨b, rfl⟩
        | error e =>
          rw [hresult] at hfailure
          cases hfailure
      · exact hx.body_of_none hfirst i r hold

/-- A step after which nothing has failed has put a result at its place. -/
theorem Tally.take_of_none {skips : Nat → Bool} {x : Tally} {entry : Task × Nat}
    (hnone : (x.take s table skips entry).first = none) :
    x.first = none ∧ (x.take s table skips entry).results
      = x.results.set entry.2 (some (taskAlone s table entry.1)) := by
  rw [take_eq] at hnone ⊢
  split at hnone
  · next hskip =>
    rw [hnone] at hskip
    cases hskip
  · next hbegins =>
    rw [if_neg hbegins]
    exact ⟨(Option.or_eq_none_iff.mp hnone).1, rfl⟩

variable {ts : List Task} {skips : Nat → Bool} {entries : List (Task × Nat)} {x : Tally}

theorem Tally.Sound.foldl (hx : x.Sound s table ts)
    (hentries : ∀ entry ∈ entries, ts[entry.2]? = some entry.1) :
    (entries.foldl (Tally.take s table skips) x).Sound s table ts := by
  induction entries generalizing x with
  | nil => exact hx
  | cons entry entries ih =>
    obtain ⟨hentry, hrest⟩ := List.forall_mem_cons.mp hentries
    exact ih (hx.take skips hentry) hrest

theorem Tally.first_of_foldl (hnone : (entries.foldl (Tally.take s table skips) x).first = none) :
    x.first = none := by
  induction entries generalizing x with
  | nil => exact hnone
  | cons entry entries ih => exact (take_of_none (ih hnone)).1

/-- As long as nothing has failed no body is left out, and no result is lost. -/
theorem Tally.exists_result (hnone : (entries.foldl (Tally.take s table skips) x).first = none)
    {i : Nat} (hi : i < x.results.length)
    (hdone : (∃ r, x.results[i]? = some (some r)) ∨ i ∈ entries.map (·.2)) :
    ∃ r, (entries.foldl (Tally.take s table skips) x).results[i]? = some (some r) := by
  induction entries generalizing x with
  | nil => exact hdone.resolve_right List.not_mem_nil
  | cons entry entries ih =>
    rw [List.foldl_cons] at hnone ⊢
    obtain ⟨-, hresults⟩ := take_of_none (first_of_foldl hnone)
    refine ih hnone (by rw [hresults, List.length_set]; exact hi) ?_
    rw [hresults, List.getElem?_set]
    rw [List.map_cons, List.mem_cons] at hdone
    by_cases hplace : entry.2 = i
    · exact .inl ⟨_, by rw [if_pos hplace, if_pos (hplace ▸ hi)]⟩
    · rw [if_neg hplace]
      rcases hdone with hold | rfl | hlater
      · exact .inl hold
      · exact absurd rfl hplace
      · exact .inr hlater

end

/-! ## A whole schedule -/

section

variable {s : Settings} {table : DeclTable} {batch : List Declaration}

theorem Schedule.sound (σ : Schedule batch) : (σ.tally s table).Sound s table (tasks batch) := by
  refine Tally.Sound.foldl ⟨List.length_replicate, ?_, ?_, ?_⟩ ?_
  · intro i r hr
    rw [List.getElem?_replicate] at hr
    split at hr
    · cases hr
    · cases hr
  · intro e he
    cases he
  · intro _ i r hr
    rw [List.getElem?_replicate] at hr
    split at hr
    · cases hr
    · cases hr
  · intro entry hentry
    exact List.mem_zipIdx_iff_getElem?.mp (σ.perm.mem_iff.mp hentry)

/-- When no body failed, all of them have been compiled and their results stand in order. -/
theorem Schedule.results_eq {σ : Schedule batch} (hnone : (σ.tally s table).first = none) :
    (σ.tally s table).results = (tasks batch).map fun task => some (taskAlone s table task) := by
  have hsound : (σ.tally s table).Sound s table (tasks batch) := σ.sound
  apply List.ext_getElem?
  intro i
  rw [List.getElem?_map]
  cases htask : (tasks batch)[i]? with
  | none =>
    rw [List.getElem?_eq_none_iff] at htask
    exact List.getElem?_eq_none (hsound.length_eq ▸ htask)
  | some task =>
    have hlt : i < (tasks batch).length := (List.getElem?_eq_some_iff.mp htask).1
    have hmem : (task, i) ∈ σ.order :=
      σ.perm.mem_iff.mpr (List.mem_zipIdx_iff_getElem?.mpr htask)
    obtain ⟨r, hr⟩ := Tally.exists_result hnone (by rw [List.length_replicate]; exact hlt)
      (.inr (List.mem_map_of_mem hmem))
    obtain ⟨task', htask', rfl⟩ := hsound.result_eq i r hr
    obtain rfl : task = task' := Option.some.inj (htask.symm.trans htask')
    exact hr

/-- A batch whose bodies settle with a failure has a body that fails so by itself. -/
theorem Schedule.settle_eq_error {σ : Schedule batch} {e : Failure}
    (h : (σ.tally s table).settle = .error e) :
    ∃ task ∈ tasks batch, taskAlone s table task = .error e := by
  have hsound : (σ.tally s table).Sound s table (tasks batch) := σ.sound
  unfold Tally.settle at h
  split at h
  · -- a crash is found at a place, whose body it is
    next c hc =>
    obtain ⟨r, hr, hcrash⟩ := List.exists_of_findSome?_eq_some hc
    obtain ⟨i, hi⟩ := List.getElem?_of_mem hr
    obtain rfl : Failure.crash c = e := Except.error.inj h
    unfold crash? at hcrash
    split at hcrash
    · cases hcrash
      obtain ⟨task, htask, halone⟩ := hsound.result_eq i _ hi
      exact ⟨task, List.mem_of_getElem? htask, halone⟩
    · cases hcrash
  · split at h
    · next e' he' =>
      obtain rfl : e' = e := Except.error.inj h
      exact hsound.first_mem e' he'
    · cases h

/-- The bodies of tasks that all succeed, as they are collected from their places. -/
theorem forall₂_collect {ts : List Task}
    (hok : ∀ task ∈ ts, ∃ b, taskAlone s table task = .ok b) :
    List.Forall₂ (fun task b => taskAlone s table task = .ok b) ts
      ((ts.map fun task => some (taskAlone s table task)).filterMap fun r =>
        r.bind (·.toOption)) := by
  induction ts with
  | nil => exact .nil
  | cons task ts ih =>
    obtain ⟨⟨b, hb⟩, hrest⟩ := List.forall_mem_cons.mp hok
    rw [List.map_cons, hb]
    exact .cons hb (ih hrest)

theorem Schedule.forall₂_of_settle {σ : Schedule batch} {bodies : List Body}
    (h : (σ.tally s table).settle = .ok bodies) :
    List.Forall₂ (fun task b => taskAlone s table task = .ok b) (tasks batch) bodies := by
  unfold Tally.settle at h
  split at h
  · cases h
  · split at h
    · cases h
    · next hnone =>
      obtain rfl := Except.ok.inj h
      have hresults := results_eq hnone
      rw [hresults]
      apply forall₂_collect
      intro task htask
      obtain ⟨i, hi⟩ := List.getElem?_of_mem htask
      apply σ.sound.body_of_none hnone i
      rw [hresults, List.getElem?_map, hi]
      rfl

/-- A batch settles with bodies exactly when each task has its body, whatever the schedule. -/
theorem Schedule.settle_eq_ok {σ : Schedule batch} {bodies : List Body} :
    (σ.tally s table).settle = .ok bodies ↔
      List.Forall₂ (fun task b => taskAlone s table task = .ok b) (tasks batch) bodies := by
  refine ⟨forall₂_of_settle, fun hall => ?_⟩
  cases h : (σ.tally s table).settle with
  | ok bs =>
    have hunique : Relator.RightUnique fun task b => taskAlone s table task = .ok b :=
      fun _ _ _ h h' => Except.ok.inj (h.symm.trans h')
    rw [hunique.forall₂ (forall₂_of_settle h) hall]
  | error e =>
    -- a failing body has no place among bodies that all succeed
    obtain ⟨task, htask, halone⟩ := settle_eq_error h
    obtain ⟨b, -, hb⟩ := exists_of_mem_right (R := flip fun task b => taskAlone s table task = .ok b)
      hall.flip htask
    cases halone.symm.trans hb

/-! ## The order of the batch -/

/-- The bodies in the order of the batch; behind one that fails none begins. -/
def Schedule.straight (batch : List Declaration) : Schedule batch where
  order := (tasks batch).zipIdx
  perm := .refl _
  skips _ := true

theorem foldl_take_of_some {entries : List (Task × Nat)} {x : Tally} {e : Failure}
    (h : x.first = some e) : entries.foldl (Tally.take s table fun _ => true) x = x := by
  induction entries with
  | nil => rfl
  | cons entry entries ih =>
    have hskip : x.take s table (fun _ => true) entry = x := by
      rw [Tally.take_eq, h]
      rfl
    rw [List.foldl_cons, hskip, ih]

/-- Bodies that have succeeded, and behind them places without a result. -/
def begun (bs : List Body) (n : Nat) : Tally :=
  ⟨(bs.map fun b => some (.ok b)) ++ List.replicate n none, none⟩

theorem findSome?_crash?_map (bs : List Body) :
    (bs.map fun b => some (Except.ok b)).findSome? crash? = none := by
  rw [List.findSome?_eq_none_iff]
  intro r hr
  obtain ⟨b, -, rfl⟩ := List.mem_map.mp hr
  rfl

theorem settle_begun (bs : List Body) : (begun bs 0).settle = .ok bs := by
  have hbodies : (bs.map fun b => some (Except.ok (ε := Failure) b)).filterMap
      (fun r => r.bind (·.toOption)) = bs := by
    rw [List.filterMap_map]
    exact List.filterMap_some
  unfold begun Tally.settle
  rw [List.replicate_zero, List.append_nil, findSome?_crash?_map]
  dsimp only
  rw [hbodies]

/-- The only failure among results is the one that is reported, crash or not. -/
theorem settle_failed (bs : List Body) (e : Failure) (n : Nat) :
    Tally.settle ⟨(bs.map fun b => some (.ok b)) ++ some (.error e) :: List.replicate n none, some e⟩
      = .error e := by
  have hrest : (List.replicate n (none : Option (Except Failure Body))).findSome? crash? = none := by
    rw [List.findSome?_eq_none_iff]
    intro r hr
    rw [List.eq_of_mem_replicate hr]
    rfl
  unfold Tally.settle
  dsimp only
  rw [List.findSome?_append, findSome?_crash?_map, Option.none_or, List.findSome?_cons, hrest]
  cases e <;> rfl

theorem take_begun (skips : Nat → Bool) (bs : List Body) (n : Nat) (task : Task) :
    (begun bs (n + 1)).take s table skips (task, bs.length) =
      ⟨(bs.map fun b => some (.ok b)) ++ some (taskAlone s table task) :: List.replicate n none,
        failure? (taskAlone s table task)⟩ := by
  have hset : ∀ r : Option (Except Failure Body),
      ((bs.map fun b => some (Except.ok b)) ++ List.replicate (n + 1) none).set bs.length r
        = (bs.map fun b => some (Except.ok b)) ++ r :: List.replicate n none := by
    intro r
    have hlen : (bs.map fun b => some (Except.ok (ε := Failure) b)).length = bs.length :=
      List.length_map _
    rw [List.set_append_right _ _ (Nat.le_of_eq hlen), hlen, Nat.sub_self, List.replicate_succ,
      List.set_cons_zero]
  rw [Tally.take_eq, begun, hset]
  rfl

/-- From bodies that have succeeded, taking up the rest in order ends as compiling it does. -/
theorem settle_foldl_begun (ts : List Task) (bs : List Body) :
    ((ts.zipIdx bs.length).foldl (Tally.take s table fun _ => true) (begun bs ts.length)).settle
      = (compileBodies s none table none ts).2.map (bs ++ ·) := by
  induction ts generalizing bs with
  | nil => exact (settle_begun bs).trans (by rw [compileBodies]; simp [Except.map])
  | cons task ts ih =>
    rw [List.zipIdx_cons, List.foldl_cons, List.length_cons, take_begun, compileBodies,
      compileBody_none]
    cases hresult : bodyAlone s table task.1 task.2 with
    | ok b =>
      have hnext := ih (bs ++ [b])
      unfold taskAlone
      rw [hresult]
      simp only [begun, List.length_append, List.length_singleton, List.map_append, List.map_cons,
        List.map_nil, List.append_assoc, List.singleton_append] at hnext
      dsimp only [failure?]
      rw [hnext]
      cases (compileBodies s none table none ts).2 <;> rfl
    | error e =>
      unfold taskAlone
      rw [hresult, foldl_take_of_some (e := e) rfl]
      exact settle_failed bs e ts.length

end

/-- Compiling a batch without a store follows one of the schedules. -/
theorem runScheduled_straight (s : Settings) (table : DeclTable) (batch : List Declaration) :
    runScheduled s table (.straight batch) = (run s none none table batch).outcome := by
  have hsettle : ∀ reserved, ((Schedule.straight batch).tally s reserved).settle
      = (compileBodies s none reserved none (tasks batch)).2 := by
    intro reserved
    have hall := @settle_foldl_begun s reserved (tasks batch) []
    simp only [List.nil_append] at hall
    cases hbodies : (compileBodies s none reserved none (tasks batch)).2 with
    | error e =>
      rw [hbodies] at hall
      exact hall
    | ok bodies =>
      rw [hbodies] at hall
      exact hall
  rw [outcome_run, runScheduled]
  simp only [hsettle]

/-! ## What a batch needs -/

/-- A body whose code is installed as it was generated. -/
def Body.plain (p : Procedure) : Body :=
  ⟨p, p, false⟩

/-- What a batch is compiled to: slots are reserved for all of it, its procedures are those that
    code generation returns for its terms against the reserved table, in the order of the batch,
    and they are installed in their slots. -/
def Delivers (s : Settings) (t : DeclTable) (batch : List Declaration) (o : Outcome) : Prop :=
  ∃ reserved, t.reserve (reservations batch) = .ok reserved ∧
    List.Forall₂ (fun d p =>
      Codegen.compileProcedure ⟨reserved, s.analyzers⟩ d.name d.value = .ok p)
      batch o.procedures ∧
    reserved.install o.procedures = .ok o.table ∧ o.hits = 0

theorem firstRepeat?_eq_none_iff {seen ns : List String} :
    firstRepeat? seen ns = none ↔ ns.Nodup ∧ ∀ n ∈ ns, n ∉ seen := by
  refine ⟨nodup_of_firstRepeat?, ?_⟩
  induction ns generalizing seen with
  | nil => exact fun _ => rfl
  | cons n ns ih =>
    rintro ⟨hnodup, hfresh⟩
    obtain ⟨hn, hnodup⟩ := List.nodup_cons.mp hnodup
    obtain ⟨hnew, hfresh⟩ := List.forall_mem_cons.mp hfresh
    rw [firstRepeat?, if_neg hnew]
    refine ih ⟨hnodup, fun m hm => ?_⟩
    rw [List.mem_cons, not_or]
    exact ⟨fun heq => hn (heq ▸ hm), hfresh m hm⟩

/-- What is asked of a table, a batch and the settings: updates have led to the table and its
    indices fit into 32 bits with the batch added, the terms are of a size that code can have, code
    is installed as it was generated, and where it is listed no term is missing from it. -/
structure Regular (s : Settings) (t : DeclTable) (batch : List Declaration) : Prop where
  reachable : t.Reachable
  room : t.size + batch.length ≤ 2 ^ 32
  small : ∀ d ∈ batch, d.value.nodes < 2 ^ 30
  unoptimized : s.optimizer = none
  listed : s.shows = true → ∀ d ∈ batch, .absent ∉ d.value.quotations

section

variable {s : Settings} {t reserved : DeclTable} {batch : List Declaration}

theorem Regular.wellFormed (h : Regular s t batch)
    (hreserve : t.reserve (reservations batch) = .ok reserved) : reserved.WellFormed :=
  (h.reachable.reserve hreserve).wellFormed

theorem Regular.size_le (h : Regular s t batch)
    (hreserve : t.reserve (reservations batch) = .ok reserved) : reserved.size ≤ 2 ^ 32 := by
  have hsize := DeclTable.size_reserve hreserve
  have hroom := h.room
  rw [reservations, List.length_map] at hsize
  omega

/-- Behind code generation nothing stops a body: its arity is the reserved one, and its code passes
    verification. -/
theorem Regular.taskAlone_eq (h : Regular s t batch)
    (hreserve : t.reserve (reservations batch) = .ok reserved) {d : Declaration} (hd : d ∈ batch) :
    taskAlone s reserved (d, UInt32.ofNat d.value.arity)
      = (generate s reserved d).map Body.plain := by
  unfold taskAlone bodyAlone
  cases hp : generate s reserved d with
  | error e => rfl
  | ok p =>
    have harity : p.arity = UInt32.ofNat d.value.arity :=
      (Codegen.header_of_compileProcedure (generate_eq_ok.mp hp)).2
    have hpasses := analyze_of_generate (h.wellFormed hreserve) (h.size_le hreserve)
      (h.small d hd) hp
    refine finish_eq_ok.mpr ⟨harity, fun _ => ?_, ?_⟩
    · rwa [Settings.optimized_of_none h.unoptimized]
    · rw [Settings.optimized_of_none h.unoptimized]
      rfl

theorem Regular.taskAlone_eq_ok (h : Regular s t batch)
    (hreserve : t.reserve (reservations batch) = .ok reserved) {d : Declaration} (hd : d ∈ batch)
    {b : Body} :
    taskAlone s reserved (d, UInt32.ofNat d.value.arity) = .ok b ↔
      ∃ p, Codegen.compileProcedure ⟨reserved, s.analyzers⟩ d.name d.value = .ok p ∧
        Body.plain p = b := by
  rw [h.taskAlone_eq hreserve hd]
  simp only [← generate_eq_ok]
  cases generate s reserved d <;> simp [Except.map]

/-- The bodies of a batch are the procedures that code generation returns. -/
theorem Regular.forall₂_iff (h : Regular s t batch)
    (hreserve : t.reserve (reservations batch) = .ok reserved) {bodies : List Body} :
    List.Forall₂ (fun task b => taskAlone s reserved task = .ok b) (tasks batch) bodies ↔
      ∃ procs, List.Forall₂ (fun d p =>
          Codegen.compileProcedure ⟨reserved, s.analyzers⟩ d.name d.value = .ok p) batch procs ∧
        procs.map Body.plain = bodies := by
  have hone := fun d hd b => @Regular.taskAlone_eq_ok s t reserved batch h hreserve d hd b
  unfold tasks
  rw [List.forall₂_map_left_iff]
  clear h hreserve
  induction batch generalizing bodies with
  | nil => simp [eq_comm]
  | cons d batch ih =>
    obtain ⟨hfirst, hrest⟩ := List.forall_mem_cons.mp hone
    constructor
    · intro hall
      obtain ⟨b, bs, hb, hbs, rfl⟩ := List.forall₂_cons_left_iff.mp hall
      obtain ⟨p, hp, rfl⟩ := (hfirst b).mp hb
      obtain ⟨procs, hprocs, rfl⟩ := (ih hrest).mp hbs
      exact ⟨p :: procs, .cons hp hprocs, rfl⟩
    · rintro ⟨procs, hall, rfl⟩
      obtain ⟨p, ps, hp, hps, rfl⟩ := List.forall₂_cons_left_iff.mp hall
      exact .cons ((hfirst _).mpr ⟨p, hp, rfl⟩) ((ih hrest).mpr ⟨ps, hps, rfl⟩)

/-- Generated code can be traced. -/
theorem Regular.trace_eq_ok (h : Regular s t batch)
    (hreserve : t.reserve (reservations batch) = .ok reserved) {procs : List Procedure}
    (hprocs : List.Forall₂ (fun d p =>
      Codegen.compileProcedure ⟨reserved, s.analyzers⟩ d.name d.value = .ok p) batch procs) :
    (trace s reserved (procs.map Body.plain)).2 = .ok () := by
  apply Build.trace_eq_ok
  intro hshows b hb
  obtain ⟨p, hp, rfl⟩ := List.mem_map.mp hb
  obtain ⟨d, hd, hcompile⟩ := exists_of_mem_right hprocs hp
  have hlistable := Codegen.listable_of_compileProcedure (h.wellFormed hreserve)
    (h.size_le hreserve) (h.small d hd) (h.listed hshows d hd) hcompile
  exact ⟨hlistable, hlistable⟩

/-- Generated code fits the slots that were reserved for it. -/
theorem exists_install_of_forall₂ (hnodup : (batch.map (·.name)).Nodup)
    (hreserve : t.reserve (reservations batch) = .ok reserved) {procs : List Procedure}
    (hprocs : List.Forall₂ (fun d p =>
      Codegen.compileProcedure ⟨reserved, s.analyzers⟩ d.name d.value = .ok p) batch procs) :
    ∃ t', reserved.install procs = .ok t' := by
  have hnames : (reservations batch).map (·.1) = batch.map (·.name) := by
    simp [reservations]
  have hslots := DeclTable.slotted_of_reserve (hnames ▸ hnodup) hreserve
  apply DeclTable.exists_install
  intro p hp
  obtain ⟨d, hd, hcompile⟩ := exists_of_mem_right hprocs hp
  obtain ⟨hname, harity⟩ := Codegen.header_of_compileProcedure hcompile
  rw [hname, harity]
  exact hslots (d.name, UInt32.ofNat d.value.arity) (List.mem_map_of_mem hd)

theorem conclude_plain {procs : List Procedure}
    (htrace : (trace s reserved (procs.map Body.plain)).2 = .ok ()) {o : Outcome} :
    conclude s reserved (procs.map Body.plain) = .ok o ↔
      o.procedures = procs ∧ reserved.install procs = .ok o.table ∧ o.hits = 0 := by
  have hfinal : (procs.map Body.plain).map (·.final) = procs := by
    simp [Body.plain, Function.comp_def]
  have hhits : ((procs.map Body.plain).filter (·.hit)).length = 0 := by
    simp [Body.plain]
  rw [conclude_eq_ok, install_eq_ok, hfinal, hhits]
  tauto

/-! ## Independence -/

/-- A batch with distinct names is compiled to what it delivers, whatever the schedule. -/
theorem Regular.runScheduled_eq_ok (h : Regular s t batch) (σ : Schedule batch) {o : Outcome} :
    runScheduled s t σ = .ok o ↔ (batch.map (·.name)).Nodup ∧ Delivers s t batch o := by
  unfold runScheduled Delivers
  simp only [bind_eq_ok, Schedule.settle_eq_ok]
  constructor
  · rintro ⟨reserved, hreserve, bodies, hbodies, hconclude⟩
    obtain ⟨hrepeat, hreserve⟩ := reserve_eq_ok.mp hreserve
    obtain ⟨procs, hprocs, rfl⟩ := (h.forall₂_iff hreserve).mp hbodies
    obtain ⟨rfl, hinstall, hhits⟩ := (conclude_plain (h.trace_eq_ok hreserve hprocs)).mp hconclude
    exact ⟨(nodup_of_firstRepeat? hrepeat).1, reserved, hreserve, hprocs, hinstall, hhits⟩
  · rintro ⟨hnodup, reserved, hreserve, hprocs, hinstall, hhits⟩
    have hrepeat : firstRepeat? [] (batch.map (·.name)) = none :=
      firstRepeat?_eq_none_iff.mpr ⟨hnodup, fun _ _ => List.not_mem_nil⟩
    refine ⟨reserved, reserve_eq_ok.mpr ⟨hrepeat, hreserve⟩, o.procedures.map Body.plain,
      (h.forall₂_iff hreserve).mpr ⟨o.procedures, hprocs, rfl⟩, ?_⟩
    exact (conclude_plain (h.trace_eq_ok hreserve hprocs)).mpr ⟨rfl, hinstall, hhits⟩

/-- Distinct and free names whose terms code generation accepts are all that a batch needs. -/
theorem exists_delivers_iff (hnodup : (batch.map (·.name)).Nodup) :
    (∃ o, Delivers s t batch o) ↔
      (∀ d ∈ batch, t.Free d.name) ∧ ∀ reserved, t.reserve (reservations batch) = .ok reserved →
        ∀ d ∈ batch, ∃ p,
          Codegen.compileProcedure ⟨reserved, s.analyzers⟩ d.name d.value = .ok p := by
  have hfree : (∃ reserved, t.reserve (reservations batch) = .ok reserved) ↔
      ∀ d ∈ batch, t.Free d.name := by
    rw [DeclTable.exists_reserve_iff]
    simp [reservations]
  constructor
  · rintro ⟨o, reserved, hreserve, hprocs, -, -⟩
    refine ⟨hfree.mp ⟨reserved, hreserve⟩, ?_⟩
    intro reserved' hreserve' d hd
    obtain rfl : reserved = reserved' := Except.ok.inj (hreserve.symm.trans hreserve')
    obtain ⟨p, -, hp⟩ := exists_of_mem_right (R := flip fun d p =>
      Codegen.compileProcedure ⟨reserved, s.analyzers⟩ d.name d.value = .ok p) hprocs.flip hd
    exact ⟨p, hp⟩
  · rintro ⟨hnames, haccepted⟩
    obtain ⟨reserved, hreserve⟩ := hfree.mpr hnames
    obtain ⟨procs, hprocs⟩ := exists_forall₂ (haccepted reserved hreserve)
    obtain ⟨t', hinstall⟩ := exists_install_of_forall₂ hnodup hreserve hprocs
    exact ⟨⟨t', procs, 0⟩, reserved, hreserve, hprocs, hinstall, rfl⟩

/-- A batch fails for its names or in code generation, whatever the schedule. -/
theorem Regular.runScheduled_eq_error (h : Regular s t batch) (σ : Schedule batch) {e : Failure}
    (he : runScheduled s t σ = .error e) :
    (reserve t batch = .error e ∧
      ((∃ name, e = .duplicate name) ∨ ∃ name kind, e = .refused (.occupied name kind))) ∨
    ∃ reserved, t.reserve (reservations batch) = .ok reserved ∧ ∃ d ∈ batch, ∃ f,
      Codegen.compileProcedure ⟨reserved, s.analyzers⟩ d.name d.value = .error f ∧
        e = .ofCodegen d.name f := by
  rcases bind_eq_error.mp he with hnames | ⟨reserved, hreserve, he⟩
  · -- reservation is done before any body is taken up
    refine .inl ⟨hnames, ?_⟩
    unfold reserve at hnames
    split at hnames
    · next name _ => exact .inl ⟨name, (Except.error.inj hnames).symm⟩
    · cases hslots : t.reserve (reservations batch) with
      | ok reserved =>
        rw [hslots] at hnames
        cases hnames
      | error refusal =>
        rw [hslots] at hnames
        obtain ⟨name, kind, rfl⟩ := DeclTable.reserve_eq_error hslots
        exact .inr ⟨name, kind, (Except.error.inj hnames).symm⟩
  · obtain ⟨hrepeat, hreserve⟩ := reserve_eq_ok.mp hreserve
    refine .inr ⟨reserved, hreserve, ?_⟩
    rcases bind_eq_error.mp he with hbodies | ⟨bodies, hbodies, hconclude⟩
    · -- some body fails, and it can do so only in code generation
      obtain ⟨task, htask, halone⟩ := Schedule.settle_eq_error hbodies
      obtain ⟨d, hd, rfl⟩ := List.mem_map.mp htask
      rw [h.taskAlone_eq hreserve hd] at halone
      refine ⟨d, hd, ?_⟩
      unfold generate at halone
      cases hcompile : Codegen.compileProcedure ⟨reserved, s.analyzers⟩ d.name d.value with
      | ok p =>
        rw [hcompile] at halone
        cases halone
      | error f =>
        rw [hcompile] at halone
        exact ⟨f, rfl, (Except.error.inj halone).symm⟩
    · -- bodies that were all compiled are traced and installed
      obtain ⟨procs, hprocs, rfl⟩ := (h.forall₂_iff hreserve).mp (Schedule.settle_eq_ok.mp hbodies)
      obtain ⟨t', hinstall⟩ :=
        exists_install_of_forall₂ (nodup_of_firstRepeat? hrepeat).1 hreserve hprocs
      have hok := (@conclude_plain s reserved procs (h.trace_eq_ok hreserve hprocs)
        ⟨t', procs, 0⟩).mpr ⟨rfl, hinstall, rfl⟩
      rw [hok] at hconclude
      cases hconclude

end

/-- Batches do not depend on their schedule.  Against every table that updates lead to, and for every
    batch of terms with fewer than 2 ^ 30 nodes that is compiled without a store and an optimizer:

    whatever the order of the bodies and whichever of them are skipped after a failure, the batch
    compiles exactly when its names are distinct, none of them is that of a builtin or native
    declaration, and code generation accepts each term against the reserved table;

    every schedule, with verification or without, gives the outcome that `run` gives, whose
    procedures are those of code generation;

    and a failure is one of the names or of code generation, hence never one of the arity check, of
    verification or of installation.

    Code that reaches the log is listed there, and a quotation of an absent term cannot be.  The index
    of a record has 32 bits, so the table may hold as many records as that. -/
theorem outcome_of_schedule {s : Settings} {t : DeclTable} {batch : List Declaration}
    (hreach : t.Reachable) (hroom : t.size + batch.length ≤ 2 ^ 32)
    (hsmall : ∀ d ∈ batch, d.value.nodes < 2 ^ 30) (hopt : s.optimizer = none)
    (hlisted : s.shows = true → ∀ d ∈ batch, .absent ∉ d.value.quotations) :
    (∀ σ : Schedule batch, (∃ o, runScheduled s t σ = .ok o) ↔
      (batch.map (·.name)).Nodup ∧
      (∀ d ∈ batch, ∀ r, t.lookup? d.name = some r → r.kind ≠ .builtin ∧ r.kind ≠ .native) ∧
      ∀ reserved, t.reserve (reservations batch) = .ok reserved → ∀ d ∈ batch,
        ∃ p, Codegen.compileProcedure ⟨reserved, s.analyzers⟩ d.name d.value = .ok p) ∧
    (∀ (σ : Schedule batch) (verify : Bool) (o : Outcome),
      runScheduled { s with verify := verify } t σ = .ok o ↔
        (run s none none t batch).outcome = .ok o) ∧
    (∀ o, (run s none none t batch).outcome = .ok o → Delivers s t batch o) ∧
    ∀ (σ : Schedule batch) (verify : Bool) (e : Failure),
      runScheduled { s with verify := verify } t σ = .error e →
        (reserve t batch = .error e ∧
          ((∃ name, e = .duplicate name) ∨ ∃ name kind, e = .refused (.occupied name kind))) ∨
        ∃ reserved, t.reserve (reservations batch) = .ok reserved ∧ ∃ d ∈ batch, ∃ f,
          Codegen.compileProcedure ⟨reserved, s.analyzers⟩ d.name d.value = .error f ∧
            e = .ofCodegen d.name f := by
  -- nothing that is asked of the settings is about verification
  have hregular : ∀ verify, Regular { s with verify := verify } t batch :=
    fun _ => ⟨hreach, hroom, hsmall, hopt, hlisted⟩
  have hrun : ∀ o, (run s none none t batch).outcome = .ok o ↔
      (batch.map (·.name)).Nodup ∧ Delivers s t batch o := by
    intro o
    rw [← runScheduled_straight]
    exact (hregular s.verify).runScheduled_eq_ok _
  refine ⟨fun σ => ?_, fun σ verify o => ?_, fun o ho => ((hrun o).mp ho).2, ?_⟩
  · have hok := fun o => @Regular.runScheduled_eq_ok s t batch (hregular s.verify) σ o
    simp only [hok, exists_and_left, ← hreach.wellFormed.free_iff]
    exact and_congr_right fun hnodup => exists_delivers_iff hnodup
  · rw [hrun]
    exact (hregular verify).runScheduled_eq_ok σ
  · exact fun σ verify e he => (hregular verify).runScheduled_eq_error σ he

/-- Settings under which generated code reaches the log. -/
def watched : Settings :=
  { Settings.plain with
    tracer := some ⟨[⟨Tracer.codeGen, true⟩, ⟨Tracer.optimizeBytecode, false⟩]⟩, verbosity := 2 }

/-- A name takes another arity and is called with it by a body of the same batch, which may be
    compiled before or after. -/
theorem doubleOfTwo_scheduled :
    withMultiples.Reachable ∧ watched.shows = true ∧
      (∀ d ∈ doubleOfTwo, d.value.nodes < 2 ^ 30 ∧ .absent ∉ d.value.quotations) ∧
      ∃ o : Outcome, o.table = withDoubleOfTwo ∧ ∀ (σ : Schedule doubleOfTwo) (verify : Bool),
        runScheduled { watched with verify := verify } withMultiples σ = .ok o := by
  have hreach := reachable_withMultiples
  have hbatch : ∀ d ∈ doubleOfTwo, d.value.nodes < 2 ^ 30 ∧ .absent ∉ d.value.quotations := by
    decide
  have hrun : (run watched none none withMultiples doubleOfTwo).outcome.toOption.map (·.table)
      = some withDoubleOfTwo := by decide +kernel
  obtain ⟨o, ho, htable⟩ := Option.map_eq_some_iff.mp hrun
  obtain ⟨-, hsame, -, -⟩ := @outcome_of_schedule watched withMultiples doubleOfTwo hreach
    (by decide) (fun d hd => (hbatch d hd).1) rfl (fun _ d hd => (hbatch d hd).2)
  refine ⟨hreach, rfl, hbatch, o, htable, fun σ verify => ?_⟩
  exact (hsame σ verify o).mpr (eq_ok_of_toOption ho)

/-- A batch that quotes an absent term. -/
def quotedAbsent : List Declaration :=
  [⟨"a", .quote .absent⟩]

/-- Code generation accepts a quotation of an absent term, and its code cannot be listed: the batch
    compiles when nothing reaches the log, and crashes when its code does. -/
theorem quotedAbsent_crashes :
    DeclTable.empty.Reachable ∧ watched.optimizer = none ∧
      (quotedAbsent.map (·.name)).Nodup ∧
      (∀ d ∈ quotedAbsent, d.value.nodes < 2 ^ 30 ∧ DeclTable.empty.lookup? d.name = none) ∧
      (∃ reserved, DeclTable.empty.reserve (reservations quotedAbsent) = .ok reserved ∧
        ∀ d ∈ quotedAbsent, ∃ p,
          Codegen.compileProcedure ⟨reserved, watched.analyzers⟩ d.name d.value = .ok p) ∧
      (∃ o, (run .plain none none .empty quotedAbsent).outcome = .ok o) ∧
      (run watched none none .empty quotedAbsent).outcome
        = .error (.crash (.fault .missingValue)) := by
  refine ⟨.empty, rfl, by decide, by decide, ⟨_, rfl, ?_⟩, ⟨_, rfl⟩, rfl⟩
  intro d hd
  rw [List.mem_singleton.mp hd]
  exact ⟨_, rfl⟩

end TermVM.Build
