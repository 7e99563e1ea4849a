/-
  TermVM.Proofs.Verify.Draining

  The verifier's work list drains, and no depth it holds is negative.

  `Pops` counts the turns of the loop without a bound on their number.  A pop
  takes one edge off the list, and what it adds is paid for by the position it
  marks, so that list and budget together shrink at every turn: jumps backwards
  and targets met again included.  The same turns preserve `Nonneg`, since what
  an instruction requires of the depth pays for what it takes off the stack.

  Hence a loop that keeps integers for marks, with `-1` for a position not
  visited yet, never takes a depth for a missing mark: it does what the loop
  with optional marks does.
-/
import TermVM.Proofs.Verify.Tables

namespace TermVM.Verify

variable {table : DeclTable} {p : Procedure}

/-! ## Turns of the loop -/

/-- The marks and the work list after so many pops, none of which failed. -/
inductive Pops (table : DeclTable) (p : Procedure) : (pops : Nat) → Marks → List Edge → Prop where
  | start : Pops table p 0 (Array.replicate p.code.length none) [entry p]
  | pop {n : Nat} {marks marks' : Marks} {e : Edge} {work es : List Edge}
      (h : Pops table p n marks (e :: work))
      (hv : visit table p p.code.toArray marks e = .ok (marks', es)) :
      Pops table p (n + 1) marks' (es.reverse ++ work)

/-- A turn of the loop visits the edge that it pops. -/
theorem drain_cons (code : Array Instr) (steps : Nat) (marks : Marks) (e : Edge)
    (work : List Edge) :
    drain table p code (steps + 1) marks (e :: work) = visit table p code marks e >>=
      fun r => drain table p code steps r.1 (r.2.reverse ++ work) := by
  rw [drain_eq_drainBy, drainBy]
  simp only [drain_eq_drainBy]

/-- Every pop is paid for, by the edge it takes off the list or by the position it marks. -/
theorem Pops.paid (hf : ∀ i ∈ p.code, Furnished i) {n : Nat} {marks : Marks} {work : List Edge}
    (h : Pops table p n marks work) :
    Progress table p marks work ∧
      n + (work.length + budget p.code marks.toList) ≤ stepBound p.code := by
  induction h with
  | start =>
    refine ⟨Progress.start, ?_⟩
    rw [Array.toList_replicate, budget_replicate, Nat.zero_add]
    exact Nat.le_refl _
  | @pop n marks marks' e work es h hv ih =>
    obtain ⟨hprogress, hpaid⟩ := ih
    have hpay := @length_add_budget_lt _ _ _ _ _ work _ hf hprogress.size_eq hv
    exact ⟨hprogress.step hf hv, by omega⟩

/-! ## Depths -/

/-- No depth on the work list or among the marks is negative. -/
structure Nonneg (marks : Marks) (work : List Edge) : Prop where
  work : ∀ e ∈ work, 0 ≤ e.depth
  marks : ∀ (pc : Nat) (d : Int), marks[pc]? = some (some d) → 0 ≤ d

section Depths

variable {arity : UInt32} {size : Nat} {e q : Edge} {i : Instr}

/-- What an instruction requires of the depth pays for what it takes off the stack. -/
theorem nonneg_change {c : Int} (hadmits : Admits table arity size e i) (he : 0 ≤ e.depth)
    (hc : change table i = some c) : 0 ≤ e.depth + c := by
  unfold Admits at hadmits
  unfold change at hc
  cases hop : i.op with
  | undefined code h =>
    rw [hop] at hc
    cases hc
  | named m =>
    rw [hop] at hadmits hc
    cases m with
    | goto | cases2 | casesN | natCases | builtinCases | unreachable | ret => cases hc
    | push | drop | scnstr | num | expr | cnstr | proj | apply =>
      obtain rfl := Option.some.inj hc
      dsimp only at hadmits
      omega
    | destruct =>
      obtain ⟨f, -, rfl⟩ := Option.map_eq_some_iff.mp hc
      dsimp only at hadmits
      omega
    | invokeGlobal | invokeBuiltin | invokeNative =>
      obtain ⟨d, hd, -, harity⟩ := hadmits
      obtain ⟨d', hd', rfl⟩ := Option.map_eq_some_iff.mp hc
      obtain rfl := Option.some.inj (hd.symm.trans hd')
      omega
    | closure =>
      obtain ⟨d, -, -, hdepth⟩ := hadmits
      obtain rfl := Option.some.inj hc
      omega

/-- A dispatch finds the value that it takes off the stack. -/
theorem one_le_of_dispatches (hadmits : Admits table arity size e i)
    (hop : dispatches i.op = true) : 1 ≤ e.depth := by
  unfold dispatches at hop
  unfold Admits at hadmits
  split at hop
  case h_5 => cases hop
  all_goals
    rename_i hop'
    rw [hop'] at hadmits
    exact hadmits.1

/-- No instruction that passes its check leaves a negative depth. -/
theorem nonneg_exits (hadmits : Admits table arity size e i) (he : 0 ≤ e.depth)
    (hq : q ∈ exits table e i) : 0 ≤ q.depth := by
  unfold exits at hq
  split at hq
  next =>
    obtain ⟨t, -, rfl⟩ := List.mem_map.mp hq
    exact he
  next =>
    split at hq
    next hop =>
      obtain ⟨tf, -, rfl⟩ := List.mem_map.mp hq
      have hone := one_le_of_dispatches hadmits hop
      show 0 ≤ e.depth - 1 + (tf.2.toNat : Int)
      omega
    next =>
      obtain ⟨c, hc, rfl⟩ := List.mem_map.mp hq
      exact nonneg_change hadmits he (Option.mem_toList.mp hc)

end Depths

/-- One pop. -/
theorem Nonneg.step (hf : ∀ i ∈ p.code, Furnished i) {marks marks' : Marks} {e : Edge}
    {work es : List Edge} (h : Nonneg marks (e :: work))
    (hv : visit table p p.code.toArray marks e = .ok (marks', es)) :
    Nonneg marks' (es.reverse ++ work) := by
  obtain ⟨he, hwork⟩ := List.forall_mem_cons.mp h.work
  obtain ⟨i, -, ⟨-, rfl, rfl⟩ | ⟨-, hadmits, rfl, rfl⟩⟩ := (visit_eq_ok_iff hf).mp hv
  · exact ⟨hwork, h.marks⟩
  · refine ⟨List.forall_mem_append.mpr ⟨fun q hq => ?_, hwork⟩, fun pc d hd => ?_⟩
    · exact nonneg_exits hadmits he (List.mem_reverse.mp hq)
    · rw [Array.getElem?_setIfInBounds] at hd
      split at hd
      next =>
        split at hd
        next =>
          obtain rfl := Option.some.inj (Option.some.inj hd)
          exact he
        next => cases hd
      next => exact h.marks pc d hd

theorem Pops.nonneg (hf : ∀ i ∈ p.code, Furnished i) {n : Nat} {marks : Marks} {work : List Edge}
    (h : Pops table p n marks work) : Nonneg marks work := by
  induction h with
  | start =>
    refine ⟨fun e he => ?_, fun pc d hd => ?_⟩
    · rw [List.mem_singleton.mp he]
      exact Int.natCast_nonneg _
    · simp [Array.getElem?_replicate] at hd
  | pop h hv ih => exact ih.step hf hv

/-! ## The end of the loop -/

/-- A pop fails only on a problem with the instruction or with the way to it. -/
theorem exists_finding_of_visit (hf : ∀ i ∈ p.code, Furnished i) {marks : Marks} {e : Edge}
    {failure : Failure} (hv : visit table p p.code.toArray marks e = .error failure) :
    ∃ finding, failure = .rejected finding := by
  unfold visit at hv
  rw [List.getElem?_toArray] at hv
  cases hi : p.code[e.pc]? with
  | none =>
    rw [hi] at hv
    cases hv
    exact ⟨_, rfl⟩
  | some i =>
    rw [hi] at hv
    cases hm : marks[e.pc]?.join with
    | some seen =>
      simp only [hm] at hv
      split at hv
      · cases hv
        exact ⟨_, rfl⟩
      · cases hv
    | none =>
      simp only [hm] at hv
      cases hes : edges table p.arity p.code.toArray.size e.pc e.depth i with
      | ok es =>
        rw [hes] at hv
        cases hv
      | error stop =>
        rw [hes] at hv
        cases stop with
        | problem problem =>
          cases hv
          exact ⟨_, rfl⟩
        | fault f =>
          exact absurd (hf i (List.mem_of_getElem? hi)) (not_furnished_of_edges hes).2

/-- How the loop ends after so many pops: the list is empty, or the last pop had a finding. -/
inductive Finishes (table : DeclTable) (p : Procedure) :
    (pops : Nat) → Except Failure Marks → Prop where
  | drained {n : Nat} {marks : Marks} (h : Pops table p n marks []) :
      Finishes table p n (.ok marks)
  | rejected {n : Nat} {marks : Marks} {e : Edge} {work : List Edge} {finding : Finding}
      (h : Pops table p n marks (e :: work))
      (hv : visit table p p.code.toArray marks e = .error (.rejected finding)) :
      Finishes table p (n + 1) (.error (.rejected finding))

/-- The loop ends, and any bound that covers the list and what may be added to it lets it end. -/
theorem Pops.finishes (hf : ∀ i ∈ p.code, Furnished i) {n : Nat} {marks : Marks}
    {work : List Edge} (h : Pops table p n marks work) :
    ∃ n' result, Finishes table p n' result ∧
      ∀ steps, work.length + budget p.code marks.toList ≤ steps →
        drain table p p.code.toArray steps marks work = result := by
  -- every pop takes something off the list and the budget together
  induction hsize : work.length + budget p.code marks.toList using Nat.strongRecOn
    generalizing n marks work with
  | ind size ih =>
    subst hsize
    cases work with
    | nil =>
      refine ⟨n, _, .drained h, fun steps _ => ?_⟩
      cases steps <;> rfl
    | cons e work =>
      cases hv : visit table p p.code.toArray marks e with
      | error failure =>
        obtain ⟨finding, rfl⟩ := exists_finding_of_visit hf hv
        refine ⟨n + 1, _, .rejected h hv, fun steps hsteps => ?_⟩
        rw [List.length_cons] at hsteps
        obtain ⟨steps, rfl⟩ : ∃ k, steps = k + 1 := ⟨steps - 1, by omega⟩
        rw [drain_cons, hv]
        rfl
      | ok r =>
        have hpay := @length_add_budget_lt _ _ _ _ _ work _ hf (h.paid hf).1.size_eq hv
        obtain ⟨n', result, hend, hdrain⟩ := ih _ hpay (h.pop hv) rfl
        refine ⟨n', result, hend, fun steps hsteps => ?_⟩
        rw [List.length_cons] at hsteps hpay
        obtain ⟨steps, rfl⟩ : ∃ k, steps = k + 1 := ⟨steps - 1, by omega⟩
        rw [drain_cons, hv]
        exact hdrain steps (by omega)

theorem Finishes.le_stepBound (hf : ∀ i ∈ p.code, Furnished i) {n : Nat}
    {result : Except Failure Marks} (h : Finishes table p n result) : n ≤ stepBound p.code := by
  cases h with
  | drained h =>
    have hpaid := (h.paid hf).2
    omega
  | rejected h hv =>
    have hpaid := (h.paid hf).2
    rw [List.length_cons] at hpaid
    omega

/-! ## Integer marks -/

/-- Marks as integers, `-1` where there is none. -/
def signed (marks : Marks) : Array Int :=
  marks.map (·.getD (-1))

/-- What popping an edge does to integer marks: a position counts as marked when its mark is not
    negative. -/
def visitSigned (table : DeclTable) (p : Procedure) (code : Array Instr) (depths : Array Int)
    (e : Edge) : Except Failure (Array Int × List Edge) :=
  let reject (problem : Problem) : Except Failure (Array Int × List Edge) :=
    .error (.rejected ⟨p.name, e.pc, problem⟩)
  match code[e.pc]? with
  | none => reject (.fallOff e.depth)
  | some i =>
    let seen := depths.getD e.pc (-1)
    if 0 ≤ seen then
      if seen ≠ e.depth then reject (.depthMismatch seen e.depth) else .ok (depths, [])
    else
      match edges table p.arity code.size e.pc e.depth i with
      | .error (.problem problem) => reject problem
      | .error (.fault f) => .error (.fault f)
      | .ok es => .ok (depths.setIfInBounds e.pc e.depth, es)

/-- The loop on integer marks. -/
def drainSigned (table : DeclTable) (p : Procedure) (code : Array Instr) :
    (steps : Nat) → Array Int → List Edge → Except Failure (Array Int)
  | _, depths, [] => .ok depths
  | 0, _, _ :: _ => .error .unfinished
  | steps + 1, depths, e :: work => do
      let (depths, es) ← visitSigned table p code depths e
      drainSigned table p code steps depths (es.reverse ++ work)

theorem getD_signed (marks : Marks) (pc : Nat) :
    (signed marks).getD pc (-1) = marks[pc]?.join.getD (-1) := by
  rw [signed, Array.getD_eq_getD_getElem?, Array.getElem?_map]
  cases marks[pc]? with
  | none => rfl
  | some m => cases m <;> rfl

theorem signed_replicate (size : Nat) :
    signed (Array.replicate size none) = Array.replicate size (-1) := by
  rw [signed, Array.map_replicate]
  rfl

theorem signed_mark (marks : Marks) (e : Edge) :
    signed (marks.setIfInBounds e.pc (some e.depth)) =
      (signed marks).setIfInBounds e.pc e.depth := by
  rw [signed, signed, Array.map_setIfInBounds]
  rfl

/-- A mark that is not negative is never taken for a missing one. -/
theorem visitSigned_signed (code : Array Instr) {marks : Marks} {work : List Edge}
    (h : Nonneg marks work) (e : Edge) :
    visitSigned table p code (signed marks) e =
      visit table p code marks e >>= fun r => .ok (signed r.1, r.2) := by
  unfold visitSigned visit
  dsimp only
  rw [getD_signed]
  cases code[e.pc]? with
  | none => rfl
  | some i =>
    cases hm : marks[e.pc]?.join with
    | some seen =>
      have hseen : 0 ≤ seen := h.marks e.pc seen (Option.join_eq_some_iff.mp hm)
      by_cases heq : seen = e.depth
      · simp [heq ▸ hseen, heq]
      · simp [hseen, heq]
    | none =>
      cases hes : edges table p.arity code.size e.pc e.depth i with
      | ok es => simp [hes, signed_mark]
      | error stop => cases stop <;> simp [hes]

/-- So the two loops do the same. -/
theorem Pops.drainSigned_eq (hf : ∀ i ∈ p.code, Furnished i) {n : Nat} {marks : Marks}
    {work : List Edge} (h : Pops table p n marks work) (steps : Nat) :
    drainSigned table p p.code.toArray steps (signed marks) work =
      signed <$> drain table p p.code.toArray steps marks work := by
  induction steps generalizing n marks work with
  | zero => cases work <;> rfl
  | succ steps ih =>
    cases work with
    | nil => rfl
    | cons e work =>
      rw [drain_cons, drainSigned, visitSigned_signed _ (h.nonneg hf)]
      cases hv : visit table p p.code.toArray marks e with
      | error failure => rfl
      | ok r => exact ih (h.pop hv)

/-- Verification with integer marks and any bound on the number of pops. -/
def analyzeSigned (table : DeclTable) (p : Procedure) (steps : Nat) : Except Failure Analysis := do
  let depths ← drainSigned table p p.code.toArray steps (Array.replicate p.code.length (-1))
    [entry p]
  return ⟨depths.toList⟩

/-! ## Verification -/

/-- Whatever the code, the loop pops at most the entry and one edge for each edge that leaves an
    instruction; no depth on the list or among the marks is negative at any turn; it ends with an
    empty list or with a finding, which is the answer of the verification; and the loop on integer
    marks gives the same answer under every bound that covers these pops. -/
theorem analyze_drains (table : DeclTable) (p : Procedure) (hf : ∀ i ∈ p.code, Furnished i) :
    (∀ n marks work, Pops table p n marks work →
      n + work.length ≤ stepBound p.code ∧ Nonneg marks work) ∧
    (∃ n result, Finishes table p n result ∧ n ≤ stepBound p.code ∧
      analyze table p = (fun marks => ⟨(signed marks).toList⟩) <$> result) ∧
    ∀ steps, stepBound p.code ≤ steps → analyzeSigned table p steps = analyze table p := by
  have hstart : Pops table p 0 (Array.replicate p.code.length none) [entry p] := .start
  have hbound := (hstart.paid hf).2
  obtain ⟨n, result, hend, hdrain⟩ := hstart.finishes hf
  have hanalyze : analyze table p = (fun marks => ⟨(signed marks).toList⟩) <$> result := by
    rw [analyze, ← hdrain (stepBound p.code) (by omega)]
    simp only [signed, Array.toList_map]
    rfl
  refine ⟨fun n marks work h => ⟨?_, h.nonneg hf⟩,
    ⟨n, result, hend, hend.le_stepBound hf, hanalyze⟩, fun steps hsteps => ?_⟩
  · have hpaid := (h.paid hf).2
    omega
  · rw [hanalyze, analyzeSigned, ← signed_replicate, hstart.drainSigned_eq hf,
      hdrain steps (by omega)]
    cases result <;> rfl

/-- A dispatch that names one target twice, a jump back to the entry, and a jump to itself. -/
def churn : Procedure where
  name := "churn"
  arity := 1
  code :=
    [.push 0,
     { op := .named .casesN, targets := [2, 2, 3], fields := [0, 0, 0] },
     { op := .named .goto, targets := [0] },
     { op := .named .goto, targets := [3] },
     .ret]

theorem churn_drains :
    (∀ i ∈ churn.code, Furnished i) ∧ stepBound churn.code = 7 ∧
      (∀ n marks work, Pops .empty churn n marks work → n + work.length ≤ 7 ∧ Nonneg marks work) ∧
      (∃ n result, Finishes .empty churn n result ∧ n ≤ 7) ∧
      ∀ steps, 7 ≤ steps → analyzeSigned .empty churn steps = .ok ⟨[1, 2, 1, 1, -1]⟩ := by
  have hf : ∀ i ∈ churn.code, Furnished i := by decide
  have ha : analyze .empty churn = .ok ⟨[1, 2, 1, 1, -1]⟩ := by rfl
  obtain ⟨hpops, ⟨n, result, hend, hn, -⟩, hsigned⟩ := analyze_drains .empty churn hf
  exact ⟨hf, rfl, hpops, ⟨n, result, hend, hn⟩, fun steps hsteps => (hsigned steps hsteps).trans ha⟩

end TermVM.Verify
