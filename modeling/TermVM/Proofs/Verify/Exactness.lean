/-
  TermVM.Proofs.Verify.Exactness

  Verification decides the stack discipline, whatever the order in which its
  work list is drained.

  `drainBy` is the verifier's loop with the work list rearranged before every
  pop; the verifier's own order is the one that rearranges nothing.  One pop is
  `visit`, and `Progress` is what every pop preserves: marks are reachable
  points that pass their checks, and every point that a mark leads to is marked
  or still on the list.  Once the list is empty the marks are closed under
  control flow, so they are exactly the reachable points.  In the other
  direction a disciplined procedure gives no pop a reason to fail, and `budget`
  bounds the number of pops.
-/
import TermVM.Proofs.Verify.Flow

namespace TermVM.Verify

/-! ## The loop in any order -/

/-- What popping an edge does: the marks behind it, and the edges it adds to the list. -/
def visit (table : DeclTable) (p : Procedure) (code : Array Instr) (marks : Marks) (e : Edge) :
    Except Failure (Marks × List Edge) :=
  let reject (problem : Problem) : Except Failure (Marks × List Edge) :=
    .error (.rejected ⟨p.name, e.pc, problem⟩)
  match code[e.pc]? with
  | none => reject (.fallOff e.depth)
  | some i =>
    match marks[e.pc]?.join with
    | some seen => if seen ≠ e.depth then reject (.depthMismatch seen e.depth) else .ok (marks, [])
    | none =>
      match edges table p.arity code.size e.pc e.depth i with
      | .error (.problem problem) => reject problem
      | .error (.fault f) => .error (.fault f)
      | .ok es => .ok (marks.setIfInBounds e.pc (some e.depth), es)

/-- The loop with the work list rearranged by `order` before every pop. -/
def drainBy (order : Nat → List Edge → List Edge) (table : DeclTable) (p : Procedure)
    (code : Array Instr) (steps : Nat) (marks : Marks) (work : List Edge) :
    Except Failure Marks :=
  match order steps work with
  | [] => .ok marks
  | e :: rest =>
    match steps with
    | 0 => .error .unfinished
    | steps + 1 => do
        let (marks, es) ← visit table p code marks e
        drainBy order table p code steps marks (es.reverse ++ rest)

/-- Verification with the work list drained in the given order. -/
def analyzeBy (order : Nat → List Edge → List Edge) (table : DeclTable) (p : Procedure) :
    Except Failure Analysis := do
  let marks ← drainBy order table p p.code.toArray (stepBound p.code)
    (Array.replicate p.code.length none) [entry p]
  return ⟨marks.toList.map (·.getD (-1))⟩

/-- An order neither loses nor adds edges. -/
def Rearranges (order : Nat → List Edge → List Edge) : Prop :=
  ∀ steps work, (order steps work).Perm work

/-- The verifier's own order takes the last edge found first. -/
theorem drain_eq_drainBy (table : DeclTable) (p : Procedure) (code : Array Instr) (steps : Nat)
    (marks : Marks) (work : List Edge) :
    drain table p code steps marks work =
      drainBy (fun _ work => work) table p code steps marks work := by
  induction steps generalizing marks work with
  | zero => cases work <;> rfl
  | succ steps ih =>
    cases work with
    | nil => rfl
    | cons e work =>
      unfold drain drainBy visit
      cases code[e.pc]? with
      | none => rfl
      | some i =>
        cases marks[e.pc]?.join with
        | some seen =>
          by_cases hseen : seen = e.depth
          · simp [hseen, ih]
          · simp [hseen]
        | none =>
          cases hes : edges table p.arity code.size e.pc e.depth i with
          | ok es => simp [hes, ih]
          | error stop => cases stop <;> simp [hes]

theorem analyze_eq_analyzeBy (table : DeclTable) (p : Procedure) :
    analyze table p = analyzeBy (fun _ work => work) table p := by
  unfold analyze analyzeBy
  rw [drain_eq_drainBy]
  rfl

/-! ## One pop -/

/-- What a pop that succeeds has done: it met a mark again, or it checked and marked a new
    position. -/
theorem visit_eq_ok_iff {table : DeclTable} {p : Procedure} {marks marks' : Marks} {e : Edge}
    {es : List Edge} (hf : ∀ i ∈ p.code, Furnished i) :
    visit table p p.code.toArray marks e = .ok (marks', es) ↔
      ∃ i, p.code[e.pc]? = some i ∧
        ((marks[e.pc]?.join = some e.depth ∧ marks' = marks ∧ es = []) ∨
          (marks[e.pc]?.join = none ∧ Admits table p.arity p.code.length e i ∧
            marks' = marks.setIfInBounds e.pc (some e.depth) ∧ es = exits table e i)) := by
  unfold visit
  rw [List.getElem?_toArray, List.size_toArray]
  cases hi : p.code[e.pc]? with
  | none => simp
  | some i =>
    have hrule := @edges_eq_ok_iff table p.arity p.code.length e i es
      (hf i (List.mem_of_getElem? hi))
    cases hm : marks[e.pc]?.join with
    | some seen =>
      by_cases hseen : seen = e.depth <;> simp [hseen, eq_comm]
    | none =>
      cases hes : edges table p.arity p.code.length e.pc e.depth i with
      | error stop => cases stop <;> simp_all
      | ok es' =>
        rw [hes, Except.ok.injEq, eq_comm] at hrule
        simp only [hes, Except.ok.injEq, Prod.mk.injEq]
        constructor
        · rintro ⟨rfl, rfl⟩
          exact ⟨i, rfl, Or.inr ⟨trivial, (hrule.mp rfl).1, rfl, (hrule.mp rfl).2⟩⟩
        · rintro ⟨j, hj, ⟨hseen, -⟩ | ⟨-, hadmits, rfl, hexits⟩⟩
          · cases hseen
          · cases hj
            exact ⟨rfl, (hrule.mpr ⟨hadmits, hexits⟩).symm⟩

/-- An edge has been dealt with when it is still on the list or its point is marked. -/
def Found (marks : Marks) (work : List Edge) (e : Edge) : Prop :=
  e ∈ work ∨ marks[e.pc]? = some (some e.depth)

/-- What every pop preserves. -/
structure Progress (table : DeclTable) (p : Procedure) (marks : Marks) (work : List Edge) :
    Prop where
  size_eq : marks.size = p.code.length
  reached : ∀ e ∈ work, Reaches table p e
  marked : ∀ e, marks[e.pc]? = some (some e.depth) →
    Reaches table p e ∧ ∃ i, p.code[e.pc]? = some i ∧ Admits table p.arity p.code.length e i
  closed : ∀ e e', marks[e.pc]? = some (some e.depth) → Flow table p.code e e' →
    Found marks work e'
  started : Found marks work (entry p)

namespace Progress

variable {table : DeclTable} {p : Procedure} {marks marks' : Marks} {work work' es : List Edge}
  {e : Edge}

/-- The order of the work list does not matter. -/
theorem perm (h : Progress table p marks work) (hperm : work'.Perm work) :
    Progress table p marks work' where
  size_eq := h.size_eq
  reached e he := h.reached e (hperm.mem_iff.mp he)
  marked := h.marked
  closed e e' he hflow := (h.closed e e' he hflow).imp_left hperm.mem_iff.mpr
  started := h.started.imp_left hperm.mem_iff.mpr

/-- Before the first pop nothing is marked. -/
theorem start : Progress table p (Array.replicate p.code.length none) [entry p] where
  size_eq := Array.size_replicate
  reached e he := by
    rw [List.mem_singleton.mp he]
    exact Relation.ReflTransGen.refl
  marked e he := by simp [Array.getElem?_replicate] at he
  closed e e' he := by simp [Array.getElem?_replicate] at he
  started := Or.inl (List.mem_singleton.mpr rfl)

/-- Marks hold what was marked before, and the point just popped. -/
theorem getElem?_mark {q : Edge} (hlt : e.pc < marks.size) (hnew : marks[e.pc]?.join = none) :
    (marks.setIfInBounds e.pc (some e.depth))[q.pc]? = some (some q.depth) ↔
      q = e ∨ marks[q.pc]? = some (some q.depth) := by
  rw [Array.getElem?_setIfInBounds]
  by_cases hpc : e.pc = q.pc
  · have hold : marks[q.pc]? ≠ some (some q.depth) := by
      rw [← hpc]
      intro hq
      simp [hq] at hnew
    cases e with | mk pc d => cases q with | mk pc' d' => simp_all [eq_comm]
  · have hne : q ≠ e := fun h => hpc (h ▸ rfl)
    simp [hpc, hne]

/-- One pop. -/
theorem step (hf : ∀ i ∈ p.code, Furnished i) (h : Progress table p marks (e :: work))
    (hv : visit table p p.code.toArray marks e = .ok (marks', es)) :
    Progress table p marks' (es.reverse ++ work) := by
  have hreach : Reaches table p e := h.reached e List.mem_cons_self
  obtain ⟨i, hi, ⟨hseen, rfl, rfl⟩ | ⟨hnew, hadmits, rfl, rfl⟩⟩ := (visit_eq_ok_iff hf).mp hv
  · -- the position was marked with this depth: the edge only leaves the list
    have hmark : marks'[e.pc]? = some (some e.depth) := by
      simpa [Option.join_eq_some_iff] using hseen
    have hfound : ∀ q, Found marks' (e :: work) q → Found marks' work q := by
      rintro q (hq | hq)
      · rcases List.mem_cons.mp hq with rfl | hq
        · exact Or.inr hmark
        · exact Or.inl hq
      · exact Or.inr hq
    exact {
      size_eq := h.size_eq
      reached := fun q hq => h.reached q (List.mem_cons_of_mem _ hq)
      marked := h.marked
      closed := fun q q' hq hflow => hfound q' (h.closed q q' hq hflow)
      started := hfound _ h.started }
  · -- a new position: its exits join the list
    have hlt : e.pc < marks.size := by
      rw [h.size_eq]
      exact (List.getElem?_eq_some_iff.mp hi).1
    have hfound : ∀ q, Found marks (e :: work) q → Found
        (marks.setIfInBounds e.pc (some e.depth)) ((exits table e i).reverse ++ work) q := by
      rintro q (hq | hq)
      · rcases List.mem_cons.mp hq with rfl | hq
        · exact Or.inr ((getElem?_mark hlt hnew).mpr (Or.inl rfl))
        · exact Or.inl (List.mem_append_right _ hq)
      · exact Or.inr ((getElem?_mark hlt hnew).mpr (Or.inr hq))
    refine ⟨by simpa using h.size_eq, ?_, ?_, ?_, hfound _ h.started⟩
    · intro q hq
      rcases List.mem_append.mp hq with hq | hq
      · exact hreach.tail ⟨i, hi, List.mem_reverse.mp hq⟩
      · exact h.reached q (List.mem_cons_of_mem _ hq)
    · intro q hq
      rcases (getElem?_mark hlt hnew).mp hq with rfl | hq
      · exact ⟨hreach, i, hi, hadmits⟩
      · exact h.marked q hq
    · intro q q' hq hflow
      rcases (getElem?_mark hlt hnew).mp hq with rfl | hq
      · obtain ⟨j, hj, hq'⟩ := hflow
        obtain rfl : i = j := Option.some.inj (hi.symm.trans hj)
        exact Or.inl (List.mem_append_left _ (List.mem_reverse.mpr hq'))
      · exact hfound q' (h.closed q q' hq hflow)

/-- Once the list is empty, every reachable point is marked. -/
theorem mark_of_reaches (h : Progress table p marks []) (he : Reaches table p e) :
    marks[e.pc]? = some (some e.depth) := by
  induction he with
  | refl => exact h.started.resolve_left List.not_mem_nil
  | tail _ hflow ih => exact (h.closed _ _ ih hflow).resolve_left List.not_mem_nil

/-- Once the list is empty, the marks show that the procedure is disciplined. -/
theorem disciplined (h : Progress table p marks []) : Disciplined table p where
  admits e he := (h.marked e (h.mark_of_reaches he)).2
  agree pc d d' hd hd' := by
    have hmark := h.mark_of_reaches hd
    have hmark' := h.mark_of_reaches hd'
    simpa using hmark.symm.trans hmark'

end Progress

/-! ## The number of pops -/

/-- The edges that may still be added: those leaving the positions not marked yet. -/
def budget : Code → List (Option Int) → Nat
  | i :: code, m :: marks => (if m.isNone then edgeCount i else 0) + budget code marks
  | _, _ => 0

theorem budget_replicate (code : Code) :
    budget code (List.replicate code.length none)
      = code.foldr (fun i n => edgeCount i + n) 0 := by
  induction code with
  | nil => rfl
  | cons i code ih => simp [budget, List.replicate_succ, ih]

/-- Marking a position takes its edges out of the budget. -/
theorem budget_set {code : Code} {marks : List (Option Int)} {pc : Nat} {i : Instr} {d : Int}
    (hi : code[pc]? = some i) (hm : marks[pc]? = some none) :
    budget code (marks.set pc (some d)) + edgeCount i = budget code marks := by
  induction pc generalizing code marks with
  | zero =>
    cases code with
    | nil => simp at hi
    | cons j code =>
      cases marks with
      | nil => simp at hm
      | cons m marks =>
        obtain rfl : j = i := by simpa using hi
        obtain rfl : m = none := by simpa using hm
        simp [budget]
        omega
  | succ pc ih =>
    cases code with
    | nil => simp at hi
    | cons j code =>
      cases marks with
      | nil => simp at hm
      | cons m marks =>
        have htail : budget code (marks.set pc (some d)) + edgeCount i = budget code marks :=
          ih (by simpa using hi) (by simpa using hm)
        simp only [List.set_cons_succ, budget]
        omega

/-- Marking a position pays for its exits. -/
theorem length_exits_add_budget_le (table : DeclTable) {p : Procedure} {marks : Marks} {e : Edge}
    {i : Instr} (hsize : marks.size = p.code.length) (hi : p.code[e.pc]? = some i)
    (hnew : marks[e.pc]?.join = none) :
    (exits table e i).length + budget p.code (marks.setIfInBounds e.pc (some e.depth)).toList ≤
      budget p.code marks.toList := by
  have hlt : e.pc < marks.size := by
    rw [hsize]
    exact (List.getElem?_eq_some_iff.mp hi).1
  have hnone : marks.toList[e.pc]? = some none := by
    rw [Array.getElem?_toList, Array.getElem?_eq_getElem hlt]
    simpa [Array.getElem?_eq_getElem hlt] using hnew
  have hpay := budget_set (d := e.depth) hi hnone
  have hexits := length_exits_le table e i
  rw [Array.toList_setIfInBounds]
  omega

/-- A pop pays for the edges it adds. -/
theorem length_add_budget_lt {table : DeclTable} {p : Procedure} {marks marks' : Marks} {e : Edge}
    {work es : List Edge} (hf : ∀ i ∈ p.code, Furnished i) (hsize : marks.size = p.code.length)
    (hv : visit table p p.code.toArray marks e = .ok (marks', es)) :
    (es.reverse ++ work).length + budget p.code marks'.toList <
      (e :: work).length + budget p.code marks.toList := by
  obtain ⟨i, hi, ⟨-, rfl, rfl⟩ | ⟨hnew, -, rfl, rfl⟩⟩ := (visit_eq_ok_iff hf).mp hv
  · simp
  · have hpay := length_exits_add_budget_le table hsize hi hnew
    simp only [List.length_append, List.length_reverse, List.length_cons]
    omega

/-! ## Runs -/

/-- What a whole run preserves. -/
theorem drainBy_progress {order : Nat → List Edge → List Edge} {table : DeclTable} {p : Procedure}
    {steps : Nat} {marks final : Marks} {work : List Edge} (ho : Rearranges order)
    (hf : ∀ i ∈ p.code, Furnished i) (h : Progress table p marks work)
    (hd : drainBy order table p p.code.toArray steps marks work = .ok final) :
    Progress table p final [] := by
  induction steps generalizing marks work with
  | zero =>
    have hperm := h.perm (ho 0 work)
    unfold drainBy at hd
    cases hw : order 0 work with
    | nil =>
      rw [hw] at hd hperm
      cases hd
      exact hperm
    | cons e rest => simp [hw] at hd
  | succ steps ih =>
    have hperm := h.perm (ho (steps + 1) work)
    unfold drainBy at hd
    cases hw : order (steps + 1) work with
    | nil =>
      rw [hw] at hd hperm
      cases hd
      exact hperm
    | cons e rest =>
      rw [hw] at hd hperm
      obtain ⟨⟨marks', es⟩, hv, hd⟩ := Result.bind_eq_ok.mp hd
      exact ih (hperm.step hf hv) hd

/-- A disciplined procedure gives no pop a reason to fail. -/
theorem visit_of_disciplined {table : DeclTable} {p : Procedure} {marks : Marks} {e : Edge}
    {work : List Edge} (hf : ∀ i ∈ p.code, Furnished i) (hd : Disciplined table p)
    (h : Progress table p marks (e :: work)) :
    ∃ marks' es, visit table p p.code.toArray marks e = .ok (marks', es) := by
  have hreach : Reaches table p e := h.reached e List.mem_cons_self
  obtain ⟨i, hi, hadmits⟩ := hd.admits e hreach
  cases hm : marks[e.pc]?.join with
  | none =>
    exact ⟨_, _, (visit_eq_ok_iff hf).mpr ⟨i, hi, Or.inr ⟨hm, hadmits, rfl, rfl⟩⟩⟩
  | some seen =>
    have hmark : marks[e.pc]? = some (some seen) := by
      simpa [Option.join_eq_some_iff] using hm
    have hseen : Reaches table p ⟨e.pc, seen⟩ := (h.marked ⟨e.pc, seen⟩ hmark).1
    obtain rfl : seen = e.depth := hd.agree e.pc seen e.depth hseen hreach
    exact ⟨_, _, (visit_eq_ok_iff hf).mpr ⟨i, hi, Or.inl ⟨hm, rfl, rfl⟩⟩⟩

/-- A run on a disciplined procedure ends with marks, given enough steps. -/
theorem drainBy_of_disciplined {order : Nat → List Edge → List Edge} {table : DeclTable}
    {p : Procedure} {steps : Nat} {marks : Marks} {work : List Edge} (ho : Rearranges order)
    (hf : ∀ i ∈ p.code, Furnished i) (hd : Disciplined table p) (h : Progress table p marks work)
    (hsteps : work.length + budget p.code marks.toList ≤ steps) :
    ∃ final, drainBy order table p p.code.toArray steps marks work = .ok final := by
  induction steps generalizing marks work with
  | zero =>
    have hnil : work = [] := List.eq_nil_of_length_eq_zero (by omega)
    have horder : order 0 work = [] := List.eq_nil_of_length_eq_zero (by
      rw [(ho 0 work).length_eq, hnil, List.length_nil])
    exact ⟨marks, by rw [drainBy, horder]⟩
  | succ steps ih =>
    have hperm := h.perm (ho (steps + 1) work)
    unfold drainBy
    cases hw : order (steps + 1) work with
    | nil => exact ⟨marks, rfl⟩
    | cons e rest =>
      rw [hw] at hperm
      obtain ⟨marks', es, hv⟩ := visit_of_disciplined hf hd hperm
      have hlen : work.length = (e :: rest).length := by
        rw [← hw, (ho (steps + 1) work).length_eq]
      have hpay := @length_add_budget_lt _ _ _ _ _ rest _ hf h.size_eq hv
      obtain ⟨final, hfinal⟩ := ih (hperm.step hf hv) (by omega)
      exact ⟨final, by simp [hv, hfinal]⟩

/-! ## Exactness -/

/-- The depths of an analysis are those of the transition system: the one depth a reachable
    position is reached with, and `-1` at every other position. -/
structure Describes (table : DeclTable) (p : Procedure) (a : Analysis) : Prop where
  length_eq : a.depth.length = p.code.length
  reached : ∀ e, Reaches table p e → a.depth[e.pc]? = some e.depth
  unreached : ∀ pc < p.code.length, (∀ d, ¬Reaches table p ⟨pc, d⟩) → a.depth[pc]? = some (-1)

/-- At most one analysis has the depths of the transition system. -/
theorem Describes.unique {table : DeclTable} {p : Procedure} {a b : Analysis}
    (ha : Describes table p a) (hb : Describes table p b) : a = b := by
  cases a with | mk as => cases b with | mk bs =>
  congr 1
  refine List.ext_getElem? fun pc => ?_
  by_cases hreach : ∃ d, Reaches table p ⟨pc, d⟩
  · obtain ⟨d, hd⟩ := hreach
    exact (ha.reached _ hd).trans (hb.reached _ hd).symm
  · by_cases hpc : pc < p.code.length
    · have hnone : ∀ d, ¬Reaches table p ⟨pc, d⟩ := fun d hd => hreach ⟨d, hd⟩
      exact (ha.unreached pc hpc hnone).trans (hb.unreached pc hpc hnone).symm
    · rw [List.getElem?_eq_none (by have := ha.length_eq; simp at this; omega),
        List.getElem?_eq_none (by have := hb.length_eq; simp at this; omega)]

/-- The depths of final marks are those of the transition system. -/
theorem Progress.describes {table : DeclTable} {p : Procedure} {marks : Marks}
    (h : Progress table p marks []) :
    Describes table p ⟨marks.toList.map (·.getD (-1))⟩ where
  length_eq := by simp [h.size_eq]
  reached e he := by simp [h.mark_of_reaches he]
  unreached pc hpc hnone := by
    have hlt : pc < marks.size := by rw [h.size_eq]; exact hpc
    have hmark : marks[pc]? = some none := by
      cases hm : marks[pc] with
      | none => rw [Array.getElem?_eq_getElem hlt, hm]
      | some d =>
        have hd : marks[pc]? = some (some d) := by rw [Array.getElem?_eq_getElem hlt, hm]
        exact absurd (h.marked ⟨pc, d⟩ hd).1 (hnone d)
    simp [hmark]

section

variable {order : Nat → List Edge → List Edge} {table : DeclTable} {p : Procedure} {a : Analysis}

/-- An analysis made in any order shows discipline, and its depths are the right ones. -/
theorem analyzeBy_sound (ho : Rearranges order) (hf : ∀ i ∈ p.code, Furnished i)
    (h : analyzeBy order table p = .ok a) : Disciplined table p ∧ Describes table p a := by
  obtain ⟨marks, hmarks, ha⟩ := Result.bind_eq_ok.mp h
  have hfinal := drainBy_progress ho hf Progress.start hmarks
  cases ha
  exact ⟨hfinal.disciplined, hfinal.describes⟩

/-- A disciplined procedure is analyzed successfully in any order. -/
theorem analyzeBy_complete (ho : Rearranges order) (hf : ∀ i ∈ p.code, Furnished i)
    (hd : Disciplined table p) : ∃ a, analyzeBy order table p = .ok a := by
  have hsteps : [entry p].length + budget p.code
      (Array.replicate p.code.length (none : Option Int)).toList ≤ stepBound p.code := by
    rw [Array.toList_replicate, budget_replicate]
    exact Nat.le_refl _
  obtain ⟨final, hfinal⟩ := drainBy_of_disciplined ho hf hd Progress.start hsteps
  exact ⟨_, Result.bind_eq_ok.mpr ⟨final, hfinal, rfl⟩⟩

theorem rearranges_self : Rearranges fun _ work => work :=
  fun _ work => List.Perm.refl work

end

/-- Verification is exact.  It succeeds on the disciplined procedures and on no others, the depths
    it gives are those of the transition system, and draining the work list in another order
    changes neither. -/
theorem analyze_exact (table : DeclTable) (p : Procedure) (hf : ∀ i ∈ p.code, Furnished i) :
    ((∃ a, analyze table p = .ok a) ↔ Disciplined table p) ∧
      (∀ a, analyze table p = .ok a → Describes table p a) ∧
      ∀ order, Rearranges order → ∀ a, analyzeBy order table p = .ok a ↔ analyze table p = .ok a := by
  have hself := @rearranges_self
  refine ⟨⟨?_, ?_⟩, ?_, ?_⟩
  · rintro ⟨a, ha⟩
    rw [analyze_eq_analyzeBy] at ha
    exact (analyzeBy_sound hself hf ha).1
  · intro hd
    rw [analyze_eq_analyzeBy]
    exact analyzeBy_complete hself hf hd
  · intro a ha
    rw [analyze_eq_analyzeBy] at ha
    exact (analyzeBy_sound hself hf ha).2
  · intro order ho a
    rw [analyze_eq_analyzeBy]
    constructor
    · intro ha
      obtain ⟨hd, hdesc⟩ := analyzeBy_sound ho hf ha
      obtain ⟨b, hb⟩ := analyzeBy_complete hself hf hd
      rw [hdesc.unique (analyzeBy_sound hself hf hb).2, hb]
    · intro ha
      obtain ⟨hd, hdesc⟩ := analyzeBy_sound hself hf ha
      obtain ⟨b, hb⟩ := analyzeBy_complete ho hf hd
      rw [hdesc.unique (analyzeBy_sound ho hf hb).2, hb]

/-- A loop that ends when its argument says so, with an instruction behind the return that
    control never arrives at. -/
def spin : Procedure where
  name := "spin"
  arity := 1
  code :=
    [.push 0,
     { op := .named .cases2, targets := [2, 3], fields := [0, 0] },
     { op := .named .goto, targets := [0] },
     .literal 7,
     .ret,
     .apply]

theorem spin_exact :
    (∀ i ∈ spin.code, Furnished i) ∧ analyze .empty spin = .ok ⟨[1, 2, 1, 1, 2, -1]⟩ ∧
      Disciplined .empty spin ∧ Describes .empty spin ⟨[1, 2, 1, 1, 2, -1]⟩ := by
  have hf : ∀ i ∈ spin.code, Furnished i := by decide
  have ha : analyze .empty spin = .ok ⟨[1, 2, 1, 1, 2, -1]⟩ := by rfl
  have hexact := analyze_exact .empty spin hf
  exact ⟨hf, ha, hexact.1.mp ⟨_, ha⟩, hexact.2.1 _ ha⟩

end TermVM.Verify
