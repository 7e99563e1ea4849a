/-
  TermVM.Proofs.ArgumentCount

  The number of arguments of a case analysis.

  An analysis with `m` alternatives takes a subject and `m` more arguments.  The
  number of arguments is compared with `m + 1` as a 32-bit word.  For lists
  shorter than 2^32 this is the comparison of numbers, but at one point: `m + 1`
  is the word zero when `m` is 2^32 - 1, so that no arguments at all pass for
  the right number of them, and the analysis finds no subject.

  What an analysis does is told apart by an argument that cannot be compiled:
  whether it is looked at shows in the failure.
-/
import TermVM.Proofs.Outline.Shape

namespace TermVM.Codegen

/-- The code of an analysis whose arguments have been counted: its subject, the dispatch, and its
    alternatives. -/
def compileMatch (g : Globals) (head : CaseHead) (major : Term) (alts : List Term) (depth : Nat)
    (scope : Scope) : Gen Unit := do
  let _ ← compileTerm g major .value depth scope
  let pc ← emit head.instr
  let done ← compileAlternatives g alts depth scope
  completeDispatch pc head.instr done

namespace CaseHead

variable {head : CaseHead} {n : Nat}

/-- The violation that an analysis with a wrong number of arguments is reported as. -/
def violation (head : CaseHead) (given : Nat) : Invariant :=
  if head.alternatives = 0 then .noAlternatives head.label
  else .argumentCount head.label (head.alternatives + 1) given

/-- With `n` arguments, whatever they are, the first one is compiled and the analysis goes on from
    there. -/
def Proceeds (head : CaseHead) (n : Nat) : Prop :=
  ∀ (g : Globals) (args : List Term) (depth : Nat) (scope : Scope), args.length = n →
    ∃ major alts, args = major :: alts ∧
      compileAnalysis g head args depth scope = compileMatch g head major alts depth scope

/-- With `n` arguments, whatever they are, the analysis is reported as a violation. -/
def Stops (head : CaseHead) (n : Nat) : Prop :=
  ∀ (g : Globals) (args : List Term) (depth : Nat) (scope : Scope), args.length = n →
    compileAnalysis g head args depth scope = violated (head.violation n)

/-- With `n` arguments, whatever they are, the analysis looks for a subject that is not there. -/
def LacksSubject (head : CaseHead) (n : Nat) : Prop :=
  ∀ (g : Globals) (args : List Term) (depth : Nat) (scope : Scope), args.length = n →
    compileAnalysis g head args depth scope = throw .missingSubject

/-! ## The count -/

theorem proceeds_of_count (hpos : 1 ≤ head.alternatives.toNat)
    (hcount : n = head.alternatives.toNat + 1) (hn : n < 2 ^ 32) : head.Proceeds n := by
  rintro g (_ | ⟨major, alts⟩) depth scope rfl
  · simp at hcount
  have hsome : head.alternatives ≠ 0 := by
    intro hzero
    rw [hzero] at hpos
    exact absurd hpos (by decide)
  have hword := (ofNat_eq_announced_iff hn).mpr (.inl hcount)
  refine ⟨major, alts, rfl, ?_⟩
  rw [compileAnalysis, if_neg hsome, if_neg (not_not.mpr hword)]
  rfl

theorem lacksSubject_of_last (hlast : head.alternatives = 4294967295) : head.LacksSubject 0 := by
  intro g args depth scope hargs
  obtain rfl := List.length_eq_zero_iff.mp hargs
  rw [compileAnalysis, hlast]
  rfl

theorem stops_of_miscount (hn : n < 2 ^ 32)
    (hcount : ¬(1 ≤ head.alternatives.toNat ∧ n = head.alternatives.toNat + 1))
    (hlast : ¬(n = 0 ∧ head.alternatives = 4294967295)) : head.Stops n := by
  rintro g args depth scope rfl
  unfold violation
  rw [compileAnalysis.eq_def]
  split
  next => rfl
  next hsome =>
    have hpos : 1 ≤ head.alternatives.toNat :=
      Nat.one_le_iff_ne_zero.mpr fun h => hsome (UInt32.toNat_inj.mp h)
    have hword : UInt32.ofNat args.length ≠ head.alternatives + 1 := by
      intro hword
      rcases (ofNat_eq_announced_iff hn).mp hword with hright | hwrapped
      · exact hcount ⟨hpos, hright⟩
      · exact hlast hwrapped
    rw [if_pos hword]

/-! ## Telling the outcomes apart -/

/-- What becomes of an analysis of arguments that cannot be compiled. -/
def probe (head : CaseHead) (n : Nat) : Except Failure (Unit × State) :=
  (compileAnalysis ⟨.empty, none⟩ head (List.replicate n (.foreign "" [])) 0 []).run ⟨.empty, 0⟩

theorem Proceeds.probe_eq (h : head.Proceeds n) :
    head.probe n = .error (.unsupportedExtension "") := by
  obtain ⟨major, alts, hargs, hmatch⟩ := h ⟨.empty, none⟩ _ 0 [] List.length_replicate
  have hmajor : major = .foreign "" [] := by
    refine List.eq_of_mem_replicate (n := n) ?_
    rw [hargs]
    exact List.mem_cons_self
  rw [probe, hmatch, hmajor, compileMatch, compileTerm]
  rfl

theorem Stops.probe_eq (h : head.Stops n) :
    head.probe n = .error (.invariant (head.violation n)) := by
  rw [probe, h ⟨.empty, none⟩ _ 0 [] List.length_replicate]
  rfl

theorem LacksSubject.probe_eq (h : head.LacksSubject n) : head.probe n = .error .missingSubject := by
  rw [probe, h ⟨.empty, none⟩ _ 0 [] List.length_replicate]
  rfl

/-- The number of arguments decides what an analysis does, for every head and every number below
    2^32.  It compiles its subject exactly when it announces alternatives and has one more argument
    than these.  Any other number is reported as a violation, except none at all where 2^32 - 1
    alternatives are announced. -/
theorem count_exact (head : CaseHead) {n : Nat} (hn : n < 2 ^ 32) :
    (head.Proceeds n ↔ 1 ≤ head.alternatives.toNat ∧ n = head.alternatives.toNat + 1) ∧
    (head.Stops n ↔ ¬(1 ≤ head.alternatives.toNat ∧ n = head.alternatives.toNat + 1) ∧
      ¬(n = 0 ∧ head.alternatives = 4294967295)) ∧
    (head.LacksSubject n ↔ n = 0 ∧ head.alternatives = 4294967295) := by
  -- one of the outcomes holds in each case, and two outcomes would fail on the probe in two ways
  by_cases hcount : 1 ≤ head.alternatives.toNat ∧ n = head.alternatives.toNat + 1
  · have hproceeds := proceeds_of_count hcount.1 hcount.2 hn
    have hnone : ¬(n = 0 ∧ head.alternatives = 4294967295) := by omega
    refine ⟨iff_of_true hproceeds hcount, iff_of_false (fun h => ?_) (fun h => h.1 hcount),
      iff_of_false (fun h => ?_) hnone⟩
    · cases hproceeds.probe_eq.symm.trans h.probe_eq
    · cases hproceeds.probe_eq.symm.trans h.probe_eq
  by_cases hlast : n = 0 ∧ head.alternatives = 4294967295
  · obtain ⟨rfl, hword⟩ := hlast
    have hlacks := lacksSubject_of_last hword
    refine ⟨iff_of_false (fun h => ?_) hcount, iff_of_false (fun h => ?_) fun h => h.2 ⟨rfl, hword⟩,
      iff_of_true hlacks ⟨rfl, hword⟩⟩
    · cases hlacks.probe_eq.symm.trans h.probe_eq
    · cases hlacks.probe_eq.symm.trans h.probe_eq
  · have hstops := stops_of_miscount hn hcount hlast
    refine ⟨iff_of_false (fun h => ?_) hcount, iff_of_true hstops ⟨hcount, hlast⟩,
      iff_of_false (fun h => ?_) hlast⟩
    · cases hstops.probe_eq.symm.trans h.probe_eq
    · cases hstops.probe_eq.symm.trans h.probe_eq

/-- The natural numbers with a subject and two alternatives, and the most alternatives that can be
    registered with a subject alone. -/
theorem count_exact_natural :
    CaseHead.natural.Proceeds 3 ∧ (CaseHead.native ⟨"big", 0, 4294967295⟩).Stops 1 :=
  ⟨(count_exact .natural (by decide)).1.mpr (by decide),
    (count_exact (.native ⟨"big", 0, 4294967295⟩) (by decide)).2.1.mpr (by decide)⟩

/-- No arguments are not one more than 2^32 - 1 of them, yet no violation is reported. -/
theorem last_not_stopped :
    ¬(0 = (CaseHead.marked 4294967295).alternatives.toNat + 1) ∧
      ¬(CaseHead.marked 4294967295).Stops 0 ∧
      compileProcedure ⟨.empty, none⟩ "a" (.app (.const "_cases.4294967295" ⟨.cases, 4294967295⟩) [])
        = .error .missingSubject := by
  refine ⟨by decide, fun h => ?_, by decide +kernel⟩
  have hlacks : (CaseHead.marked 4294967295).LacksSubject 0 := lacksSubject_of_last rfl
  cases hlacks.probe_eq.symm.trans h.probe_eq

end CaseHead

end TermVM.Codegen
