/-
  TermVM.Proofs.Buffer.Finality

  What may still happen to code that a buffer has handed out.

  A closed buffer refuses to emit, and it has no placeholder left to patch.  It
  does accept field counts, for an instruction that has not been given any:
  `late` writes them in.  One call on a closed buffer changes the code in no
  other way, so the code after any further calls is known exactly.  Code that was
  handed out shares it, and it stays what it was just when every instruction with
  alternatives had been given its field counts before.
-/
import TermVM.Proofs.Buffer

namespace TermVM.Buffer

/-- A buffer that was closed with no placeholder left. -/
structure Closed (b : Buffer) : Prop where
  pending : b.pending = []
  finalized : b.finalized = true

theorem handOut_eq_ok {b b' : Buffer} {w : Handout} :
    b.handOut = .ok (b', w) ↔ b.finalize = .ok b' ∧ w = ⟨b'.next⟩ := by
  unfold handOut
  cases b.finalize with
  | error m => simp [Except.map]
  | ok c => grind [Except.map]

theorem closed_of_finalize {b b' : Buffer} (h : b.finalize = .ok b') : b'.Closed := by
  obtain ⟨hpending, rfl⟩ := finalize_eq_ok.mp h
  exact ⟨hpending, rfl⟩

/-- A closed buffer can be closed again and be given field counts; everything else is refused. -/
theorem Closed.make_eq_ok {b b' : Buffer} (hb : b.Closed) {c : Call} (h : b.make c = .ok b') :
    (c = .finalize ∧ b' = b) ∨
      ∃ pc fields, c = .setFields pc fields ∧ b.setFields pc fields = .ok b' := by
  cases c with
  | emit i =>
    -- the one call that looks at the mark of a closed buffer
    have hopen := (emit_eq_ok.mp h).1
    rw [hb.finalized] at hopen
    cases hopen
  | patch pc index target =>
    have hslot := (patch_eq_ok.mp h).1.2.1
    rw [hb.pending] at hslot
    cases hslot
  | setFields pc fields => exact .inr ⟨pc, fields, rfl, h⟩
  | finalize =>
    obtain ⟨-, rfl⟩ := finalize_eq_ok.mp h
    refine .inl ⟨rfl, ?_⟩
    rw [← hb.finalized]

/-! ## Late field counts -/

/-- The field counts that calls give to an instruction `i` at `pc`: the first ones that are as many
    as it has. -/
def countsFor (calls : List Call) (pc : Nat) (i : Instr) : Option (List UInt32) :=
  (countsOf pc calls).find? fun fields => fields.length == i.fields.length

/-- What becomes of an instruction at `pc` when calls follow the closing of a buffer, if `before`
    are the calls that had been accepted. -/
def late (before calls : List Call) (pc : Nat) (i : Instr) : Instr :=
  if countsOf pc before = [] then { i with fields := (countsFor calls pc i).getD i.fields } else i

theorem late_nil (before : List Call) (pc : Nat) (i : Instr) : late before [] pc i = i := by
  simp [late, countsFor, countsOf]

/-- Field counts that were given before stay. -/
theorem late_of_counted {before : List Call} {pc : Nat} (h : countsOf pc before ≠ [])
    (calls : List Call) (i : Instr) : late before calls pc i = i :=
  if_neg h

/-- A call that gives no counts to an instruction, or not as many as it has, is passed over. -/
theorem late_cons_of_unfit {c : Call} {pc : Nat} {i : Instr}
    (h : ∀ fields, c.counts? pc = some fields → fields.length ≠ i.fields.length)
    (before calls : List Call) : late before (c :: calls) pc i = late before calls pc i := by
  have hfirst : countsFor (c :: calls) pc i = countsFor calls pc i := by
    cases hc : c.counts? pc with
    | none => simp [countsFor, countsOf, hc]
    | some fields => simp [countsFor, countsOf, hc, h fields hc]
  simp only [late, hfirst]

/-- The first counts that fit are taken. -/
theorem late_cons_of_fit {before : List Call} {pc : Nat} {i : Instr} {fields : List UInt32}
    (hnew : countsOf pc before = []) (hfit : fields.length = i.fields.length)
    (calls : List Call) :
    late before (.setFields pc fields :: calls) pc i = { i with fields := fields } := by
  rw [late, if_pos hnew]
  simp [countsFor, countsOf, Call.counts?, hfit]

theorem late_congr {before before' : List Call} {pc : Nat}
    (h : countsOf pc before' = countsOf pc before) (calls : List Call) (i : Instr) :
    late before' calls pc i = late before calls pc i := by
  simp only [late, h]

namespace Ledger

variable {l : Ledger}

theorem closed_make (hclosed : l.buffer.Closed) (c : Call) : (l.make c).buffer.Closed := by
  cases hc : l.buffer.make c with
  | error m =>
    rw [make_of_error hc]
    exact hclosed
  | ok b =>
    rw [make_of_ok hc]
    rcases hclosed.make_eq_ok hc with ⟨-, rfl⟩ | ⟨pc, fields, -, hset⟩
    · exact hclosed
    · obtain ⟨-, rfl⟩ := setFields_eq_ok.mp hset
      exact ⟨hclosed.pending, hclosed.finalized⟩

/-- Field counts that a buffer refuses do not fit the instruction, or come second. -/
theorem unfit_of_error (haccounts : Accounts l.accepted l.buffer) {c : Call} {m : Misuse}
    (hc : l.buffer.make c = .error m) {pc : Nat} {i : Instr} (hi : l.buffer.code[pc]? = some i)
    (hnew : countsOf pc l.accepted = []) (fields : List UInt32)
    (hfields : c.counts? pc = some fields) : fields.length ≠ i.fields.length := by
  intro hfit
  obtain rfl : c = .setFields pc fields := by
    cases c with
    | setFields pc' fields' =>
      simp only [Call.counts?] at hfields
      split at hfields
      next hpc => rw [hpc, Option.some.inj hfields]
      next => cases hfields
    | _ => cases hfields
  have hfree : (pc : Int) ∉ l.buffer.fielded := by
    intro hpc
    obtain ⟨-, -, given, -, -, hgiven, -⟩ := haccounts.counted _ hpc
    rw [hnew] at hgiven
    cases hgiven
  have hat : l.buffer.at? pc = some i := at?_eq_some_iff.mpr ⟨pc, rfl, hi⟩
  have hok := setFields_eq_ok.mpr ⟨⟨hfree, i, hat, hfit⟩, rfl⟩
  have hset : l.buffer.setFields pc fields = .error m := hc
  rw [hok] at hset
  cases hset

theorem countsOf_finalize (pc : Nat) (calls : List Call) :
    countsOf pc (calls ++ [.finalize]) = countsOf pc calls := by
  simp [countsOf_concat, Call.counts?]

/-- One call on a closed buffer: what it does to an instruction, and what it leaves to later
    calls. -/
theorem late_make (haccounts : Accounts l.accepted l.buffer) (hclosed : l.buffer.Closed) (c : Call)
    (more : List Call) (pc : Nat) :
    (l.make c).buffer.code[pc]?.map (late (l.make c).accepted more pc)
      = l.buffer.code[pc]?.map (late l.accepted (c :: more) pc) := by
  cases hc : l.buffer.make c with
  | error m =>
    rw [make_of_error hc]
    cases hi : l.buffer.code[pc]? with
    | none => rfl
    | some i =>
      refine congrArg some ?_
      -- what the buffer refuses is passed over here too: it does not fit, or it comes second
      by_cases hnew : countsOf pc l.accepted = []
      · exact (late_cons_of_unfit (unfit_of_error haccounts hc hi hnew) _ _).symm
      · rw [late_of_counted hnew, late_of_counted hnew]
  | ok b =>
    rw [make_of_ok hc]
    rcases hclosed.make_eq_ok hc with ⟨rfl, rfl⟩ | ⟨pc', fields, rfl, hset⟩
    · -- closing again leaves code and records alone
      refine congrArg (Option.map · _) (funext fun i => ?_)
      rw [late_congr (countsOf_finalize pc _), late_cons_of_unfit (by rintro _ ⟨⟩)]
    · obtain ⟨⟨hfree, j, hj, hfit⟩, rfl⟩ := setFields_eq_ok.mp hset
      have hnone : countsOf pc' l.accepted = [] := haccounts.uncounted _ hfree
      obtain ⟨k, rfl, hk⟩ := at?_eq_some_iff.mp hj
      rw [Int.toNat_natCast, Array.getElem?_modify]
      by_cases hpc : k = pc
      · -- the counts are taken now, and nothing that comes later is
        subst hpc
        have hcounted : countsOf k (l.accepted ++ [.setFields k fields]) ≠ [] := by
          simp [countsOf_concat, Call.counts?]
        rw [if_pos rfl, hk]
        refine congrArg some ?_
        rw [late_of_counted hcounted, late_cons_of_fit hnone hfit]
      · have hother : (pc : Int) ≠ k := by omega
        have hsame : countsOf pc (l.accepted ++ [.setFields k fields]) = countsOf pc l.accepted := by
          simp [countsOf_concat, Call.counts?, hother]
        rw [if_neg hpc]
        refine congrArg (Option.map · _) (funext fun i => ?_)
        rw [late_congr hsame, late_cons_of_unfit (by simp [Call.counts?, hother])]

/-- The code of a closed buffer after any calls. -/
theorem getElem?_code_foldl (haccounts : Accounts l.accepted l.buffer) (hclosed : l.buffer.Closed)
    (more : List Call) (pc : Nat) :
    (more.foldl make l).buffer.code[pc]? = l.buffer.code[pc]?.map (late l.accepted more pc) := by
  induction more generalizing l with
  | nil =>
    rw [List.foldl_nil, funext (late_nil l.accepted pc)]
    exact Option.map_id'.symm
  | cons c more ih =>
    rw [List.foldl_cons, ih (accounts_make haccounts c) (closed_make hclosed c)]
    exact late_make haccounts hclosed c more pc

/-- The calls up to a successful closing leave the closed buffer. -/
theorem run_finalize {calls : List Call} {b : Buffer}
    (hb : (run calls).buffer.finalize = .ok b) :
    run (calls ++ [.finalize]) = ⟨b, (run calls).accepted ++ [.finalize]⟩ := by
  rw [run, List.foldl_append]
  exact make_of_ok hb

theorem getElem?_code_run {calls : List Call} {b : Buffer}
    (hb : (run calls).buffer.finalize = .ok b) (more : List Call) (pc : Nat) :
    (run (calls ++ .finalize :: more)).buffer.code[pc]?
      = b.code[pc]?.map (late (run calls).accepted more pc) := by
  have hclosing := run_finalize hb
  -- the closing itself is on record, but it gives no counts
  have haccounts := accounts_run (calls ++ [.finalize])
  rw [hclosing] at haccounts
  rw [List.append_cons, run, List.foldl_append, ← run, hclosing,
    getElem?_code_foldl haccounts (closed_of_finalize hb)]
  exact congrArg (Option.map · _) (funext fun i => late_congr (countsOf_finalize pc _) more i)

theorem toList_code_run {calls : List Call} {b : Buffer}
    (hb : (run calls).buffer.finalize = .ok b) (more : List Call) :
    (run (calls ++ .finalize :: more)).buffer.code.toList
      = b.code.toList.mapIdx (late (run calls).accepted more) := by
  refine List.ext_getElem? fun pc => ?_
  rw [List.getElem?_mapIdx, Array.getElem?_toList, Array.getElem?_toList, getElem?_code_run hb]

/-- An instruction is beyond the reach of later calls when its field counts were given, or when it
    has none; otherwise some call changes it. -/
theorem late_eq_self_iff {before : List Call} {pc : Nat} {i : Instr} :
    (∀ calls, late before calls pc i = i) ↔ (i.fields ≠ [] → countsOf pc before ≠ []) := by
  constructor
  · intro h hfields hnew
    obtain ⟨first, rest, hcounts⟩ := List.exists_cons_of_ne_nil hfields
    -- as many counts as the instruction has, of which the first is another one
    have hlate : late before [.setFields pc ((first + 1) :: rest)] pc i
        = { i with fields := (first + 1) :: rest } :=
      late_cons_of_fit hnew (by rw [hcounts]; rfl) []
    have hfields' := congrArg Instr.fields ((h _).symm.trans hlate)
    rw [hcounts] at hfields'
    exact absurd (List.cons.inj hfields').1 (by simp)
  · intro h calls
    by_cases hnew : countsOf pc before = []
    · -- counts that fit an instruction without any are none either
      have hnone : i.fields = [] := by
        by_contra hfields
        exact h hfields hnew
      have hgiven : ∀ fields, countsFor calls pc i = some fields → fields = [] := by
        intro fields hfields
        have hfit := List.find?_some hfields
        simpa [hnone] using hfit
      rw [late, if_pos hnew]
      cases hcounts : countsFor calls pc i with
      | none => rfl
      | some fields =>
        rw [hgiven fields hcounts, Option.getD_some, ← hnone]
    · exact late_of_counted hnew calls i

/-- The code of a closed buffer keeps its length, so that code which was handed out reaches over all
    of it. -/
theorem code_handout {calls : List Call} {b : Buffer} (hb : (run calls).buffer.finalize = .ok b)
    (more : List Call) :
    (Handout.mk b.next).code (run (calls ++ .finalize :: more)).buffer
      = (run (calls ++ .finalize :: more)).buffer.code.toList := by
  refine List.take_of_length_le ?_
  rw [toList_code_run hb more, List.length_mapIdx]
  exact Nat.le_refl _

/-- Code that was handed out, after any further calls.  It is the code that the buffer has by then:
    every instruction is as it was, but for field counts that are given late.  So it is final exactly
    when every instruction with alternatives had been given its field counts before. -/
theorem code_after_finalize (calls : List Call) {b : Buffer} {w : Handout}
    (hb : (run calls).buffer.handOut = .ok (b, w)) :
    (∀ more, w.code (run (calls ++ .finalize :: more)).buffer
      = (run (calls ++ .finalize :: more)).buffer.code.toList) ∧
    (∀ more, w.code (run (calls ++ .finalize :: more)).buffer
      = (w.code b).mapIdx (late (run calls).accepted more)) ∧
    ((∀ more, w.code (run (calls ++ .finalize :: more)).buffer = w.code b) ↔
      ∀ (pc : Nat) (i : Instr), (w.code b)[pc]? = some i → i.fields ≠ [] →
        countsOf pc (run calls).accepted ≠ []) := by
  obtain ⟨hclose, rfl⟩ := handOut_eq_ok.mp hb
  have hcode : (Handout.mk b.next).code b = b.code.toList := List.take_length
  simp only [code_handout hclose, hcode, toList_code_run hclose]
  refine ⟨fun _ => trivial, fun _ => trivial, fun h pc i hi => ?_, fun h more => ?_⟩
  · refine late_eq_self_iff.mp fun more => ?_
    have hmore := congrArg (·[pc]?) (h more)
    simp only [List.getElem?_mapIdx, hi, Option.map_some] at hmore
    exact Option.some.inj hmore
  · refine List.ext_getElem? fun pc => ?_
    rw [List.getElem?_mapIdx]
    cases hi : b.code.toList[pc]? with
    | none => rfl
    | some i => exact congrArg some (late_eq_self_iff.mpr (h pc i hi) more)

/-- Every instruction of the sample that has field counts was given them before. -/
theorem sampleCalls_final :
    ∃ b w, (run sampleCalls).buffer.handOut = .ok (b, w) ∧ (w.code b).length = 3 ∧
      ∀ more, w.code (run (sampleCalls ++ .finalize :: more)).buffer = w.code b := by
  obtain ⟨b, w, hb⟩ : ∃ b w, (run sampleCalls).buffer.handOut = .ok (b, w) := ⟨_, _, rfl⟩
  have hcode : w.code b = (run sampleCalls).buffer.code.toList := by
    obtain ⟨hclose, rfl⟩ := handOut_eq_ok.mp hb
    obtain ⟨-, rfl⟩ := finalize_eq_ok.mp hclose
    exact List.take_length
  have hcounted : ∀ pc : Fin 3, (run sampleCalls).buffer.code.toList[pc.val]?.all
      (fun i => i.fields.isEmpty || !(countsOf pc.val (run sampleCalls).accepted).isEmpty) = true := by
    decide
  have hlength : (w.code b).length = 3 := by
    rw [hcode]
    decide
  refine ⟨b, w, hb, hlength, (code_after_finalize sampleCalls hb).2.2.mpr ?_⟩
  intro pc i hi hfields hnone
  have hpc : pc < 3 := hlength ▸ (List.getElem?_eq_some_iff.mp hi).1
  rw [hcode] at hi
  simpa [hi, hfields, hnone] using hcounted ⟨pc, hpc⟩

/-- The field counts of this instruction were not given before its code was handed out.  They can be
    given afterwards, and then they stand in the code that was handed out. -/
theorem destruct_not_final :
    ∃ b w, (run [.emit .destruct]).buffer.handOut = .ok (b, w) ∧
      w.code b = [.destruct] ∧
      w.code (run ([.emit .destruct] ++ .finalize :: [.setFields 0 [5]])).buffer
        = [{ Instr.destruct with fields := [5] }] :=
  ⟨_, _, rfl, by decide, by decide⟩

end Ledger

end TermVM.Buffer
