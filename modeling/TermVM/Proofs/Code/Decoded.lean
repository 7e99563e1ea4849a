/-
  TermVM.Proofs.Code.Decoded

  Code that was read, and what is done with it.

  A reader checks operations, numerals and terms.  It does not look at targets
  and field counts, and it takes null for a procedure.  A listing and a
  verification do read these, so they can run into an operand that is not
  there: `Equipped` is what the line of an instruction needs, `Furnished` what
  its verification needs, and `Intact` what the display of a file needs.
-/
import TermVM.Proofs.Code.Exactness
import TermVM.Proofs.CommandLine.Compilation
import TermVM.Proofs.Verify.Tables

namespace TermVM

open Listing Result Verify

/-! ## Verification -/

namespace Verify

variable {table : DeclTable} {p : Procedure}

/-- Why a verification may give no analysis: it has a finding, or control arrives at an instruction
    that lacks an operand. -/
inductive GivesUp (table : DeclTable) (p : Procedure) : Failure → Prop
  | rejected (finding : Finding) : GivesUp table p (.rejected finding)
  | lacking {e : Edge} {i : Instr} (hreach : Reaches table p e) (hi : p.code[e.pc]? = some i)
      (hlacks : ¬Furnished i) : GivesUp table p (.fault .missingElement)

/-- A run of the verifier is given enough steps for all that control can arrive at. -/
theorem drain_givesUp {steps : Nat} {marks : Marks} {work : List Edge} {failure : Failure}
    (hsize : marks.size = p.code.length) (hwork : ∀ e ∈ work, Reaches table p e)
    (hsteps : work.length + budget p.code marks.toList ≤ steps)
    (h : drain table p p.code.toArray steps marks work = .error failure) :
    GivesUp table p failure := by
  induction steps generalizing marks work with
  | zero =>
    obtain rfl : work = [] := List.eq_nil_of_length_eq_zero (by omega)
    cases h
  | succ steps ih =>
    cases work with
    | nil => cases h
    | cons e work =>
      obtain ⟨hreach, hrest⟩ := List.forall_mem_cons.mp hwork
      unfold drain at h
      rw [List.getElem?_toArray, List.size_toArray] at h
      rw [List.length_cons] at hsteps
      cases hi : p.code[e.pc]? with
      | none =>
        rw [hi] at h
        cases h
        exact .rejected _
      | some i =>
        rw [hi] at h
        cases hm : marks[e.pc]?.join with
        | some seen =>
          simp only [hm] at h
          split at h
          · cases h
            exact .rejected _
          · -- the position was marked with this depth: one edge is taken off the list
            exact ih hsize hrest (by omega) h
        | none =>
          simp only [hm] at h
          cases hes : edges table p.arity p.code.length e.pc e.depth i with
          | error stop =>
            rw [hes] at h
            cases stop with
            | problem problem =>
              cases h
              exact .rejected _
            | fault f =>
              obtain ⟨rfl, hlacks⟩ := not_furnished_of_edges hes
              cases h
              exact .lacking hreach hi hlacks
          | ok es =>
            -- a new position: it pays for the edges that it adds
            rw [hes] at h
            obtain rfl := ((edges_eq_ok_iff (furnished_of_edges hes)).mp hes).2
            have hpay := length_exits_add_budget_le table hsize hi hm
            refine ih (by simpa using hsize) (fun e' he' => ?_) ?_ h
            · rcases List.mem_append.mp he' with he' | he'
              · exact hreach.tail ⟨i, hi, List.mem_reverse.mp he'⟩
              · exact hrest e' he'
            · rw [List.length_append, List.length_reverse]
              omega

theorem analyze_givesUp {failure : Failure} (h : analyze table p = .error failure) :
    GivesUp table p failure := by
  unfold analyze at h
  cases hdrain : drain table p p.code.toArray (stepBound p.code)
      (Array.replicate p.code.length none) [⟨0, p.arity.toNat⟩] with
  | ok marks =>
    rw [hdrain] at h
    cases h
  | error failure' =>
    rw [hdrain] at h
    cases h
    refine drain_givesUp Array.size_replicate (fun e he => ?_) ?_ hdrain
    · rw [List.mem_singleton.mp he]
      exact Relation.ReflTransGen.refl
    · rw [Array.toList_replicate, budget_replicate]
      exact Nat.le_refl _

end Verify

/-! ## Reading -/

/-- A quotation that was read has a term. -/
theorem Instr.Raw.expr_ne_absent {r : Raw} {i : Instr} (h : r.toInstr = .ok i)
    (hop : i.op = .named .expr) : i.expr ≠ .absent := by
  unfold toInstr at h
  dsimp only at h
  split at h
  · cases h
  · next hnum =>
    split at h
    · cases h
      cases hnum.symm.trans hop
    · cases h
  · split at h
    · cases h
    · next n hn =>
      obtain ⟨t, ht, rfl⟩ := map_eq_ok.mp h
      -- an absent term is none that nodes stand for
      have hregular := (Node.yields (mapError_eq_ok.mp ht)).regular
      rintro rfl
      cases hregular
  · next m hnum hexpr hbyte =>
    cases h
    exact absurd (Opcode.named.inj (hbyte.symm.trans hop)) hexpr

namespace Procedure

/-- Every instruction of a procedure that was read comes from a record. -/
theorem exists_raw_of_decodeList {bytes : Bytes} {saved : Option (List (Option Procedure))}
    (h : decodeList bytes = .ok saved) {p : Procedure} (hp : some p ∈ saved.getD []) {i : Instr}
    (hi : i ∈ p.code) : ∃ r : Instr.Raw, r.toInstr = .ok i := by
  obtain ⟨x, -, h⟩ := bind_eq_ok.mp h
  obtain ⟨items, -, h⟩ := bind_eq_ok.mp h
  cases items with
  | none =>
    cases h
    exact absurd hp List.not_mem_nil
  | some items =>
    obtain ⟨ps, hps, h⟩ := bind_eq_ok.mp h
    cases h
    obtain ⟨y, -, hy⟩ := exists_of_mem_right (mapM_eq_ok.mp hps) hp
    unfold optionalOfItem at hy
    split at hy
    · cases hy
    · obtain ⟨q, hq, hqp⟩ := map_eq_ok.mp hy
      obtain rfl := Option.some.inj hqp
      obtain ⟨raw, -, hq⟩ := bind_eq_ok.mp hq
      obtain ⟨code, hcode, hq⟩ := bind_eq_ok.mp hq
      cases hq
      have hraws := Code.ofRawsFrom_eq_ok_iff.mp (mapError_eq_ok.mp hcode)
      obtain ⟨r, -, hr⟩ := exists_of_mem_right hraws.flip hi
      exact ⟨r, hr⟩

end Procedure

/-! ## The display of a file -/

namespace CommandLine

variable {table : Option DeclTable}

/-- Code is shown to its end when every instruction has the operands that its line shows. -/
theorem linesUpTo_eq_none_iff {code : Code} {pc : Int} :
    (linesUpTo (linesFrom table pc code)).2 = none ↔
      ∀ i ∈ code, ∃ text, operands table i = .ok text := by
  induction code generalizing pc with
  | nil => exact iff_of_true rfl (by simp)
  | cons i is ih =>
    rw [List.forall_mem_cons, ← @ih (pc + 1), linesFrom]
    unfold line
    cases operands table i with
    | error f =>
      refine iff_of_false (fun h => by cases h) ?_
      rintro ⟨⟨text, htext⟩, -⟩
      cases htext
    | ok text => exact (and_iff_right ⟨text, rfl⟩).symm

/-- A saved list has no procedure that is not there, and no instruction that lacks an operand which
    its line shows. -/
structure Intact (ps : List (Option Procedure)) : Prop where
  present : none ∉ ps
  equipped : ∀ p, some p ∈ ps → ∀ i ∈ p.code, Equipped i

theorem showProcedures_eq_none_iff {ps : List (Option Procedure)}
    (hexpr : ∀ p, some p ∈ ps → ∀ i ∈ p.code, i.op = .named .expr → i.expr ≠ .absent) :
    (showProcedures table ps).2 = none ↔ Intact ps := by
  induction ps with
  | nil => exact iff_of_true rfl ⟨List.not_mem_nil, fun p hp => absurd hp List.not_mem_nil⟩
  | cons p ps ih =>
    cases p with
    | none => exact iff_of_false (fun h => by cases h) fun h => h.present List.mem_cons_self
    | some p =>
      have ih := ih fun q hq => hexpr q (List.mem_cons_of_mem _ hq)
      have hfirst : (showProcedure table p).2 = none ↔ ∀ i ∈ p.code, Equipped i := by
        rw [fault_showProcedure, Listing.lines, linesUpTo_eq_none_iff]
        refine forall₂_congr fun i hi => ?_
        have hneeds := needs_operands (hexpr p List.mem_cons_self i hi) table
        refine ⟨?_, hneeds.1⟩
        rintro ⟨text, htext⟩
        refine Decidable.byContradiction fun hlacks => ?_
        cases (hneeds.2 hlacks).symm.trans htext
      have hsplit : Intact (some p :: ps) ↔ (∀ i ∈ p.code, Equipped i) ∧ Intact ps := by
        constructor
        · rintro ⟨hpresent, hequipped⟩
          exact ⟨hequipped p List.mem_cons_self, fun h => hpresent (List.mem_cons_of_mem _ h),
            fun q hq => hequipped q (List.mem_cons_of_mem _ hq)⟩
        · rintro ⟨hp, hpresent, hequipped⟩
          refine ⟨by simpa using hpresent, fun q hq => ?_⟩
          rcases List.mem_cons.mp hq with hq | hq
          · exact Option.some.inj hq ▸ hp
          · exact hequipped q hq
      rw [showProcedures_cons, hsplit, ← hfirst, ← ih]
      cases (showProcedure table p).2 with
      | some f => simp
      | none => simp

theorem none_mem_of_rebuildTable {m : Manifest} {ps : List (Option Procedure)} {f : Fault}
    (h : rebuildTable m ps = .error f) : none ∈ ps := by
  refine Decidable.byContradiction fun hnone => ?_
  have hall : ∀ p ∈ ps, ∃ q, id p = some q := by
    intro p hp
    cases p with
    | none => exact absurd hp hnone
    | some q => exact ⟨q, rfl⟩
  obtain ⟨qs, hqs⟩ := exists_forall₂ hall
  have hmapM : ps.mapM id = some qs := mapM_eq_some.mpr hqs
  -- with all procedures there, a table that does not fit is none, and no fault
  unfold rebuildTable at h
  rw [hmapM] at h
  split at h
  · cases h
  · dsimp only at h
    split at h <;> cases h

/-- Showing a file of procedures comes to its end when they are intact, and crashes when they are
    not. -/
theorem disassemble_intact {m : Manifest} {files : FileTree} {path : String} {bytes : Bytes}
    {saved : Option (List (Option Procedure))} (hread : files.read path = .ok bytes)
    (hdecode : Procedure.decodeList bytes = .ok saved)
    (hexpr : ∀ p, some p ∈ saved.getD [] → ∀ i ∈ p.code, i.op = .named .expr → i.expr ≠ .absent) :
    (Intact (saved.getD []) → (disassemble m files path).ending = .done) ∧
      (¬Intact (saved.getD []) → ∃ f, (disassemble m files path).ending = .crashed (.fault f)) := by
  rw [disassemble, hread]
  dsimp only
  rw [hdecode]
  dsimp only
  cases htable : rebuildTable m (saved.getD []) with
  | error f =>
    -- the table is rebuilt before anything is shown
    exact ⟨fun h => absurd (none_mem_of_rebuildTable htable) h.present, fun _ => ⟨f, rfl⟩⟩
  | ok table =>
    have hshown := @showProcedures_eq_none_iff table _ hexpr
    dsimp only
    cases hfault : (showProcedures table (saved.getD [])).2 with
    | none => exact ⟨fun _ => rfl, fun h => absurd (hshown.mp hfault) h⟩
    | some f =>
      refine ⟨fun h => ?_, fun _ => ⟨f, rfl⟩⟩
      cases (hshown.mpr h).symm.trans hfault

/-- What becomes of procedures that were read.  An instruction has a line just when it is equipped,
    and otherwise an element is missing.  Verification gives an analysis or a finding, unless an
    operand is missing from an instruction that control arrives at.  The display of the file comes to
    its end just when the procedures are intact. -/
theorem consumers_of_decodeList {bytes : Bytes} {saved : Option (List (Option Procedure))}
    (h : Procedure.decodeList bytes = .ok saved) :
    (∀ p, some p ∈ saved.getD [] →
      (∀ i ∈ p.code, ∀ table pc, Needs (Equipped i) (line table pc i)) ∧
      ∀ table, (∃ a, analyze table p = .ok a) ∨ ∃ failure, analyze table p = .error failure ∧
        GivesUp table p failure) ∧
    ∀ m files path, FileTree.read files path = .ok bytes →
      (Intact (saved.getD []) → (disassemble m files path).ending = .done) ∧
      (¬Intact (saved.getD []) → ∃ f, (disassemble m files path).ending = .crashed (.fault f)) := by
  have hexpr : ∀ p, some p ∈ saved.getD [] → ∀ i ∈ p.code,
      i.op = .named .expr → i.expr ≠ .absent := by
    intro p hp i hi
    obtain ⟨r, hr⟩ := Procedure.exists_raw_of_decodeList h hp hi
    exact Instr.Raw.expr_ne_absent hr
  refine ⟨fun p hp => ⟨fun i hi table pc => needs_line (hexpr p hp i hi) table pc, fun table => ?_⟩,
    fun m files path hread => disassemble_intact hread h hexpr⟩
  cases hanalyze : analyze table p with
  | ok a => exact .inl ⟨a, rfl⟩
  | error failure => exact .inr ⟨failure, rfl, analyze_givesUp hanalyze⟩

/-- A file of the root with the given content. -/
def oneFile (content : Bytes) : FileTree :=
  ⟨[(["p.cbor"], .file content)], []⟩

/-- A loop with a dispatch and a jump is read, and listed, verified and shown without a fault. -/
theorem consumers_spin :
    let bytes := (Procedure.encodeList? (some [some spin])).getD []
    Procedure.decodeList bytes = .ok (some [some spin]) ∧
      (∀ i ∈ spin.code, ∀ table pc, ∃ text, line table pc i = .ok text) ∧
      (∀ table f, analyze table spin ≠ .error (.fault f)) ∧
      (disassemble .default (oneFile bytes) "p.cbor").ending = .done := by
  intro bytes
  have hdecode : Procedure.decodeList bytes = .ok (some [some spin]) :=
    eq_ok_of_toOption (by decide +kernel)
  have hequipped : ∀ i ∈ spin.code, Equipped i := by decide
  obtain ⟨hprocedures, hfile⟩ := consumers_of_decodeList hdecode
  obtain ⟨hlines, hanalyses⟩ := hprocedures spin List.mem_cons_self
  refine ⟨hdecode, fun i hi table pc => (hlines i hi table pc).1 (hequipped i hi),
    fun table f hfault => ?_, ?_⟩
  · rcases hanalyses table with ⟨a, ha⟩ | ⟨failure, hfailure, hgivesUp⟩
    · cases ha.symm.trans hfault
    · obtain rfl : failure = .fault f := Except.error.inj (hfailure.symm.trans hfault)
      cases hgivesUp with
      | lacking hreach hi hlacks => exact hlacks (hequipped _ (List.mem_of_getElem? hi)).1
  · refine (hfile .default (oneFile bytes) "p.cbor" rfl).1 ⟨by decide, fun p hp => ?_⟩
    obtain rfl : p = spin := Option.some.inj (List.mem_singleton.mp hp)
    exact hequipped

/-- A procedure whose jump has no target. -/
def jumpNowhere : Procedure :=
  ⟨"f", 0, [⟨.named .goto, 0, 0, none, .absent, [], []⟩, .ret]⟩

/-- A jump without a target is read, but it has no line, and verification crashes on it.  Null is
    read as a procedure that is not there, and its display crashes. -/
theorem jumpNowhere_crashes :
    Procedure.decodeList [0x81, 0xa3, 0x01, 0x61, 0x66, 0x02, 0x00, 0x03, 0x82, 0xa1, 0x01, 0x18,
        0x20, 0xa1, 0x01, 0x18, 0x35] = .ok (some [some jumpNowhere]) ∧
      line none 0 ⟨.named .goto, 0, 0, none, .absent, [], []⟩ = .error .missingElement ∧
      analyze .empty jumpNowhere = .error (.fault .missingElement) ∧
      Procedure.decodeList [0x81, 0xf6] = .ok (some [none]) ∧
      (disassemble .default (oneFile [0x81, 0xf6]) "p.cbor").ending
        = .crashed (.fault .missingValue) :=
  ⟨eq_ok_of_toOption (by decide +kernel), rfl, rfl, eq_ok_of_toOption (by decide +kernel),
    by decide +kernel⟩

end CommandLine

end TermVM
