/-
  TermVM.Proofs.Meaning.Machine

  A machine that runs code, and its runs on laid out outlines.

  The machine has a program counter and a frame, the bottom of the frame first.
  It knows code only as a list of instructions; the primitive operations are
  those of an interpretation.  A dispatch announces how many fields each of its
  alternatives finds pushed, and stops at a value with another number of them.

  `Outline.exec` runs an outline by its structure.  `Moves.simulates` says that
  the machine, wherever the outline is laid out, does the same in at most as
  many steps as the outline has instructions: positions and targets drop out.
-/
import TermVM.Proofs.Balance.Layout
import TermVM.Proofs.Meaning.Eval

namespace TermVM

open Codegen Meaning

namespace Machine

variable {V : Type}

/-! ## Frames -/

/-- Takes the top value off a frame. -/
def popTop (frame : List V) : Outcome (List V × V) :=
  match frame.getLast? with
  | some v => .ok (frame.dropLast, v)
  | none => .error .stuck

/-- Takes the `n` values on top off a frame, the deepest first. -/
def pop (n : Nat) (frame : List V) : Outcome (List V × List V) :=
  if n ≤ frame.length then .ok (frame.splitAt (frame.length - n)) else .error .stuck

@[simp] theorem popTop_append (frame : List V) (v : V) :
    popTop (frame ++ [v]) = .ok (frame, v) := by
  simp [popTop]

theorem pop_append {n : Nat} (frame vs : List V) (h : vs.length = n) :
    pop n (frame ++ vs) = .ok (frame, vs) := by
  simp [pop, ← h, List.splitAt_eq]

/-! ## Instructions -/

/-- What a sequential instruction does to the frame.  The first argument of a call is on top, the
    last field of a constructor is. -/
def perform (I : Interp V) (table : DeclTable) (i : Instr) (frame : List V) : Outcome (List V) :=
  match i.op with
  | .named .push =>
      match frame[i.a.toNat]? with
      | some v => .ok (frame ++ [v])
      | none => .error .stuck
  | .named .drop => do
      let (rest, v) ← popTop frame
      let (rest, _) ← pop i.a.toNat rest
      return rest ++ [v]
  | .named .scnstr => .ok (frame ++ [I.cnstr i.a []])
  | .named .cnstr => do
      let (rest, fields) ← pop i.b.toNat frame
      return rest ++ [I.cnstr i.a fields]
  | .named .num =>
      match i.num with
      | some value => .ok (frame ++ [I.literal value])
      | none => .error .stuck
  | .named .expr => .ok (frame ++ [I.quotation i.expr])
  | .named .proj => do
      let (rest, v) ← popTop frame
      return rest ++ [I.proj i.a v]
  | .named .apply => do
      let (rest, callable) ← popTop frame
      let (rest, argument) ← popTop rest
      return rest ++ [I.apply callable argument]
  | .named .invokeGlobal => invoke .invokeGlobal
  | .named .invokeBuiltin => invoke .invokeBuiltin
  | .named .invokeNative => invoke .invokeNative
  | .named .closure => do
      let (rest, args) ← pop i.b.toNat frame
      return rest ++ [I.close i.a args.reverse]
  | .named .unreachable => .error .trap
  | _ => .error .stuck
where
  /-- A call of a declaration of the kind that the operation calls. -/
  invoke (m : Mnemonic) : Outcome (List V) :=
    match table.at? i.a with
    | some d =>
      if d.kind = Verify.callee m then do
        let (rest, args) ← pop d.arity.toNat frame
        return rest ++ [I.call i.a args.reverse]
      else .error .stuck
    | none => .error .stuck

/-- How an instruction takes a value apart, if it does. -/
def dispatch? (i : Instr) : Option Dispatch :=
  match i.op with
  | .named .destruct => some .destruct
  | .named .cases2 => some .binary
  | .named .casesN => some .table
  | .named .natCases => some .natural
  | .named .builtinCases => some (.analyzer i.a)
  | _ => none

/-- Where control goes for an alternative: destructuring goes on, the other dispatches branch. -/
def landing (i : Instr) (pc k : Nat) : Option Nat :=
  if i.op = .named .destruct then some (pc + 1) else (i.targets[k]?).map (·.toNat)

/-! ## Runs -/

/-- The state of the machine. -/
structure State (V : Type) where
  pc : Nat
  frame : List V

/-- One step: the next state, or the value returned. -/
def step (I : Interp V) (table : DeclTable) (code : Code) (s : State V) :
    Outcome (State V ⊕ V) :=
  match code[s.pc]? with
  | none => .error .stuck
  | some i =>
    match i.op with
    | .named .goto =>
        match i.targets with
        | t :: _ => .ok (.inl ⟨t.toNat, s.frame⟩)
        | [] => .error .stuck
    | .named .ret => do
        let (_, v) ← popTop s.frame
        return .inr v
    | _ =>
      match dispatch? i with
      | some kind => do
          let (rest, v) ← popTop s.frame
          let (k, fields) := I.select kind v
          match i.fields[k]?, landing i s.pc k with
          | some n, some target =>
              if fields.length = n.toNat then .ok (.inl ⟨target, rest ++ fields⟩)
              else .error .mismatch
          | _, _ => .error .mismatch
      | none => do
          let frame ← perform I table i s.frame
          return .inl ⟨s.pc + 1, frame⟩

/-- The outcome of a run, if it ends within the given number of steps. -/
def run (I : Interp V) (table : DeclTable) (code : Code) : (steps : Nat) → State V →
    Option (Outcome V)
  | 0, _ => none
  | steps + 1, s =>
      match step I table code s with
      | .error h => some (.error h)
      | .ok (.inr v) => some (.ok v)
      | .ok (.inl s) => run I table code steps s

end Machine

/-! ## Runs of outlines -/

/-- How a dispatch with a given head takes a value apart. -/
def Codegen.CaseHead.dispatch : CaseHead → Dispatch
  | marked n => if n = 1 then .destruct else if n = 2 then .binary else .table
  | natural => .natural
  | native a => .analyzer a.index

namespace Outline

open Machine

variable {V : Type} (I : Interp V) (table : DeclTable)

mutual

/-- The frame behind an outline. -/
def exec : Outline → (frame : List V) → Outcome (List V)
  | nil, frame => .ok frame
  | op i, frame => perform I table i frame
  | seq first second, frame => do
      let frame ← exec first frame
      exec second frame
  | dispatch head alternatives, frame => do
      let (rest, v) ← popTop frame
      let (k, fields) := I.select head.dispatch v
      execAlternatives alternatives k rest fields

/-- The frame behind one of several alternatives that is entered with fields. -/
def execAlternatives : List (Nat × Outline) → (k : Nat) → (rest fields : List V) →
    Outcome (List V)
  | [], _, _, _ => .error .mismatch
  | (n, o) :: _, 0, rest, fields =>
      if fields.length = n then exec o (rest ++ fields) else .error .mismatch
  | _ :: alternatives, k + 1, rest, fields => execAlternatives alternatives k rest fields

end

variable {I table}

theorem execAlternatives_of_getElem? {alts : List (Nat × Outline)} {k n : Nat} {o : Outline}
    (h : alts[k]? = some (n, o)) (rest fields : List V) :
    execAlternatives I table alts k rest fields =
      if fields.length = n then exec I table o (rest ++ fields) else .error .mismatch := by
  induction alts generalizing k with
  | nil => simp at h
  | cons a alts ih =>
    cases k with
    | zero =>
      cases h
      rfl
    | succ k => exact ih h

theorem execAlternatives_of_length_le {alts : List (Nat × Outline)} {k : Nat}
    (h : alts.length ≤ k) (rest fields : List V) :
    execAlternatives I table alts k rest fields = .error .mismatch := by
  induction alts generalizing k with
  | nil => rfl
  | cons a alts ih =>
    cases k with
    | zero => simp at h
    | succ k => exact ih (by simpa using h)

/-! ## Laid out outlines -/

/-- How a run goes on behind a block. -/
def resume (r : Outcome (List V)) (next : List V → Option (Outcome V)) : Option (Outcome V) :=
  match r with
  | .ok frame => next frame
  | .error h => some (.error h)

/-- From a position, at most `size` steps do to the frame what `f` does and get to the position
    `exit`. -/
def Simulates (I : Interp V) (table : DeclTable) (code : Code) (start size exit : Nat)
    (f : List V → Outcome (List V)) : Prop :=
  ∀ frame, ∃ n ≤ size, ∀ fuel,
    run I table code (n + fuel) ⟨start, frame⟩ =
      resume (f frame) fun frame => run I table code fuel ⟨exit, frame⟩

variable {code : Code}

theorem simulates_op {start : Nat} {i : Instr} (hi : code[start]? = some i)
    (hseq : Verify.sequential i.op = true) :
    Simulates I table code start 1 (start + 1) (perform I table i) := by
  intro frame
  refine ⟨1, Nat.le_refl 1, fun fuel => ?_⟩
  have hstep : step I table code ⟨start, frame⟩ =
      (perform I table i frame >>= fun frame => .ok (.inl ⟨start + 1, frame⟩)) := by
    unfold Verify.sequential at hseq
    split at hseq
    case h_14 => cases hseq
    all_goals
      rename_i hop
      simp [step, hi, hop, dispatch?]
  rw [Nat.add_comm, run, hstep]
  cases perform I table i frame <;> rfl

theorem Simulates.seq {start size₁ mid size₂ exit : Nat} {f f' : List V → Outcome (List V)}
    (h₁ : Simulates I table code start size₁ mid f)
    (h₂ : Simulates I table code mid size₂ exit f') :
    Simulates I table code start (size₁ + size₂) exit fun frame => f frame >>= f' := by
  intro frame
  obtain ⟨n₁, hn₁, hrun₁⟩ := h₁ frame
  cases hf : f frame with
  | error h =>
    refine ⟨n₁, by omega, fun fuel => ?_⟩
    simp only [hrun₁, hf, Result.error_bind, resume]
  | ok frame' =>
    obtain ⟨n₂, hn₂, hrun₂⟩ := h₂ frame'
    refine ⟨n₁ + n₂, by omega, fun fuel => ?_⟩
    simp only [Nat.add_assoc, hrun₁, hf, Result.ok_bind]
    exact hrun₂ fuel

theorem Simulates.mono {start size size' exit : Nat} {f : List V → Outcome (List V)}
    (h : Simulates I table code start size exit f) (hle : size ≤ size') :
    Simulates I table code start size' exit f := by
  intro frame
  obtain ⟨n, hn, hrun⟩ := h frame
  exact ⟨n, Nat.le_trans hn hle, hrun⟩

theorem simulates_jump {start target : Nat} (hi : code[start]? = some (jumpTo target))
    (hlt : target < 2 ^ 32) : Simulates I table code start 1 target .ok := by
  intro frame
  refine ⟨1, Nat.le_refl 1, fun fuel => ?_⟩
  have hword : (UInt32.ofNat target).toNat = target := UInt32.toNat_ofNat_of_lt' hlt
  have hstep : step I table code ⟨start, frame⟩ = .ok (.inl ⟨target, frame⟩) := by
    simp [step, hi, jumpTo, Instr.goto, hword]
  rw [Nat.add_comm, run, hstep]
  rfl

/-! ## Dispatches -/

theorem dispatch?_filled (head : CaseHead) (recs : List Alternative) :
    dispatch? (filled head.instr recs) = some head.dispatch := by
  cases head with
  | marked n =>
    by_cases hone : n = 1
    · simp [hone, dispatch?, filled, CaseHead.instr, CaseHead.dispatch, Instr.destruct]
    · by_cases htwo : n = 2 <;>
        simp [hone, htwo, dispatch?, filled, CaseHead.instr, CaseHead.dispatch, Instr.dispatch]
  | natural => rfl
  | native a => rfl

/-- A step at a dispatch. -/
theorem step_of_dispatch? {s : State V} {i : Instr} {kind : Dispatch}
    (hi : code[s.pc]? = some i) (hkind : dispatch? i = some kind) :
    step I table code s = (popTop s.frame >>= fun (rest, v) =>
      match i.fields[(I.select kind v).1]?, landing i s.pc (I.select kind v).1 with
      | some n, some target =>
          if (I.select kind v).2.length = n.toNat then
            .ok (.inl ⟨target, rest ++ (I.select kind v).2⟩)
          else .error .mismatch
      | _, _ => .error .mismatch) := by
  unfold dispatch? at hkind
  split at hkind
  case h_6 => cases hkind
  all_goals
    rename_i hop
    simp [step, hi, hop, dispatch?, ← Option.some.inj hkind]

/-- Every alternative of a dispatch, entered at its record, gets to the join. -/
theorem simulates_alternatives {alts : List (Nat × Outline)} {start join : Nat}
    (h : ∀ a ∈ alts, ∀ start, Embeds code start (a.2.layout start) →
      start + a.2.size < 2 ^ 32 →
      Simulates I table code start a.2.size (start + a.2.size) (exec I table a.2))
    (hcode : Embeds code start (layoutAlternatives join start alts))
    (hjoin : start + sizeOfAlternatives alts = join) (hlt : join < 2 ^ 32) {k n : Nat} {o : Outline}
    (hk : alts[k]? = some (n, o)) :
    ∃ r, (records start alts)[k]? = some r ∧ r.fields = n ∧ r.entry < 2 ^ 32 ∧
      Simulates I table code r.entry (sizeOfAlternatives alts) join (exec I table o) := by
  induction alts generalizing start k with
  | nil => simp at hk
  | cons a rest ih =>
    rw [List.forall_mem_cons] at h
    rw [layoutAlternatives, embeds_append, embeds_append, length_layout,
      List.length_replicate] at hcode
    obtain ⟨hfirst, hjump, hrest⟩ := hcode
    simp only [sizeOfAlternatives] at hjoin
    cases k with
    | zero =>
      cases hk
      have hbody := h.1 start hfirst (by omega)
      refine ⟨_, rfl, rfl, show start < 2 ^ 32 by omega, ?_⟩
      cases rest with
      | nil =>
        simp only [jumps, sizeOfAlternatives, List.isEmpty_nil, if_true, Nat.add_zero] at hjoin ⊢
        exact hjoin ▸ hbody
      | cons b bs =>
        have hgoto := @simulates_jump V I table code _ join (hjump 0 _ rfl) hlt
        have hthen := hbody.seq hgoto
        simp only [Result.bind_ok] at hthen
        refine hthen.mono ?_
        simp only [sizeOfAlternatives, jumps, List.isEmpty_cons, Bool.false_eq_true, if_false]
        omega
    | succ k =>
      obtain ⟨r, hr, hfields, hentry, hsim⟩ := ih h.2 (by simpa using hrest) (by omega) hk
      exact ⟨r, hr, hfields, hentry, hsim.mono (by simp only [sizeOfAlternatives]; omega)⟩

/-- A dispatch lands at the record of the alternative. -/
theorem landing_filled {head : CaseHead} {alts : List (Nat × Outline)} {pc k : Nat}
    {r : Alternative} (hlen : alts.length = head.alternatives.toNat)
    (hr : (records (pc + 1) alts)[k]? = some r) (hentry : r.entry < 2 ^ 32) :
    landing (filled head.instr (records (pc + 1) alts)) pc k = some r.entry := by
  rcases op_instr head with ⟨hop, hone⟩ | hdisp
  · obtain ⟨a, rfl⟩ : ∃ a, alts = [a] := List.length_eq_one_iff.mp (by simp [hlen, hone])
    obtain rfl : k = 0 := by
      have := (List.getElem?_eq_some_iff.mp hr).1
      rw [length_records, List.length_singleton] at this
      omega
    cases hr
    simp [landing, filled, hop]
  · have hop : head.instr.op ≠ .named .destruct := by
      intro hop
      rw [hop] at hdisp
      cases hdisp
    have hword : (UInt32.ofNat r.entry).toNat = r.entry := UInt32.toNat_ofNat_of_lt' hentry
    simp [landing, filled, hop, branches_of_dispatches hdisp, hr, hword]

theorem simulates_dispatch {head : CaseHead} {alts : List (Nat × Outline)} {start : Nat}
    (hlen : alts.length = head.alternatives.toNat) (hfields : ∀ a ∈ alts, a.1 < 2 ^ 32)
    (h : ∀ a ∈ alts, ∀ start, Embeds code start (a.2.layout start) →
      start + a.2.size < 2 ^ 32 →
      Simulates I table code start a.2.size (start + a.2.size) (exec I table a.2))
    (hcode : Embeds code start (layout start (dispatch head alts)))
    (hlt : start + (dispatch head alts).size < 2 ^ 32) :
    Simulates I table code start (dispatch head alts).size (start + (dispatch head alts).size)
      (exec I table (dispatch head alts)) := by
  intro frame
  simp only [size] at hlt ⊢
  obtain ⟨hi, hrest⟩ := embeds_cons.mp hcode
  have hstep := @step_of_dispatch? V I table code ⟨start, frame⟩ _ _ hi (dispatch?_filled head _)
  have hexit : start + (1 + sizeOfAlternatives alts) = start + 1 + sizeOfAlternatives alts := by
    omega
  cases hpop : popTop frame with
  | error e =>
    refine ⟨1, by omega, fun fuel => ?_⟩
    rw [Nat.add_comm 1, run, hstep]
    simp only [hpop, exec, Result.error_bind, resume]
  | ok popped =>
    obtain ⟨rest, v⟩ := popped
    simp only [hpop, Result.ok_bind] at hstep
    generalize hsel : I.select head.dispatch v = chosen at hstep
    obtain ⟨k, fields⟩ := chosen
    have hexec : exec I table (dispatch head alts) frame =
        execAlternatives I table alts k rest fields := by
      simp only [exec, hpop, Result.ok_bind, hsel]
    cases hk : alts[k]? with
    | none =>
      have hrec : (records (start + 1) alts)[k]? = none := by
        rw [List.getElem?_eq_none_iff, length_records]
        exact List.getElem?_eq_none_iff.mp hk
      refine ⟨1, by omega, fun fuel => ?_⟩
      rw [Nat.add_comm 1, run, hstep, hexec,
        execAlternatives_of_length_le (List.getElem?_eq_none_iff.mp hk)]
      simp [filled, hrec, resume]
    | some a =>
      obtain ⟨n, o⟩ := a
      obtain ⟨r, hr, rfl, hentry, hsim⟩ := simulates_alternatives h hrest rfl (by omega) hk
      have hland := landing_filled hlen hr hentry
      have hword : (UInt32.ofNat r.fields).toNat = r.fields :=
        UInt32.toNat_ofNat_of_lt' (hfields _ (List.mem_of_getElem? hk))
      have hcount : (filled head.instr (records (start + 1) alts)).fields[k]?
          = some (UInt32.ofNat r.fields) := by
        simp [filled, hr]
      rw [execAlternatives_of_getElem? hk] at hexec
      simp only [hland, hcount, hword] at hstep
      by_cases hfit : fields.length = r.fields
      · obtain ⟨m, hm, hrun⟩ := hsim (rest ++ fields)
        refine ⟨m + 1, by omega, fun fuel => ?_⟩
        rw [if_pos hfit] at hstep hexec
        rw [Nat.add_right_comm, run, hstep, hexec, hexit]
        exact hrun fuel
      · refine ⟨1, by omega, fun fuel => ?_⟩
        rw [if_neg hfit] at hstep hexec
        rw [Nat.add_comm 1, run, hstep, hexec]
        rfl

/-- The machine runs a laid out outline as `exec` does, each instruction at most once. -/
theorem Moves.simulates {d d' : Nat} {o : Outline} (h : Moves table d o d') {start : Nat}
    (hcode : Embeds code start (o.layout start)) (hlt : start + o.size < 2 ^ 32) :
    Simulates I table code start o.size (start + o.size) (exec I table o) := by
  induction h generalizing start with
  | nil d => exact fun frame => ⟨0, Nat.le_refl 0, fun fuel => by rw [Nat.zero_add]; rfl⟩
  | op h => exact simulates_op (hcode 0 _ rfl) h.op_sequential
  | seq h₁ h₂ ih₁ ih₂ =>
    rw [layout, embeds_append, length_layout] at hcode
    simp only [size] at hlt ⊢
    have hsecond := ih₂ hcode.2 (by omega)
    rw [Nat.add_assoc] at hsecond
    exact (ih₁ hcode.1 (by omega)).seq hsecond
  | dispatch hlen hfields _ ih =>
    exact simulates_dispatch hlen hfields (fun a ha start => ih a ha) hcode hlt

end Outline

end TermVM
