/-
  TermVM.Proofs.Buffer

  The discipline of backpatching, over every sequence of calls.

  A call is accepted or refused, and a refused call changes nothing.  `Ledger`
  keeps the accepted calls beside the buffer, so that a buffer can be compared
  with what was asked of it: `Accounts` says that its code is the emitted
  instructions with the accepted patches and field counts written in, and that
  its bookkeeping is about exactly these.  Every accepted call keeps the
  accounts, so they hold after any number of calls.
-/
import Mathlib.Data.List.Nodup
import TermVM.Buffer
import TermVM.Proofs.Outline.Patching

namespace TermVM.Buffer

/-! ## Calls -/

/-- A call on a buffer. -/
inductive Call where
  | emit (i : Instr)
  | patch (pc index target : Int)
  | setFields (pc : Int) (fields : List UInt32)
  | finalize
  deriving DecidableEq, Repr

/-- The buffer that a call leaves, or why the call is refused. -/
def make (b : Buffer) : Call → Except Misuse Buffer
  | .emit i => b.emit i
  | .patch pc index target => b.patch pc index target
  | .setFields pc fields => b.setFields pc fields
  | .finalize => b.finalize

/-- A buffer with the calls that it has accepted, the first of them first. -/
structure Ledger where
  buffer : Buffer
  accepted : List Call

namespace Ledger

/-- One call; a refused one leaves everything as it was. -/
def make (l : Ledger) (c : Call) : Ledger :=
  match l.buffer.make c with
  | .ok b => ⟨b, l.accepted ++ [c]⟩
  | .error _ => l

/-- Calls on a new buffer. -/
def run (calls : List Call) : Ledger :=
  calls.foldl make ⟨.empty, []⟩

variable {l : Ledger} {c : Call}

theorem make_of_ok {b : Buffer} (h : l.buffer.make c = .ok b) :
    l.make c = ⟨b, l.accepted ++ [c]⟩ := by
  simp only [make, h]

theorem make_of_error {m : Misuse} (h : l.buffer.make c = .error m) : l.make c = l := by
  simp only [make, h]

end Ledger

theorem emit_eq_ok {b b' : Buffer} {i : Instr} :
    b.emit i = .ok b' ↔ b.finalized = false ∧
      { b with code := b.code.push i, pending := b.pending ++ placeholders b.next i } = b' := by
  unfold emit
  cases b.finalized <;> simp

theorem patch_eq_ok {b b' : Buffer} {pc index target : Int} :
    b.patch pc index target = .ok b' ↔
      (⟨pc, index⟩ ∉ b.patched ∧ ⟨pc, index⟩ ∈ b.pending ∧ pc < target ∧ target ≤ b.next) ∧
      { b with
        code := b.code.modify pc.toNat fun i =>
          { i with targets := i.targets.set index.toNat (UInt32.ofNat target.toNat) }
        pending := b.pending.erase ⟨pc, index⟩
        patched := ⟨pc, index⟩ :: b.patched } = b' := by
  unfold patch
  by_cases hpatched : (⟨pc, index⟩ : Slot) ∈ b.patched
  · simp [hpatched]
  by_cases hpending : (⟨pc, index⟩ : Slot) ∈ b.pending
  · by_cases htarget : target ≤ pc ∨ (b.next : Int) < target
    · have hnot : ¬(pc < target ∧ target ≤ b.next) := by omega
      simp [hpatched, hpending, htarget, hnot]
    · have hbounds : pc < target ∧ target ≤ b.next := by omega
      simp [hpatched, hpending, htarget, hbounds]
  · simp [hpatched, hpending]

/-- A position that holds an instruction is not negative. -/
theorem at?_eq_some_iff {b : Buffer} {pc : Int} {i : Instr} :
    b.at? pc = some i ↔ ∃ k : Nat, pc = k ∧ b.code[k]? = some i := by
  unfold at?
  constructor
  · intro h
    split at h
    next hpc => exact ⟨pc.toNat, (Int.toNat_of_nonneg hpc).symm, h⟩
    next => cases h
  · rintro ⟨k, rfl, hk⟩
    rw [if_pos (Int.natCast_nonneg k), Int.toNat_natCast, hk]

theorem setFields_eq_ok {b b' : Buffer} {pc : Int} {fields : List UInt32} :
    b.setFields pc fields = .ok b' ↔
      (pc ∉ b.fielded ∧ ∃ i, b.at? pc = some i ∧ fields.length = i.fields.length) ∧
      { b with
        code := b.code.modify pc.toNat fun i => { i with fields := fields }
        fielded := pc :: b.fielded } = b' := by
  unfold setFields
  by_cases hfielded : pc ∈ b.fielded
  · simp [hfielded]
  cases hi : b.at? pc with
  | none => simp [hfielded]
  | some i => by_cases hcount : fields.length = i.fields.length <;> simp [hfielded, hcount]

theorem finalize_eq_ok {b b' : Buffer} :
    b.finalize = .ok b' ↔ b.pending = [] ∧ { b with finalized := true } = b' := by
  unfold finalize
  cases b.pending <;> simp

/-! ## What was asked of a buffer -/

namespace Call

/-- The instruction that a call emits. -/
def emission? : Call → Option Instr
  | emit i => some i
  | _ => none

/-- The target that a call patches a slot with. -/
def target? (s : Slot) : Call → Option Int
  | patch pc index target => if s = ⟨pc, index⟩ then some target else none
  | _ => none

/-- The field counts that a call gives to the instruction at a position. -/
def counts? (pc : Int) : Call → Option (List UInt32)
  | setFields pc' fields => if pc = pc' then some fields else none
  | _ => none

end Call

/-- The instructions that were emitted, in order. -/
def emissions (calls : List Call) : List Instr :=
  calls.filterMap Call.emission?

/-- The targets that a slot was patched with. -/
def targetsOf (s : Slot) (calls : List Call) : List Int :=
  calls.filterMap (Call.target? s)

/-- The field counts that were given to the instruction at a position. -/
def countsOf (pc : Int) (calls : List Call) : List (List UInt32) :=
  calls.filterMap (Call.counts? pc)

theorem filterMap_concat {α β : Type} (f : α → Option β) (xs : List α) (x : α) :
    (xs ++ [x]).filterMap f = xs.filterMap f ++ (f x).toList := by
  cases h : f x <;> simp [h]

theorem emissions_concat (calls : List Call) (c : Call) :
    emissions (calls ++ [c]) = emissions calls ++ c.emission?.toList :=
  filterMap_concat ..

theorem targetsOf_concat (s : Slot) (calls : List Call) (c : Call) :
    targetsOf s (calls ++ [c]) = targetsOf s calls ++ (c.target? s).toList :=
  filterMap_concat ..

theorem countsOf_concat (pc : Int) (calls : List Call) (c : Call) :
    countsOf pc (calls ++ [c]) = countsOf pc calls ++ (c.counts? pc).toList :=
  filterMap_concat ..

/-- The target slots of branching instructions. -/
def IsTarget (code : List Instr) (s : Slot) : Prop :=
  ∃ (pc index : Nat) (i : Instr), s = ⟨pc, index⟩ ∧ code[pc]? = some i ∧ i.op.branches = true ∧
    index < i.targets.length

/-- The target slots of an instruction are the placeholders it brings along. -/
theorem isTarget_concat {code : List Instr} {i : Instr} {s : Slot} :
    IsTarget (code ++ [i]) s ↔ IsTarget code s ∨ s ∈ placeholders code.length i := by
  have hplaceholders : s ∈ placeholders code.length i ↔
      ∃ index : Nat, s = ⟨code.length, index⟩ ∧ i.op.branches = true ∧ index < i.targets.length := by
    unfold placeholders
    cases i.op.branches <;> simp [eq_comm, and_comm]
  rw [hplaceholders]
  constructor
  · rintro ⟨pc, index, j, rfl, hj, hbranches, hindex⟩
    rcases Nat.lt_trichotomy pc code.length with hpc | rfl | hpc
    · rw [List.getElem?_append_left hpc] at hj
      exact .inl ⟨pc, index, j, rfl, hj, hbranches, hindex⟩
    · obtain rfl : i = j := by simpa using hj
      exact .inr ⟨index, rfl, hbranches, hindex⟩
    · rw [List.getElem?_eq_none (by simp; omega)] at hj
      cases hj
  · rintro (⟨pc, index, j, rfl, hj, hbranches, hindex⟩ | ⟨index, rfl, hbranches, hindex⟩)
    · refine ⟨pc, index, j, rfl, ?_, hbranches, hindex⟩
      rw [List.getElem?_append_left (List.getElem?_eq_some_iff.mp hj).1, hj]
    · exact ⟨code.length, index, i, rfl, by simp, hbranches, hindex⟩

/-! ## Accounts -/

/-- An instruction emitted at `pc` with everything written in that was asked for later. -/
def amended (calls : List Call) (pc : Nat) (i : Instr) : Instr :=
  { i with
    targets := i.targets.mapIdx fun index t =>
      ((targetsOf ⟨pc, index⟩ calls).head?.map fun target => UInt32.ofNat target.toNat).getD t
    fields := (countsOf pc calls).headD i.fields }

theorem amended_congr {calls calls' : List Call} {pc : Nat}
    (htargets : ∀ index : Nat, targetsOf ⟨pc, index⟩ calls' = targetsOf ⟨pc, index⟩ calls)
    (hcounts : countsOf pc calls' = countsOf pc calls) (i : Instr) :
    amended calls' pc i = amended calls pc i := by
  simp only [amended, htargets, hcounts]

/-- An instruction that nothing was asked for stays as it was emitted. -/
theorem amended_eq_self {calls : List Call} {pc : Nat}
    (htargets : ∀ index : Nat, targetsOf ⟨pc, index⟩ calls = []) (hcounts : countsOf pc calls = [])
    (i : Instr) : amended calls pc i = i := by
  have hid : (i.targets.mapIdx fun _ t => t) = i.targets :=
    List.ext_getElem? fun k => by simp
  simp [amended, htargets, hcounts, hid]

/-- A patch of a slot that had none is written into the target of that slot. -/
theorem amended_patch {calls : List Call} {pc index : Nat} {target : Int}
    (hnew : targetsOf ⟨pc, index⟩ calls = []) (i : Instr) :
    amended (calls ++ [.patch pc index target]) pc i =
      { amended calls pc i with
        targets := (amended calls pc i).targets.set index (UInt32.ofNat target.toNat) } := by
  have htargets : (amended (calls ++ [.patch pc index target]) pc i).targets
      = (amended calls pc i).targets.set index (UInt32.ofNat target.toNat) := by
    refine List.ext_getElem? fun k => ?_
    simp only [amended, List.getElem?_mapIdx, List.getElem?_set, List.length_mapIdx,
      targetsOf_concat, Call.target?]
    by_cases hk : k = index
    · subst hk
      rcases Nat.lt_or_ge k i.targets.length with hlt | hge
      · simp [hlt, hnew]
      · simp [hge]
    · have hne : index ≠ k := fun h => hk h.symm
      have hcast : (k : Int) ≠ index := by omega
      simp [hne, hcast]
  have hcounts : countsOf pc (calls ++ [.patch pc index target]) = countsOf pc calls := by
    simp [countsOf_concat, Call.counts?]
  simp only [amended, hcounts] at htargets ⊢
  rw [htargets]

/-- Field counts of an instruction that had none given are its field counts. -/
theorem amended_setFields {calls : List Call} {pc : Nat} {fields : List UInt32}
    (hnew : countsOf pc calls = []) (i : Instr) :
    amended (calls ++ [.setFields pc fields]) pc i
      = { amended calls pc i with fields := fields } := by
  have htargets : ∀ s, targetsOf s (calls ++ [.setFields pc fields]) = targetsOf s calls := by
    simp [targetsOf_concat, Call.target?]
  simp [amended, htargets, countsOf_concat, Call.counts?, hnew]

/-- What a buffer holds is what was asked of it. -/
structure Accounts (calls : List Call) (b : Buffer) : Prop where
  code_eq : b.code.toList = (emissions calls).mapIdx (amended calls)
  slot_iff : ∀ s, s ∈ b.pending ∨ s ∈ b.patched ↔ IsTarget (emissions calls) s
  apart : ∀ s ∈ b.pending, s ∉ b.patched
  nodup_pending : b.pending.Nodup
  nodup_patched : b.patched.Nodup
  unpatched : ∀ s, s ∉ b.patched → targetsOf s calls = []
  patched : ∀ s ∈ b.patched, ∃ target, targetsOf s calls = [target] ∧ s.pc < target ∧ target ≤ b.next
  uncounted : ∀ pc, pc ∉ b.fielded → countsOf pc calls = []
  counted : ∀ pc ∈ b.fielded, ∃ (k : Nat) (i : Instr) (fields : List UInt32), pc = k ∧
    (emissions calls)[k]? = some i ∧ countsOf pc calls = [fields] ∧ fields.length = i.fields.length

namespace Accounts

variable {calls : List Call} {b b' : Buffer}

theorem next_eq (h : Accounts calls b) : b.next = (emissions calls).length := by
  have := congrArg List.length h.code_eq
  simpa [Buffer.next] using this

theorem getElem?_code (h : Accounts calls b) (pc : Nat) :
    b.code[pc]? = (emissions calls)[pc]?.map (amended calls pc) := by
  rw [← Array.getElem?_toList, h.code_eq, List.getElem?_mapIdx]

/-- A slot that is in the books belongs to an instruction that was emitted. -/
theorem pc_lt (h : Accounts calls b) {s : Slot} (hs : s ∈ b.pending ∨ s ∈ b.patched) :
    s.pc < b.next := by
  obtain ⟨pc, index, i, rfl, hi, -⟩ := (h.slot_iff s).mp hs
  have hlt := (List.getElem?_eq_some_iff.mp hi).1
  have hnext := h.next_eq
  show (pc : Int) < b.next
  omega

theorem fielded_lt (h : Accounts calls b) {pc : Int} (hpc : pc ∈ b.fielded) : pc < b.next := by
  obtain ⟨k, i, fields, rfl, hi, -⟩ := h.counted pc hpc
  have hlt := (List.getElem?_eq_some_iff.mp hi).1
  have hnext := h.next_eq
  omega

theorem empty : Accounts [] .empty where
  code_eq := rfl
  slot_iff s := by
    refine iff_of_false (by simp [Buffer.empty]) ?_
    rintro ⟨pc, index, i, -, hi, -⟩
    cases hi
  apart s hs := absurd hs List.not_mem_nil
  nodup_pending := List.nodup_nil
  nodup_patched := List.nodup_nil
  unpatched _ _ := rfl
  patched s hs := absurd hs List.not_mem_nil
  uncounted _ _ := rfl
  counted pc hpc := absurd hpc List.not_mem_nil

/-- An emitted instruction has nothing written in yet, and its target slots are pending. -/
theorem emit (h : Accounts calls b) {i : Instr} (hb : b.emit i = .ok b') :
    Accounts (calls ++ [.emit i]) b' := by
  obtain ⟨-, rfl⟩ := emit_eq_ok.mp hb
  have hemissions : emissions (calls ++ [.emit i]) = emissions calls ++ [i] := by
    simp [emissions_concat, Call.emission?]
  have htargets : ∀ s, targetsOf s (calls ++ [.emit i]) = targetsOf s calls := by
    simp [targetsOf_concat, Call.target?]
  have hcounts : ∀ pc, countsOf pc (calls ++ [.emit i]) = countsOf pc calls := by
    simp [countsOf_concat, Call.counts?]
  have hnext : b.next = (emissions calls).length := h.next_eq
  have hfresh : ∀ s ∈ placeholders b.next i, s.pc = b.next := fun s hs => mem_placeholders hs
  refine ⟨?_, fun s => ?_, fun s hs hp => ?_, ?_, h.nodup_patched, fun s hs => ?_, fun s hs => ?_,
    fun pc hpc => ?_, fun pc hpc => ?_⟩
  · have hold : amended (calls ++ [.emit i]) = amended calls := by
      funext pc j
      exact amended_congr (fun _ => htargets _) (hcounts _) j
    -- everything in the books is about a position before the new one
    have hnew : amended calls (emissions calls).length i = i := by
      refine amended_eq_self (fun index => h.unpatched _ fun hs => ?_) (h.uncounted _ fun hpc => ?_) i
      · have hlt : ((emissions calls).length : Int) < b.next := h.pc_lt (.inr hs)
        omega
      · have hlt := h.fielded_lt hpc
        omega
    rw [hemissions, hold, List.mapIdx_concat, hnew, ← h.code_eq, Array.toList_push]
  · rw [hemissions, isTarget_concat, ← h.slot_iff s, ← hnext, List.mem_append]
    exact or_right_comm
  · rcases List.mem_append.mp hs with hs | hs
    · exact h.apart s hs hp
    · -- a new slot belongs to the new position, a patched one to an earlier one
      have hlt := h.pc_lt (.inr hp)
      have heq := hfresh s hs
      omega
  · refine List.nodup_append'.mpr ⟨h.nodup_pending, nodup_placeholders _ _, fun s hs hs' => ?_⟩
    have hlt := h.pc_lt (.inl hs)
    have heq := hfresh s hs'
    omega
  · rw [htargets]
    exact h.unpatched s hs
  · obtain ⟨target, htarget, hafter, hwithin⟩ := h.patched s hs
    refine ⟨target, by rw [htargets, htarget], hafter, ?_⟩
    have hsize : (b.code.push i).size = b.next + 1 := Array.size_push ..
    show target ≤ (b.code.push i).size
    omega
  · rw [hcounts]
    exact h.uncounted pc hpc
  · obtain ⟨k, j, fields, rfl, hj, hfields, hlength⟩ := h.counted pc hpc
    refine ⟨k, j, fields, rfl, ?_, by rw [hcounts, hfields], hlength⟩
    rw [hemissions, List.getElem?_append_left (List.getElem?_eq_some_iff.mp hj).1, hj]

/-- A patch is written into its slot, which moves from the pending to the patched ones. -/
theorem patch (h : Accounts calls b) {pc index target : Int}
    (hb : b.patch pc index target = .ok b') : Accounts (calls ++ [.patch pc index target]) b' := by
  obtain ⟨⟨hfresh, hpending, hafter, hwithin⟩, rfl⟩ := patch_eq_ok.mp hb
  -- a pending slot is one of an emitted instruction, so its numbers are not negative
  obtain ⟨pc, index, i, hslot, -⟩ := (h.slot_iff _).mp (.inl hpending)
  obtain ⟨rfl, rfl⟩ := Slot.mk.inj hslot
  have hemissions : emissions (calls ++ [.patch pc index target]) = emissions calls := by
    simp [emissions_concat, Call.emission?]
  have htargets : ∀ s, s ≠ ⟨pc, index⟩ →
      targetsOf s (calls ++ [.patch pc index target]) = targetsOf s calls := by
    intro s hs
    simp [targetsOf_concat, Call.target?, hs]
  have hcounts : ∀ q, countsOf q (calls ++ [.patch pc index target]) = countsOf q calls := by
    simp [countsOf_concat, Call.counts?]
  have hnew : targetsOf ⟨pc, index⟩ calls = [] := h.unpatched _ hfresh
  refine ⟨?_, fun s => ?_, fun s hs hp => ?_, h.nodup_pending.erase _,
    List.nodup_cons.mpr ⟨hfresh, h.nodup_patched⟩, fun s hs => ?_, fun s hs => ?_,
    fun q hq => ?_, fun q hq => ?_⟩
  · refine List.ext_getElem? fun q => ?_
    rw [hemissions, List.getElem?_mapIdx, Array.getElem?_toList, Int.toNat_natCast,
      Int.toNat_natCast, Array.getElem?_modify, h.getElem?_code]
    by_cases hq : pc = q
    · subst hq
      simp only [if_true, Option.map_map]
      exact congrArg (Option.map · _) (funext fun j => (amended_patch hnew j).symm)
    · -- the slots of every other position were patched as before
      have hne : ∀ k : Nat, (⟨q, k⟩ : Slot) ≠ ⟨pc, index⟩ := fun k hk =>
        hq (Int.ofNat_inj.mp (Slot.mk.inj hk).1.symm)
      rw [if_neg hq]
      refine congrArg (Option.map · _) (funext fun j => ?_)
      exact (amended_congr (fun k => htargets _ (hne k)) (hcounts _) j).symm
  · -- the slot changes sides, and no other does
    rw [hemissions, ← h.slot_iff s, List.mem_cons]
    by_cases hs : s = ⟨pc, index⟩
    · subst hs
      simp [hpending]
    · rw [List.mem_erase_of_ne hs, or_iff_right hs]
  · rcases List.mem_cons.mp hp with rfl | hp
    · exact (List.Nodup.mem_erase_iff h.nodup_pending).mp hs |>.1 rfl
    · exact h.apart s (List.mem_of_mem_erase hs) hp
  · rw [List.mem_cons, not_or] at hs
    rw [htargets s hs.1]
    exact h.unpatched s hs.2
  · by_cases heq : s = ⟨pc, index⟩
    · subst heq
      refine ⟨target, by simp [targetsOf_concat, Call.target?, hnew], hafter, ?_⟩
      simpa [Buffer.next] using hwithin
    · obtain ⟨t, ht, hlow, hhigh⟩ := h.patched s ((List.mem_cons.mp hs).resolve_left heq)
      refine ⟨t, by rw [htargets s heq, ht], hlow, ?_⟩
      simpa [Buffer.next] using hhigh
  · rw [hcounts]
    exact h.uncounted q hq
  · rw [hcounts, hemissions]
    exact h.counted q hq

/-- Field counts are written into their instruction. -/
theorem setFields (h : Accounts calls b) {pc : Int} {fields : List UInt32}
    (hb : b.setFields pc fields = .ok b') : Accounts (calls ++ [.setFields pc fields]) b' := by
  obtain ⟨⟨hfresh, j, hj, hlength⟩, rfl⟩ := setFields_eq_ok.mp hb
  -- there is an instruction at the position, so it is not negative
  obtain ⟨pc, rfl, hat⟩ := at?_eq_some_iff.mp hj
  have hemissions : emissions (calls ++ [.setFields pc fields]) = emissions calls := by
    simp [emissions_concat, Call.emission?]
  have htargets : ∀ s, targetsOf s (calls ++ [.setFields pc fields]) = targetsOf s calls := by
    simp [targetsOf_concat, Call.target?]
  have hcounts : ∀ q, q ≠ (pc : Int) →
      countsOf q (calls ++ [.setFields pc fields]) = countsOf q calls := by
    intro q hq
    simp [countsOf_concat, Call.counts?, hq]
  have hnew : countsOf pc calls = [] := h.uncounted _ hfresh
  -- the instruction at the position has as many field counts as it was emitted with
  obtain ⟨i, hi, hcount⟩ : ∃ i, (emissions calls)[pc]? = some i ∧ fields.length = i.fields.length := by
    rw [h.getElem?_code] at hat
    obtain ⟨i, hi, rfl⟩ := Option.map_eq_some_iff.mp hat
    refine ⟨i, hi, ?_⟩
    rwa [amended, hnew] at hlength
  refine ⟨?_, fun s => ?_, h.apart, h.nodup_pending, h.nodup_patched, fun s hs => ?_,
    fun s hs => ?_, fun q hq => ?_, fun q hq => ?_⟩
  · refine List.ext_getElem? fun q => ?_
    rw [hemissions, List.getElem?_mapIdx, Array.getElem?_toList, Int.toNat_natCast,
      Array.getElem?_modify, h.getElem?_code]
    by_cases hq : pc = q
    · subst hq
      simp only [if_true, Option.map_map]
      exact congrArg (Option.map · _) (funext fun j => (amended_setFields hnew j).symm)
    · rw [if_neg hq]
      refine congrArg (Option.map · _) (funext fun j => ?_)
      exact (amended_congr (fun k => htargets _) (hcounts _ (by omega)) j).symm
  · rw [hemissions]
    exact h.slot_iff s
  · rw [htargets]
    exact h.unpatched s hs
  · obtain ⟨t, ht, hlow, hhigh⟩ := h.patched s hs
    refine ⟨t, by rw [htargets, ht], hlow, ?_⟩
    simpa [Buffer.next] using hhigh
  · rw [List.mem_cons, not_or] at hq
    rw [hcounts q hq.1]
    exact h.uncounted q hq.2
  · rw [hemissions]
    by_cases heq : q = pc
    · subst heq
      exact ⟨pc, i, fields, rfl, hi, by simp [countsOf_concat, Call.counts?, hnew], hcount⟩
    · rw [hcounts q heq]
      exact h.counted q ((List.mem_cons.mp hq).resolve_left heq)

/-- Closing a buffer changes nothing in the books. -/
theorem finalize (h : Accounts calls b) (hb : b.finalize = .ok b') :
    Accounts (calls ++ [.finalize]) b' := by
  obtain ⟨-, rfl⟩ := finalize_eq_ok.mp hb
  have hemissions : emissions (calls ++ [.finalize]) = emissions calls := by
    simp [emissions_concat, Call.emission?]
  have htargets : ∀ s, targetsOf s (calls ++ [.finalize]) = targetsOf s calls := by
    simp [targetsOf_concat, Call.target?]
  have hcounts : ∀ pc, countsOf pc (calls ++ [.finalize]) = countsOf pc calls := by
    simp [countsOf_concat, Call.counts?]
  have hold : amended (calls ++ [.finalize]) = amended calls := by
    funext pc j
    exact amended_congr (fun _ => htargets _) (hcounts _) j
  obtain ⟨hcode, hslots, hapart, hpending, hpatched, htarget, hpatch, hcounted, hcount⟩ := h
  refine ⟨?_, ?_, hapart, hpending, hpatched, ?_, ?_, ?_, ?_⟩
  · rwa [hemissions, hold]
  · rwa [hemissions]
  · simpa only [htargets] using htarget
  · simp only [htargets]
    exact hpatch
  · simpa only [hcounts] using hcounted
  · simpa only [hcounts, hemissions] using hcount

end Accounts

/-- Every call keeps the accounts, whether it is accepted or refused. -/
theorem Ledger.accounts_make {l : Ledger} (h : Accounts l.accepted l.buffer) (c : Call) :
    Accounts (l.make c).accepted (l.make c).buffer := by
  cases hb : l.buffer.make c with
  | error m =>
    rw [make_of_error hb]
    exact h
  | ok b =>
    rw [make_of_ok hb]
    cases c with
    | emit i => exact h.emit hb
    | patch pc index target => exact h.patch hb
    | setFields pc fields => exact h.setFields hb
    | finalize => exact h.finalize hb

/-- The accounts hold after any calls. -/
theorem Ledger.accounts_run (calls : List Call) :
    Accounts (run calls).accepted (run calls).buffer := by
  have hfold : ∀ (calls : List Call) (l : Ledger), Accounts l.accepted l.buffer →
      Accounts (calls.foldl make l).accepted (calls.foldl make l).buffer := by
    intro calls
    induction calls with
    | nil => exact fun l h => h
    | cons c calls ih => exact fun l h => ih (l.make c) (l.accounts_make h c)
  exact hfold calls ⟨.empty, []⟩ .empty

/-- Calls that are accepted are kept on record. -/
theorem Ledger.accepted_grows (calls more : List Call) :
    (run calls).accepted <+: (run (calls ++ more)).accepted := by
  have hfold : ∀ (more : List Call) (l : Ledger), l.accepted <+: (more.foldl make l).accepted := by
    intro more
    induction more with
    | nil => exact fun l => List.prefix_rfl
    | cons c more ih =>
      intro l
      refine List.IsPrefix.trans ?_ (ih (l.make c))
      cases hc : l.buffer.make c with
      | error m => simp only [make_of_error hc, List.prefix_refl]
      | ok b => simp only [make_of_ok hc, List.prefix_append]
  rw [run, run, List.foldl_append]
  exact hfold more _

/-! ## The discipline -/

/-- Two instructions differ in nothing but targets and field counts. -/
structure SameHead (i j : Instr) : Prop where
  op : j.op = i.op
  a : j.a = i.a
  b : j.b = i.b
  num : j.num = i.num
  expr : j.expr = i.expr

/-- What has become of an instruction `i` that was emitted at `pc`. -/
structure Became (l : Ledger) (pc : Nat) (i j : Instr) : Prop where
  head : SameHead i j
  length_targets : j.targets.length = i.targets.length
  /-- A target that was not patched is the one it was emitted with. -/
  unpatched : ∀ index : Nat, ⟨pc, index⟩ ∉ l.buffer.patched → j.targets[index]? = i.targets[index]?
  /-- One patch of a slot was accepted, with a target behind the instruction and not beyond the end
      of the code, and the slot holds that target. -/
  patched : ∀ index : Nat, ⟨pc, index⟩ ∈ l.buffer.patched →
    ∃ target word, targetsOf ⟨pc, index⟩ l.accepted = [target] ∧ (pc : Int) < target ∧
      target ≤ l.buffer.next ∧ j.targets[index]? = some word ∧ word = UInt32.ofNat target.toNat ∧
      (l.buffer.next < UInt32.size → (word.toNat : Int) = target)
  /-- Field counts were given once, or they are those of the emission. -/
  fields : (countsOf pc l.accepted = [] ∧ j.fields = i.fields) ∨
    (countsOf pc l.accepted = [j.fields] ∧ j.fields.length = i.fields.length)

namespace Accounts

variable {l later : Ledger}

theorem became (h : Accounts l.accepted l.buffer) {pc : Nat} {i : Instr}
    (hi : (emissions l.accepted)[pc]? = some i) : Became l pc i (amended l.accepted pc i) where
  head := ⟨rfl, rfl, rfl, rfl, rfl⟩
  length_targets := List.length_mapIdx
  unpatched index hs := by simp [amended, h.unpatched _ hs]
  patched index hs := by
    obtain ⟨target, htarget, hafter, hwithin⟩ := h.patched _ hs
    obtain ⟨pc', index', i', hslot, hi', -, hindex⟩ := (h.slot_iff _).mp (.inr hs)
    obtain ⟨hpc, hindex'⟩ := Slot.mk.inj hslot
    obtain rfl := Int.ofNat_inj.mp hpc
    obtain rfl := Int.ofNat_inj.mp hindex'
    obtain rfl : i = i' := Option.some.inj (hi.symm.trans hi')
    have hafter : (pc : Int) < target := hafter
    refine ⟨target, _, htarget, hafter, hwithin, ?_, rfl, fun hsize => ?_⟩
    · rw [amended, List.getElem?_mapIdx, htarget, List.getElem?_eq_getElem hindex]
      rfl
    · have hlt : target.toNat < UInt32.size := by omega
      rw [UInt32.toNat_ofNat_of_lt' hlt]
      exact Int.toNat_of_nonneg (by omega)
  fields := by
    by_cases hpc : (pc : Int) ∈ l.buffer.fielded
    · obtain ⟨k, i', fields, hk, hi', hcount, hlength⟩ := h.counted _ hpc
      obtain rfl := Int.ofNat_inj.mp hk
      obtain rfl : i = i' := Option.some.inj (hi.symm.trans hi')
      refine .inr ?_
      rw [amended, hcount]
      exact ⟨rfl, hlength⟩
    · have hnone := h.uncounted _ hpc
      exact .inl ⟨hnone, by rw [amended, hnone]; rfl⟩

/-- An instruction stays where it is; its field counts change when they are given, and not again. -/
theorem stays (h : Accounts l.accepted l.buffer) (h' : Accounts later.accepted later.buffer)
    (hgrows : l.accepted <+: later.accepted) {pc : Nat} {j : Instr}
    (hj : l.buffer.code[pc]? = some j) :
    ∃ k, later.buffer.code[pc]? = some k ∧ SameHead j k ∧
      (k.fields = j.fields ∨
        countsOf pc l.accepted = [] ∧ countsOf pc later.accepted = [k.fields]) := by
  obtain ⟨rest, hrest⟩ := hgrows
  rw [h.getElem?_code] at hj
  obtain ⟨i, hi, rfl⟩ := Option.map_eq_some_iff.mp hj
  have hi' : (emissions later.accepted)[pc]? = some i := by
    rw [← hrest, emissions, List.filterMap_append]
    exact (List.getElem?_append_left (List.getElem?_eq_some_iff.mp hi).1).trans hi
  have hcounts : countsOf pc later.accepted = countsOf pc l.accepted ++ countsOf pc rest := by
    rw [← hrest, countsOf, List.filterMap_append]
    rfl
  refine ⟨amended later.accepted pc i, by rw [h'.getElem?_code, hi']; rfl,
    ⟨rfl, rfl, rfl, rfl, rfl⟩, ?_⟩
  rcases (h.became hi).fields with ⟨hnone, hfields⟩ | ⟨hone, -⟩
  · -- they had not been given, so a record of them is a later one
    rcases (h'.became hi').fields with ⟨-, hfields'⟩ | ⟨hone', -⟩
    · exact .inl (hfields'.trans hfields.symm)
    · exact .inr ⟨hnone, hone'⟩
  · -- they had been given, and the record of that is still the only one
    rcases (h'.became hi').fields with ⟨hnone', -⟩ | ⟨hone', -⟩
    · rw [hcounts, hone] at hnone'
      cases hnone'
    · rw [hcounts, hone] at hone'
      exact .inl (List.cons.inj hone').1.symm

end Accounts

/-- The discipline of backpatching, after any calls on a new buffer.  Every target slot of every
    emitted branching instruction is pending or patched and not both, and nothing else is either.
    The code is the emitted instructions in order, changed in no other way than `Became` allows.
    Later calls change nothing of an instruction but its targets and, if they have not been given
    before, its field counts.  The code is complete just when nothing is pending. -/
theorem Ledger.backpatching (calls more : List Call) :
    let l := run calls
    let later := run (calls ++ more)
    (∀ s, (s ∈ l.buffer.pending ∨ s ∈ l.buffer.patched ↔ IsTarget (emissions l.accepted) s) ∧
      ¬(s ∈ l.buffer.pending ∧ s ∈ l.buffer.patched)) ∧
    (l.buffer.pending.Nodup ∧ l.buffer.patched.Nodup) ∧
    l.buffer.code.size = (emissions l.accepted).length ∧
    (∀ (pc : Nat) (i j : Instr), (emissions l.accepted)[pc]? = some i →
      l.buffer.code[pc]? = some j → Became l pc i j) ∧
    (∀ (pc : Nat) (j : Instr), l.buffer.code[pc]? = some j →
      ∃ k, later.buffer.code[pc]? = some k ∧ SameHead j k ∧
        (k.fields = j.fields ∨
          countsOf pc l.accepted = [] ∧ countsOf pc later.accepted = [k.fields])) ∧
    ((∃ b, l.buffer.finalize = .ok b) ↔ l.buffer.pending = []) ∧
    ∀ b, l.buffer.finalize = .ok b →
      b.code.toList = (emissions l.accepted).mapIdx (amended l.accepted) := by
  intro l later
  have h : Accounts l.accepted l.buffer := accounts_run calls
  have h' : Accounts later.accepted later.buffer := accounts_run (calls ++ more)
  refine ⟨fun s => ⟨h.slot_iff s, fun hs => h.apart s hs.1 hs.2⟩, ⟨h.nodup_pending, h.nodup_patched⟩,
    h.next_eq, fun pc i j hi hj => ?_, fun pc j hj => h.stays h' (accepted_grows calls more) hj, ?_,
    fun b hb => ?_⟩
  · rw [h.getElem?_code, hi] at hj
    obtain rfl := Option.some.inj hj
    exact h.became hi
  · simp [finalize_eq_ok]
  · obtain ⟨-, rfl⟩ := finalize_eq_ok.mp hb
    exact h.code_eq

/-- A dispatch with targets filled in beforehand, a jump without a target, and targets on an
    operation that does not branch.  The second patch of a slot, the second field counts, a patch of
    what is no slot, and the first attempt to close the buffer are refused. -/
def sampleCalls : List Call :=
  [.emit { op := .named .cases2, targets := [7, 8], fields := [0, 0] },
   .emit { op := .named .goto },
   .emit { op := .named .ret, targets := [9] },
   .patch 0 1 2, .patch 0 1 3, .setFields 0 [4, 5], .setFields 0 [6, 6], .patch 2 0 3, .finalize,
   .patch 0 0 1, .finalize, .emit .ret]

theorem sampleCalls_backpatched :
    (Ledger.run sampleCalls).accepted.length = 7 ∧
      ∃ b, (Ledger.run sampleCalls).buffer.finalize = .ok b ∧
        b.code.toList = [{ op := .named .cases2, targets := [1, 2], fields := [4, 5] },
          { op := .named .goto }, { op := .named .ret, targets := [9] }] := by
  obtain ⟨-, -, -, -, -, hdone, hcode⟩ := Ledger.backpatching sampleCalls []
  obtain ⟨b, hb⟩ := hdone.mpr (by decide)
  exact ⟨by decide, b, hb, (hcode b hb).trans (by decide)⟩

end TermVM.Buffer
