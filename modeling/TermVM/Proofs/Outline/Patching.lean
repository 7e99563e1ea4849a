/-
  TermVM.Proofs.Outline.Patching

  What the calls that code generation makes do to a buffer.

  `Open` is the state of a buffer between two calls: nothing is finalized, each
  placeholder is pending or patched and not both, and all bookkeeping is about
  instructions that exist.  `Grows` says that a buffer has got a block of code
  and some placeholders at its end, and is otherwise as it was.

  A dispatch is emitted with its placeholders, its alternatives are emitted
  behind it, and then all placeholders are patched: `completeDispatch_grows`
  says that what is left is the layout of the dispatch, with nothing pending.
-/
import Mathlib.Data.List.Nodup
import TermVM.Proofs.Outline.Basic
import TermVM.Proofs.Result

namespace TermVM

open Codegen Outline

/-- Modifying the element between two parts of a list. -/
theorem modify_middle {α : Type} (before : List α) (a : α) (behind : List α) (f : α → α) :
    (before ++ a :: behind).modify before.length f = before ++ f a :: behind := by
  induction before with
  | nil => rfl
  | cons b before ih => simp [ih]

namespace Buffer

/-- The state of a buffer that code generation works on. -/
structure Open (b : Buffer) : Prop where
  unfinished : b.finalized = false
  nodup : b.pending.Nodup
  disjoint : ∀ s ∈ b.pending, s ∉ b.patched
  pending_lt : ∀ s ∈ b.pending, s.pc < b.next
  patched_lt : ∀ s ∈ b.patched, s.pc < b.next
  fielded_lt : ∀ pc ∈ b.fielded, pc < b.next

/-- A buffer has grown by a block of code and by pending placeholders. -/
structure Grows (b : Buffer) (block : Code) (slots : List Slot) (b' : Buffer) : Prop where
  isOpen : b'.Open
  code_eq : b'.code.toList = b.code.toList ++ block
  pending_eq : b'.pending = b.pending ++ slots
  fielded_new : ∀ pc ∈ b'.fielded, pc ∈ b.fielded ∨ (b.next : Int) ≤ pc

theorem open_empty : Buffer.empty.Open where
  unfinished := rfl
  nodup := List.nodup_nil
  disjoint _ hs := absurd hs List.not_mem_nil
  pending_lt _ hs := absurd hs List.not_mem_nil
  patched_lt _ hs := absurd hs List.not_mem_nil
  fielded_lt _ hs := absurd hs List.not_mem_nil

namespace Grows

variable {b b₁ b₂ : Buffer} {block block₁ block₂ : Code} {slots slots₁ slots₂ : List Slot}

theorem next_eq (h : Grows b block slots b₁) : b₁.next = b.next + block.length := by
  have := congrArg List.length h.code_eq
  simpa [Buffer.next] using this

theorem refl (h : b.Open) : Grows b [] [] b where
  isOpen := h
  code_eq := by simp
  pending_eq := by simp
  fielded_new _ := Or.inl

theorem trans (h₁ : Grows b block₁ slots₁ b₁) (h₂ : Grows b₁ block₂ slots₂ b₂) :
    Grows b (block₁ ++ block₂) (slots₁ ++ slots₂) b₂ where
  isOpen := h₂.isOpen
  code_eq := by rw [h₂.code_eq, h₁.code_eq, List.append_assoc]
  pending_eq := by rw [h₂.pending_eq, h₁.pending_eq, List.append_assoc]
  fielded_new pc hpc := by
    rcases h₂.fielded_new pc hpc with hpc | hpc
    · exact h₁.fielded_new pc hpc
    · have := h₁.next_eq
      exact Or.inr (by omega)

end Grows

/-! ## Emission -/

theorem mem_placeholders {pc : Nat} {i : Instr} {s : Slot} (h : s ∈ placeholders pc i) :
    s.pc = pc := by
  unfold placeholders at h
  split at h
  · obtain ⟨k, -, rfl⟩ := List.mem_map.mp h
    rfl
  · exact absurd h List.not_mem_nil

theorem nodup_placeholders (pc : Nat) (i : Instr) : (placeholders pc i).Nodup := by
  unfold placeholders
  split
  · refine List.Nodup.map ?_ List.nodup_range
    intro k l hkl
    exact Int.ofNat_inj.mp (congrArg Slot.index hkl)
  · exact List.nodup_nil

/-- Emission adds an instruction and its placeholders. -/
theorem emit_grows {b : Buffer} (h : b.Open) (i : Instr) :
    ∃ b', b.emit i = .ok b' ∧ Grows b [i] (placeholders b.next i) b' ∧
      b'.fielded = b.fielded := by
  have hemit : b.emit i = .ok { b with
      code := b.code.push i
      pending := b.pending ++ placeholders b.next i } := by
    rw [Buffer.emit, h.unfinished]
    rfl
  refine ⟨_, hemit, ?_, rfl⟩
  have hnew : ∀ s ∈ placeholders b.next i, s.pc = b.next := fun s hs => mem_placeholders hs
  have hnext : (b.code.push i).size = b.next + 1 := by simp [Buffer.next]
  refine ⟨⟨h.unfinished, ?_, ?_, ?_, ?_, ?_⟩, by simp, rfl, fun _ => Or.inl⟩
  · refine List.nodup_append'.mpr ⟨h.nodup, nodup_placeholders _ _, ?_⟩
    intro s hs hs'
    have := h.pending_lt s hs
    have := hnew s hs'
    omega
  · intro s hs hp
    rcases List.mem_append.mp hs with hs | hs
    · exact h.disjoint s hs hp
    · have := h.patched_lt s hp
      have := hnew s hs
      omega
  · intro s hs
    show s.pc < ((b.code.push i).size : Nat)
    rcases List.mem_append.mp hs with hs | hs
    · have := h.pending_lt s hs
      omega
    · have := hnew s hs
      omega
  · intro s hs
    have := h.patched_lt s hs
    show s.pc < ((b.code.push i).size : Nat)
    omega
  · intro pc hpc
    have := h.fielded_lt pc hpc
    show pc < ((b.code.push i).size : Nat)
    omega

/-! ## Patching one instruction -/

/-- A pending placeholder can be patched with any position ahead. -/
theorem patch_ok {b : Buffer} (h : b.Open) {pc index target : Nat} {before behind : List Slot}
    (hpending : b.pending = before ++ ⟨pc, index⟩ :: behind) (hlt : pc < target)
    (hle : target ≤ b.next) :
    ∃ b', b.patch pc index target = .ok b' ∧ b'.Open ∧
      b'.code.toList = b.code.toList.modify pc (fun i =>
        { i with targets := i.targets.set index (UInt32.ofNat target) }) ∧
      b'.pending = before ++ behind ∧ b'.fielded = b.fielded := by
  have hmem : (⟨pc, index⟩ : Slot) ∈ b.pending := by simp [hpending]
  have hnodup : (before ++ ⟨pc, index⟩ :: behind).Nodup := hpending ▸ h.nodup
  have hbefore : (⟨pc, index⟩ : Slot) ∉ before := by
    intro hs
    exact (List.nodup_append'.mp hnodup).2.2 hs List.mem_cons_self
  have herase : b.pending.erase ⟨pc, index⟩ = before ++ behind := by
    rw [hpending, List.erase_append_right _ hbefore, List.erase_cons_head]
  have hbounds : ¬((target : Int) ≤ pc ∨ (b.next : Int) < target) := by omega
  have hsub : ∀ s ∈ before ++ behind, s ∈ b.pending := fun s hs => by
    rw [← herase] at hs
    exact List.mem_of_mem_erase hs
  have hpatch : b.patch pc index target = .ok { b with
      code := b.code.modify pc fun i =>
        { i with targets := i.targets.set index (UInt32.ofNat target) }
      pending := b.pending.erase ⟨pc, index⟩
      patched := ⟨pc, index⟩ :: b.patched } := by
    rw [Buffer.patch, if_neg (h.disjoint _ hmem), if_neg (not_not_intro hmem), if_neg hbounds]
    rfl
  refine ⟨_, hpatch, ?_, by simp [Array.toList_modify], herase, rfl⟩
  refine ⟨h.unfinished, ?_, ?_, ?_, ?_, ?_⟩
  · exact h.nodup.erase _
  · intro s hs hp
    have hs' : s ∈ before ++ behind := herase ▸ hs
    rcases List.mem_cons.mp hp with rfl | hp
    · have hout : (⟨pc, index⟩ : Slot) ∉ before ++ behind :=
        (List.nodup_middle.mp hnodup |> List.nodup_cons.mp).1
      exact hout hs'
    · exact h.disjoint s (hsub s hs') hp
  · intro s hs
    simpa [Buffer.next] using h.pending_lt s (hsub s (herase ▸ hs))
  · intro s hs
    rcases List.mem_cons.mp hs with rfl | hs
    · simpa [Buffer.next] using h.pending_lt _ hmem
    · simpa [Buffer.next] using h.patched_lt s hs
  · intro q hq
    simpa [Buffer.next] using h.fielded_lt q hq

/-- Field counts of the right number can be set once. -/
theorem setFields_ok {b : Buffer} (h : b.Open) {before behind : Code} {i : Instr}
    {fields : List UInt32} (hcode : b.code.toList = before ++ i :: behind)
    (hfresh : (before.length : Int) ∉ b.fielded) (hlen : fields.length = i.fields.length) :
    ∃ b', b.setFields before.length fields = .ok b' ∧ b'.Open ∧
      b'.code.toList = before ++ { i with fields := fields } :: behind ∧
      b'.pending = b.pending ∧ b'.fielded = (before.length : Int) :: b.fielded := by
  have hat : b.at? before.length = some i := by
    have hget : b.code[before.length]? = some i := by
      rw [← Array.getElem?_toList, hcode]
      simp
    simp [Buffer.at?, hget]
  have hlt : before.length < b.next := by
    have := congrArg List.length hcode
    simp [Buffer.next] at this ⊢
    omega
  have hset : b.setFields before.length fields = .ok { b with
      code := b.code.modify before.length fun i => { i with fields := fields }
      fielded := (before.length : Int) :: b.fielded } := by
    rw [Buffer.setFields, if_neg hfresh, hat]
    exact if_neg (not_not_intro hlen)
  refine ⟨_, hset, ?_, ?_, rfl, rfl⟩
  · refine ⟨h.unfinished, h.nodup, h.disjoint, ?_, ?_, ?_⟩
    · intro s hs
      simpa [Buffer.next] using h.pending_lt s hs
    · intro s hs
      simpa [Buffer.next] using h.patched_lt s hs
    · intro q hq
      rcases List.mem_cons.mp hq with rfl | hq
      · simpa [Buffer.next] using hlt
      · simpa [Buffer.next] using h.fielded_lt q hq
  · simp [Array.toList_modify, hcode, modify_middle]

end Buffer

namespace Codegen

/-! ## Completing a dispatch -/

/-- A dispatch destructures, or branches to one of several alternatives. -/
theorem CaseHead.instr_cases (head : CaseHead) :
    head.instr = .destruct ∨ ∃ m a n, m.branches = true ∧ head.instr = .dispatch m a n := by
  cases head with
  | marked n =>
    by_cases hone : n = 1
    · exact .inl (by rw [CaseHead.instr, if_pos hone])
    · by_cases htwo : n = 2
      · exact .inr ⟨.cases2, 0, 2, rfl, by rw [CaseHead.instr, if_neg hone, if_pos htwo]⟩
      · exact .inr ⟨.casesN, 0, n.toNat, rfl, by rw [CaseHead.instr, if_neg hone, if_neg htwo]⟩
  | natural => exact .inr ⟨.natCases, 0, 2, rfl, rfl⟩
  | native a => exact .inr ⟨.builtinCases, a.index, a.alternatives.toNat, rfl, rfl⟩

theorem CaseHead.length_fields_instr (head : CaseHead) :
    head.instr.fields.length = head.alternatives.toNat := by
  cases head with
  | marked n =>
    by_cases h1 : n = 1
    · simp [CaseHead.instr, CaseHead.alternatives, h1, Instr.destruct]
    · by_cases h2 : n = 2 <;> simp [CaseHead.instr, CaseHead.alternatives, h1, h2, Instr.dispatch]
  | natural => rfl
  | native a => simp [CaseHead.instr, CaseHead.alternatives, Instr.dispatch]

/-- A dispatch that is filled in has as many targets as alternatives, or none. -/
theorem CaseHead.length_targets_filled_le (head : CaseHead) (alternatives : List Alternative) :
    (filled head.instr alternatives).targets.length ≤ alternatives.length := by
  rcases head.instr_cases with hinstr | ⟨m, a, n, hm, hinstr⟩
  · rw [hinstr]
    exact Nat.zero_le _
  · have htargets : (filled (Instr.dispatch m a n) alternatives).targets
        = alternatives.map fun a => UInt32.ofNat a.entry := if_pos hm
    rw [hinstr, htargets]
    exact Nat.le_of_eq (List.length_map _)

/-- A dispatch has a target slot for every alternative, unless there is only one of them. -/
theorem CaseHead.targets_instr (head : CaseHead) :
    head.instr.targets =
      if head.instr.op.branches then List.replicate head.alternatives.toNat 0 else [] := by
  cases head with
  | marked n =>
    by_cases h1 : n = 1
    · simp [CaseHead.instr, h1, Instr.destruct, Opcode.branches, Mnemonic.branches]
    · by_cases h2 : n = 2 <;> simp [CaseHead.instr, CaseHead.alternatives, h1, h2,
        Instr.dispatch, Opcode.branches, Mnemonic.branches]
  | natural => rfl
  | native a => rfl

/-- What follows reading the state sees the state it runs in. -/
theorem run_get_bind {α : Type} (k : State → Gen α) (s : State) : (get >>= k) s = k s s :=
  rfl

theorem onBuffer_ok {f : Buffer → Except Buffer.Misuse Buffer} {s : State} {b : Buffer}
    (h : f s.buffer = .ok b) : onBuffer f s = .ok ((), ⟨b, s.lastId⟩) := by
  rw [onBuffer, run_get_bind, h]
  rfl

theorem onBuffer_error {f : Buffer → Except Buffer.Misuse Buffer} {s : State} {m : Buffer.Misuse}
    (h : f s.buffer = .error m) : onBuffer f s = .error (.misuse m) := by
  rw [onBuffer, run_get_bind, h]
  rfl

/-- The code that is handed out is the whole code of the buffer. -/
theorem handOut_ok {s : State} {b : Buffer} (h : s.buffer.finalize = .ok b) :
    ∃ w : Buffer.Handout, handOut s = .ok (w, ⟨b, s.lastId⟩) ∧ w.code b = b.code.toList := by
  refine ⟨⟨b.next⟩, ?_, List.take_length⟩
  rw [handOut, run_get_bind, Buffer.handOut, h]
  rfl

/-- Running a sequence of which the first part succeeds. -/
theorem run_bind_ok {α β : Type} {m : Gen α} {f : α → Gen β} {s s' : State} {a : α}
    (h : m s = .ok (a, s')) : (m >>= f) s = f a s' := by
  show (m s >>= fun r => f r.1 r.2) = _
  rw [h]
  rfl

/-- Running a sequence of which the first part fails. -/
theorem run_bind_error {α β : Type} {m : Gen α} {f : α → Gen β} {s : State} {e : Failure}
    (h : m s = .error e) : (m >>= f) s = .error e := by
  show (m s >>= fun r => f r.1 r.2) = _
  rw [h]
  rfl

/-- A sequence comes to something when both of its parts do. -/
theorem run_bind_eq_ok {α β : Type} {m : Gen α} {f : α → Gen β} {s : State} {r : β × State} :
    (m >>= f) s = .ok r ↔ ∃ a s', m s = .ok (a, s') ∧ f a s' = .ok r := by
  show (m s >>= fun first => f first.1 first.2) = .ok r ↔ _
  rw [Result.bind_eq_ok, Prod.exists]

/-- Patching the target slots of one instruction in order. -/
theorem patchTargets_ok {s : State} {before behind : Code} {i : Instr} {done : List UInt32}
    {targets : List Nat} {pre post : List Slot} (h : s.buffer.Open)
    (hcode : s.buffer.code.toList = before ++ i :: behind)
    (htargets : i.targets = done ++ List.replicate targets.length 0)
    (hpending : s.buffer.pending = pre ++ ((List.range' done.length targets.length).map
      (fun (k : Nat) => (⟨before.length, k⟩ : Slot)) ++ post))
    (hbounds : ∀ t ∈ targets, before.length < t ∧ t ≤ s.buffer.next) :
    ∃ b, patchTargets before.length done.length targets s = .ok ((), ⟨b, s.lastId⟩) ∧ b.Open ∧
      b.code.toList = before ++ { i with targets := done ++ targets.map UInt32.ofNat } :: behind ∧
      b.pending = pre ++ post ∧ b.fielded = s.buffer.fielded := by
  induction targets generalizing s i done with
  | nil =>
    refine ⟨s.buffer, rfl, h, ?_, by simpa using hpending, rfl⟩
    rw [hcode]
    simp only [List.length_nil, List.replicate_zero, List.append_nil] at htargets
    simp [← htargets]
  | cons t targets ih =>
    rw [List.forall_mem_cons] at hbounds
    simp only [List.length_cons, List.range'_succ, List.map_cons, List.cons_append] at hpending
    obtain ⟨b, hpatch, hopen, hcode', hpending', hfielded⟩ :=
      Buffer.patch_ok h hpending hbounds.1.1 hbounds.1.2
    have hset : i.targets.set done.length (UInt32.ofNat t)
        = (done ++ [UInt32.ofNat t]) ++ List.replicate targets.length 0 := by
      rw [htargets, List.length_cons, List.replicate_succ, List.set_append_right _ _ (by simp)]
      simp
    rw [hcode, modify_middle] at hcode'
    have hnext : b.next = s.buffer.next := by
      have hlen := congrArg List.length hcode'
      have hlen' := congrArg List.length hcode
      simp [Buffer.next] at hlen hlen' ⊢
      omega
    obtain ⟨b', hrest, hopen', hcode'', hpending'', hfielded'⟩ :=
      @ih ⟨b, s.lastId⟩ _ (done ++ [UInt32.ofNat t]) hopen hcode' hset
        (by simpa using hpending') (by simpa [hnext] using hbounds.2)
    refine ⟨b', ?_, hopen', by simpa using hcode'', hpending'', hfielded'.trans hfielded⟩
    rw [patchTargets, run_bind_ok (onBuffer_ok hpatch)]
    simpa using hrest

/-- Patching the jumps at the ends of alternatives in order. -/
theorem patchJumps_ok {s : State} {before : Code} {alts : List (Nat × Outline)} {join : Nat}
    {pre : List Slot} (h : s.buffer.Open) (hjoin : s.buffer.next = join)
    (hcode : s.buffer.code.toList = before ++ layoutAlternatives 0 before.length alts)
    (hpending : s.buffer.pending = pre ++ ((records before.length alts).filterMap (·.exit)).map
      (fun (pc : Nat) => (⟨pc, 0⟩ : Slot))) :
    ∃ b, patchJumps join ((records before.length alts).filterMap (·.exit)) s
        = .ok ((), ⟨b, s.lastId⟩) ∧ b.Open ∧
      b.code.toList = before ++ layoutAlternatives join before.length alts ∧
      b.pending = pre ∧ b.fielded = s.buffer.fielded := by
  induction alts generalizing s before with
  | nil => exact ⟨s.buffer, rfl, h, hcode, by simpa [records] using hpending, rfl⟩
  | cons alt rest ih =>
    obtain ⟨fields, o⟩ := alt
    cases rest with
    | nil => exact ⟨s.buffer, rfl, h, by simpa [layoutAlternatives, jumps] using hcode,
        by simpa [records] using hpending, rfl⟩
    | cons alt' rest =>
      -- the code up to the jump that ends the first alternative
      let upTo := before ++ o.layout before.length
      have hupTo : upTo.length = before.length + o.size := by simp [upTo]
      have hrecords : (records before.length ((fields, o) :: alt' :: rest)).filterMap (·.exit)
          = upTo.length :: (records (upTo.length + 1) (alt' :: rest)).filterMap (·.exit) := by
        rw [hupTo]
        rfl
      have hlayout : ∀ join, before ++ layoutAlternatives join before.length
          ((fields, o) :: alt' :: rest) = upTo ++ jumpTo join
            :: layoutAlternatives join (upTo.length + 1) (alt' :: rest) := by
        intro join
        rw [hupTo]
        simp [upTo, layoutAlternatives, jumps]
      rw [hrecords] at hpending ⊢
      rw [hlayout] at hcode
      have hlt : upTo.length < s.buffer.next := by
        have hlen := congrArg List.length hcode
        simp [Buffer.next] at hlen ⊢
        omega
      obtain ⟨b, hpatch, hopen, hcode', hpending', hfielded⟩ :=
        @Buffer.patch_ok s.buffer h upTo.length 0 join _ _ hpending (hjoin ▸ hlt)
          (Nat.le_of_eq hjoin.symm)
      rw [hcode, modify_middle] at hcode'
      have hjump : { jumpTo 0 with targets := (jumpTo 0).targets.set 0 (UInt32.ofNat join) }
          = jumpTo join := rfl
      rw [hjump] at hcode'
      have hnext : b.next = join := by
        have hlen := congrArg List.length hcode'
        have hlen' := congrArg List.length hcode
        simp [Buffer.next] at hlen hlen' hjoin ⊢
        omega
      have hlast : (upTo ++ [jumpTo join]).length = upTo.length + 1 := by simp
      obtain ⟨b', hrest, hopen', hcode'', hpending'', hfielded'⟩ :=
        @ih ⟨b, s.lastId⟩ (upTo ++ [jumpTo join]) hopen hnext
          (by rw [hlast]; simpa using hcode') (by rw [hlast]; exact hpending')
      rw [hlast] at hrest hcode''
      refine ⟨b', ?_, hopen', ?_, hpending'', hfielded'.trans hfielded⟩
      · rw [patchJumps, run_bind_ok (onBuffer_ok hpatch)]
        exact hrest
      · rw [hlayout, hcode'']
        simp

/-- Alternatives begin inside their own code. -/
theorem entry_le_of_mem_records {start : Nat} {alts : List (Nat × Outline)} {a : Alternative}
    (h : a ∈ records start alts) : start ≤ a.entry ∧ a.entry ≤ start + sizeOfAlternatives alts := by
  induction alts generalizing start with
  | nil => exact absurd h List.not_mem_nil
  | cons alt rest ih =>
    rcases List.mem_cons.mp h with rfl | h
    · exact ⟨Nat.le_refl _, Nat.le_add_right _ _⟩
    · have := ih h
      simp only [sizeOfAlternatives]
      omega

/-- The placeholders of the jumps at the ends of alternatives. -/
def exitSlots (start : Nat) (alts : List (Nat × Outline)) : List Slot :=
  ((records start alts).filterMap (·.exit)).map fun (pc : Nat) => (⟨pc, 0⟩ : Slot)

/-- Patching the targets of a dispatch, if it has any, fills it in. -/
theorem fillTargets_ok {s : State} {before behind : Code} {head : CaseHead}
    {rs : List Alternative} {pre post : List Slot} (h : s.buffer.Open)
    (hlen : rs.length = head.alternatives.toNat)
    (hcode : s.buffer.code.toList = before
      ++ { head.instr with fields := rs.map fun a => UInt32.ofNat a.fields } :: behind)
    (hpending : s.buffer.pending = pre ++ (Buffer.placeholders before.length head.instr ++ post))
    (hbounds : ∀ a ∈ rs, before.length < a.entry ∧ a.entry ≤ s.buffer.next) :
    ∃ b, (if head.instr.op.branches then patchTargets before.length 0 (rs.map (·.entry))
        else pure () : Gen Unit) s = .ok ((), ⟨b, s.lastId⟩) ∧ b.Open ∧
      b.code.toList = before ++ filled head.instr rs :: behind ∧
      b.pending = pre ++ post ∧ b.fielded = s.buffer.fielded := by
  by_cases hbr : head.instr.op.branches = true
  · have htargets : head.instr.targets = [] ++ List.replicate (rs.map (·.entry)).length 0 := by
      rw [head.targets_instr, if_pos hbr]
      simp [hlen]
    have hslots : Buffer.placeholders before.length head.instr
        = (List.range' 0 (rs.map (·.entry)).length).map
          fun (k : Nat) => (⟨before.length, k⟩ : Slot) := by
      rw [Buffer.placeholders, if_pos hbr, htargets, List.range_eq_range']
      simp
    rw [hslots] at hpending
    have hbounds' : ∀ t ∈ rs.map (·.entry), before.length < t ∧ t ≤ s.buffer.next := by
      intro t ht
      obtain ⟨a, ha, rfl⟩ := List.mem_map.mp ht
      exact hbounds a ha
    obtain ⟨b, hpatch, hopen, hcode', hpending', hfielded⟩ :=
      @patchTargets_ok s before behind _ [] (rs.map (·.entry)) pre post h hcode htargets
        hpending hbounds'
    refine ⟨b, by rw [if_pos hbr]; exact hpatch, hopen, ?_, hpending', hfielded⟩
    rw [hcode']
    simp [filled, hbr]
  · have htargets : head.instr.targets = [] := by rw [head.targets_instr, if_neg hbr]
    have hslots : Buffer.placeholders before.length head.instr = [] := by
      rw [Buffer.placeholders, if_neg hbr]
    refine ⟨s.buffer, by rw [if_neg hbr]; rfl, h, ?_, by simpa [hslots] using hpending, rfl⟩
    rw [hcode]
    simp [filled, hbr]

/-- Completing a dispatch behind its alternatives leaves the layout of the dispatch. -/
theorem completeDispatch_grows {b b' : Buffer} {head : CaseHead} {alts : List (Nat × Outline)}
    (id : Nat)
    (hg : b.Grows (head.instr :: layoutAlternatives 0 (b.next + 1) alts)
      (Buffer.placeholders b.next head.instr ++ exitSlots (b.next + 1) alts) b')
    (hfresh : (b.next : Int) ∉ b'.fielded) (hlen : alts.length = head.alternatives.toNat) :
    ∃ b'', completeDispatch b.next head.instr (records (b.next + 1) alts) ⟨b', id⟩
        = .ok ((), ⟨b'', id⟩) ∧
      b.Grows ((Outline.dispatch head alts).layout b.next) [] b'' := by
  have hpos : b.code.toList.length = b.next := by simp [Buffer.next]
  have hsize : b'.next = b.next + 1 + sizeOfAlternatives alts := by
    have hlayout := @length_layoutAlternatives 0 (b.next + 1) alts
      fun a _ start => a.2.length_layout start
    rw [hg.next_eq, List.length_cons, hlayout]
    omega
  -- field counts
  obtain ⟨b₁, hset, hopen₁, hcode₁, hpending₁, hfielded₁⟩ := @Buffer.setFields_ok b' hg.isOpen
    b.code.toList _ _ ((records (b.next + 1) alts).map fun a => UInt32.ofNat a.fields)
    hg.code_eq (by rw [hpos]; exact hfresh) (by simp [hlen, head.length_fields_instr])
  rw [hpos] at hset
  have hnext₁ : b₁.next = b'.next := by
    have hlen₁ := congrArg List.length hcode₁
    have hlen' := congrArg List.length hg.code_eq
    simp [Buffer.next] at hlen₁ hlen' ⊢
    omega
  -- targets
  obtain ⟨b₂, hfill, hopen₂, hcode₂, hpending₂, hfielded₂⟩ := @fillTargets_ok ⟨b₁, id⟩
    b.code.toList _ head (records (b.next + 1) alts) b.pending (exitSlots (b.next + 1) alts) hopen₁
    (by simp [hlen]) hcode₁ (by rw [hpos]; exact hpending₁.trans hg.pending_eq)
    (fun a ha => by
      have := entry_le_of_mem_records ha
      show b.code.toList.length < a.entry ∧ a.entry ≤ b₁.next
      omega)
  rw [hpos] at hfill
  have hnext₂ : b₂.next = b'.next := by
    have hlen₂ := congrArg List.length hcode₂
    have hlen' := congrArg List.length hg.code_eq
    simp [Buffer.next] at hlen₂ hlen' ⊢
    omega
  -- jumps to the join point
  have hbefore : (b.code.toList ++ [filled head.instr (records (b.next + 1) alts)]).length
      = b.next + 1 := by simp [Buffer.next]
  obtain ⟨b₃, hjumps, hopen₃, hcode₃, hpending₃, hfielded₃⟩ := @patchJumps_ok ⟨b₂, id⟩
    (b.code.toList ++ [filled head.instr (records (b.next + 1) alts)]) alts b₂.next b.pending
    hopen₂ rfl (by rw [hbefore]; simpa using hcode₂) (by rw [hbefore]; exact hpending₂)
  rw [hbefore] at hjumps hcode₃
  refine ⟨b₃, ?_, hopen₃, ?_, by simpa using hpending₃, ?_⟩
  · rw [completeDispatch, run_bind_ok (onBuffer_ok hset)]
    by_cases hbr : head.instr.op.branches = true
    · rw [if_pos hbr] at hfill ⊢
      rw [run_bind_ok hfill]
      exact hjumps
    · rw [if_neg hbr] at hfill ⊢
      cases hfill
      exact hjumps
  · rw [hcode₃, hnext₂, hsize]
    simp [layout]
  · intro pc hpc
    rw [hfielded₃, hfielded₂, hfielded₁, hpos] at hpc
    rcases List.mem_cons.mp hpc with rfl | hpc
    · exact Or.inr (Int.le_refl _)
    · exact hg.fielded_new pc hpc

/-- A dispatch is not completed with another number of alternatives than it has. -/
theorem completeDispatch_error {b b' : Buffer} {head : CaseHead} {alts : List (Nat × Outline)}
    {raw : Code} {slots : List Slot} (id : Nat) (hg : b.Grows (head.instr :: raw) slots b')
    (hfresh : (b.next : Int) ∉ b'.fielded) (hlen : alts.length ≠ head.alternatives.toNat) :
    ∃ m, completeDispatch b.next head.instr (records (b.next + 1) alts) ⟨b', id⟩
      = .error (.misuse m) := by
  have hat : b'.at? b.next = some head.instr := by
    have hget : b'.code[b.next]? = some head.instr := by
      rw [← Array.getElem?_toList, hg.code_eq]
      simp [Buffer.next]
    simp [Buffer.at?, hget]
  have hset : b'.setFields b.next ((records (b.next + 1) alts).map fun a => UInt32.ofNat a.fields)
      = .error (.fieldCount b.next head.instr.fields.length alts.length) := by
    rw [Buffer.setFields, if_neg hfresh, hat]
    simp [head.length_fields_instr, hlen]
  exact ⟨_, by rw [completeDispatch, run_bind_error (onBuffer_error hset)]⟩

end Codegen

end TermVM
