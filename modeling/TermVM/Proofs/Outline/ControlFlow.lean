/-
  TermVM.Proofs.Outline.ControlFlow

  Where control goes in generated code.

  Generated code has one return, its last instruction.  A dispatch falls into
  its first alternative, the others follow in order, each behind the jump that
  ends the one before it, and all these jumps meet behind the last alternative.
  So control only ever goes forward: `control_of_compileProcedure`.

  The invariant is `Orderly`, a property of one instruction in the code around
  it.  An outline that is formed has it at all its positions wherever it is
  laid out, by induction on its structure.
-/
import Mathlib.Data.List.Chain
import Mathlib.Data.List.Perm.Subperm
import TermVM.Proofs.Balance.Layout
import TermVM.Proofs.Outline.Shape

namespace TermVM

open Codegen Verify

/-! ## Control -/

namespace Instr

/-- The positions that the targets of an instruction name. -/
def positions (i : Instr) : List Nat :=
  i.targets.map UInt32.toNat

/-- The positions that control can go to from an instruction that stands at `pc`. -/
def successors (pc : Nat) (i : Instr) : List Nat :=
  match i.op with
  | .named .goto | .named .cases2 | .named .casesN | .named .natCases | .named .builtinCases =>
      i.positions
  | .named .ret | .named .unreachable | .undefined .. => []
  | _ => [pc + 1]

theorem successors_of_sequential {i : Instr} (pc : Nat) (h : sequential i.op = true) :
    i.successors pc = if i.op = .named .unreachable then [] else [pc + 1] := by
  unfold sequential at h
  split at h
  case h_14 => cases h
  all_goals
    rename_i hop
    simp [successors, hop]

theorem successors_of_dispatches {i : Instr} (pc : Nat) (h : dispatches i.op = true) :
    i.successors pc = i.positions := by
  unfold dispatches at h
  split at h
  case h_5 => cases h
  all_goals
    rename_i hop
    simp [successors, hop]

end Instr

namespace Control

/-- Control can go from one position of code to another. -/
def Goes (code : Code) (pc next : Nat) : Prop :=
  ∃ i, code[pc]? = some i ∧ next ∈ i.successors pc

/-- Control ends at the last instruction, or at a trap. -/
def Halts (code : Code) (pc : Nat) : Prop :=
  pc + 1 = code.length ∨ ∃ i, code[pc]? = some i ∧ i.op = .named .unreachable

/-- A dispatch has a field count for each target.  The first target is the next position; in front
    of every other one stands a jump, and all these jumps go to one position behind all targets. -/
structure Fans (code : Code) (pc : Nat) (i : Instr) : Prop where
  length_fields : i.fields.length = i.targets.length
  first : i.positions.head? = some (pc + 1)
  increasing : i.positions.Pairwise (· < ·)
  inside : ∀ t ∈ i.positions, t < code.length
  joined : ∃ join < code.length, (∀ t ∈ i.positions, t < join) ∧
    ∀ t ∈ i.positions.tail, ∃ j, code[t - 1]? = some j ∧ j.op = .named .goto ∧
      j.positions = [join]

/-- What an instruction in front of the return does: it goes on to the next one or traps, it jumps
    ahead, or it branches to its alternatives. -/
inductive Orderly (code : Code) (pc : Nat) (i : Instr) : Prop where
  | straight (h : sequential i.op = true ∨ i.op = .named .destruct)
  | jump (hop : i.op = .named .goto) (h : ∃ t, i.positions = [t] ∧ pc < t ∧ t < code.length)
  | fan (hop : dispatches i.op = true) (h : Fans code pc i)

namespace Orderly

variable {code : Code} {pc : Nat} {i : Instr}

theorem op_ne_ret (h : Orderly code pc i) : i.op ≠ .named .ret := by
  intro hret
  cases h with
  | straight hop =>
    rw [hret] at hop
    rcases hop with hop | hop <;> cases hop
  | jump hop _ =>
    rw [hret] at hop
    cases hop
  | fan hop _ =>
    rw [hret] at hop
    cases hop

theorem target (h : Orderly code pc i) (hgoto : i.op = .named .goto) :
    ∃ t, i.positions = [t] ∧ pc < t ∧ t < code.length := by
  cases h with
  | straight hop =>
    rw [hgoto] at hop
    rcases hop with hop | hop <;> cases hop
  | jump _ htarget => exact htarget
  | fan hop _ =>
    rw [hgoto] at hop
    cases hop

theorem fans (h : Orderly code pc i) (hdispatches : dispatches i.op = true) : Fans code pc i := by
  have hnot : ¬(sequential i.op = true ∨ i.op = .named .destruct ∨ i.op = .named .goto) := by
    unfold dispatches at hdispatches
    split at hdispatches
    case h_5 => cases hdispatches
    all_goals
      rename_i hop
      rw [hop]
      decide
  cases h with
  | straight hop => exact absurd (hop.imp_right .inl) hnot
  | jump hop _ => exact absurd (.inr (.inr hop)) hnot
  | fan _ hfan => exact hfan

end Orderly

/-- All instructions from `start` up to `stop` are orderly. -/
def OrderlyOn (code : Code) (start stop : Nat) : Prop :=
  ∀ pc i, start ≤ pc → pc < stop → code[pc]? = some i → Orderly code pc i

section

variable {code : Code} {start middle stop : Nat}

theorem OrderlyOn.append (h₁ : OrderlyOn code start middle) (h₂ : OrderlyOn code middle stop) :
    OrderlyOn code start stop := by
  intro pc i hstart hstop hi
  rcases Nat.lt_or_ge pc middle with hpc | hpc
  · exact h₁ pc i hstart hpc hi
  · exact h₂ pc i hpc hstop hi

theorem orderlyOn_of_le (h : stop ≤ start) : OrderlyOn code start stop := by
  intro pc i hstart hstop
  omega

theorem orderlyOn_single {i : Instr} (hi : code[start]? = some i) (h : Orderly code start i) :
    OrderlyOn code start (start + 1) := by
  intro pc j hstart hstop hj
  obtain rfl : pc = start := by omega
  obtain rfl : i = j := Option.some.inj (hi.symm.trans hj)
  exact h

end

end Control

/-! ## Alternatives -/

namespace Outline

open Control

/-- Where alternatives laid out from a position begin. -/
def entries (start : Nat) (alts : List (Nat × Outline)) : List Nat :=
  (records start alts).map Alternative.entry

theorem entries_cons (start : Nat) (a : Nat × Outline) (rest : List (Nat × Outline)) :
    entries start (a :: rest) = start :: entries (start + a.2.size + jumps rest) rest :=
  rfl

section

variable {code : Code} {start join : Nat} {alts : List (Nat × Outline)}

theorem mem_entries (hsize : ∀ a ∈ alts, 0 < a.2.size) {e : Nat} (he : e ∈ entries start alts) :
    start ≤ e ∧ e < start + sizeOfAlternatives alts := by
  induction alts generalizing start with
  | nil => cases he
  | cons a rest ih =>
    rw [List.forall_mem_cons] at hsize
    rw [entries_cons] at he
    simp only [sizeOfAlternatives]
    rcases List.mem_cons.mp he with rfl | he
    · omega
    · have hrest := ih hsize.2 he
      omega

theorem pairwise_entries (hsize : ∀ a ∈ alts, 0 < a.2.size) :
    (entries start alts).Pairwise (· < ·) := by
  induction alts generalizing start with
  | nil => exact List.Pairwise.nil
  | cons a rest ih =>
    rw [List.forall_mem_cons] at hsize
    rw [entries_cons]
    refine List.Pairwise.cons (fun e he => ?_) (ih hsize.2)
    have hrest := mem_entries hsize.2 he
    omega

/-- In front of every alternative but the first stands the jump that ends the one before it. -/
theorem jump_of_mem_tail (hcode : Embeds code start (layoutAlternatives join start alts)) {e : Nat}
    (he : e ∈ (entries start alts).tail) : code[e - 1]? = some (jumpTo join) := by
  induction alts generalizing start with
  | nil => cases he
  | cons a rest ih =>
    rw [layoutAlternatives, embeds_append, embeds_append, length_layout,
      List.length_replicate] at hcode
    obtain ⟨-, hjump, hrest⟩ := hcode
    rw [entries_cons, List.tail_cons] at he
    cases rest with
    | nil => cases he
    | cons b bs =>
      rcases List.mem_cons.mp he with rfl | he
      · have hpos : start + a.2.size + jumps (b :: bs) - 1 = start + a.2.size := rfl
        rw [hpos]
        exact hjump 0 _ rfl
      · exact ih hrest he

theorem positions_jumpTo (h : join < 2 ^ 32) : (jumpTo join).positions = [join] := by
  have hword : (UInt32.ofNat join).toNat = join := UInt32.toNat_ofNat_of_lt' h
  simp [Instr.positions, jumpTo, hword]

theorem positions_filled {head : CaseHead} (hop : dispatches head.instr.op = true)
    (h : ∀ e ∈ entries start alts, e < 2 ^ 32) :
    (filled head.instr (records start alts)).positions = entries start alts := by
  have hbranches := branches_of_dispatches hop
  simp only [Instr.positions, filled, hbranches, if_true, List.map_map, entries]
  refine List.map_congr_left fun r hr => ?_
  exact UInt32.toNat_ofNat_of_lt' (h r.entry (List.mem_map_of_mem hr))

/-- A dispatch, its targets filled in and its alternatives laid out behind it. -/
theorem fans_filled {head : CaseHead} (hop : dispatches head.instr.op = true) (hne : alts ≠ [])
    (hsize : ∀ a ∈ alts, 0 < a.2.size) (hjoin : start + 1 + sizeOfAlternatives alts = join)
    (hcode : Embeds code (start + 1) (layoutAlternatives join (start + 1) alts))
    (hlt : join < code.length) (hle : code.length ≤ 2 ^ 32) :
    Fans code start (filled head.instr (records (start + 1) alts)) := by
  have hbranches := branches_of_dispatches hop
  have hbelow : ∀ e ∈ entries (start + 1) alts, e < join := by
    intro e he
    have hmem := mem_entries hsize he
    omega
  have hpositions := positions_filled hop fun e he => show e < 2 ^ 32 by
    have hmem := hbelow e he
    omega
  refine ⟨by simp [filled, hbranches], ?_, ?_, ?_, join, hlt, ?_, ?_⟩ <;> rw [hpositions]
  · obtain ⟨a, rest, rfl⟩ := List.exists_cons_of_ne_nil hne
    rfl
  · exact pairwise_entries hsize
  · intro e he
    have hmem := hbelow e he
    omega
  · exact hbelow
  · intro e he
    exact ⟨_, jump_of_mem_tail hcode he, rfl, positions_jumpTo (by omega)⟩

theorem orderly_alternatives
    (h : ∀ a ∈ alts, ∀ start, Embeds code start (a.2.layout start) →
      start + a.2.size < code.length → OrderlyOn code start (start + a.2.size))
    (hcode : Embeds code start (layoutAlternatives join start alts))
    (hjoin : start + sizeOfAlternatives alts = join) (hlt : join < code.length)
    (hle : code.length ≤ 2 ^ 32) : OrderlyOn code start join := by
  induction alts generalizing start with
  | nil => exact orderlyOn_of_le (by simp only [sizeOfAlternatives] at hjoin; omega)
  | cons a rest ih =>
    rw [List.forall_mem_cons] at h
    rw [layoutAlternatives, embeds_append, embeds_append, length_layout,
      List.length_replicate] at hcode
    obtain ⟨hfirst, hjump, hrest⟩ := hcode
    simp only [sizeOfAlternatives] at hjoin
    have horderly : OrderlyOn code start (start + a.2.size) := h.1 start hfirst (by omega)
    refine horderly.append ?_
    cases rest with
    | nil =>
      simp only [jumps, sizeOfAlternatives, List.isEmpty_nil, if_true] at hjoin
      exact orderlyOn_of_le (by omega)
    | cons b bs =>
      -- the jump at the end goes to the join, over all alternatives that follow
      have hone : jumps (b :: bs) = 1 := rfl
      have hahead : start + a.2.size < join := by omega
      have htarget : (jumpTo join).positions = [join] := positions_jumpTo (by omega)
      refine (orderlyOn_single (hjump 0 _ rfl) (.jump rfl ⟨join, htarget, hahead, hlt⟩)).append ?_
      exact ih h.2 hrest (by omega)

/-- An outline that is formed is orderly wherever it is laid out in front of something. -/
theorem Formed.orderly {o : Outline} (h : o.Formed)
    (hcode : Embeds code start (o.layout start)) (hlt : start + o.size < code.length)
    (hle : code.length ≤ 2 ^ 32) : OrderlyOn code start (start + o.size) := by
  induction h generalizing start with
  | nil => exact orderlyOn_of_le (Nat.le_refl _)
  | op h => exact orderlyOn_single (hcode 0 _ rfl) (.straight (.inl h))
  | @seq first second h₁ h₂ ih₁ ih₂ =>
    rw [layout, embeds_append, length_layout] at hcode
    simp only [size] at hlt ⊢
    rw [← Nat.add_assoc] at hlt ⊢
    exact (ih₁ hcode.1 (by omega)).append (ih₂ hcode.2 hlt)
  | @dispatch head alts hlen hne hsize h ih =>
    obtain ⟨hi, hrest⟩ := embeds_cons.mp hcode
    simp only [size] at hlt ⊢
    rw [← Nat.add_assoc] at hlt ⊢
    have halts : OrderlyOn code (start + 1) (start + 1 + sizeOfAlternatives alts) :=
      orderly_alternatives (fun a ha start hcode hlt => ih a ha hcode hlt) hrest rfl hlt hle
    refine (orderlyOn_single hi ?_).append halts
    rcases op_instr head with ⟨hop, -⟩ | hop
    · exact .straight (.inr hop)
    · exact .fan hop (fans_filled hop hne hsize rfl hrest hlt hle)

end

end Outline

/-! ## Paths -/

namespace Control

/-- The last instruction is a return, and what stands in front of it is orderly. -/
structure Finished (code : Code) : Prop where
  last : code.getLast? = some .ret
  orderly : OrderlyOn code 0 (code.length - 1)

namespace Finished

variable {code : Code}

theorem ret_of_length (h : Finished code) {pc : Nat} (hpc : pc + 1 = code.length) :
    code[pc]? = some .ret := by
  rw [← h.last, List.getLast?_eq_getElem?, ← hpc]
  rfl

/-- A step goes ahead and stays inside the code. -/
theorem goes (h : Finished code) {pc next : Nat} (hgoes : Goes code pc next) :
    pc < next ∧ next < code.length := by
  obtain ⟨i, hi, hnext⟩ := hgoes
  have hpc : pc < code.length := (List.getElem?_eq_some_iff.mp hi).1
  rcases Nat.lt_or_ge pc (code.length - 1) with hfront | hlast
  · cases h.orderly pc i (Nat.zero_le pc) hfront hi with
    | straight hop =>
      obtain rfl : next = pc + 1 := by
        rcases hop with hop | hop
        · rw [Instr.successors_of_sequential pc hop] at hnext
          split at hnext
          · cases hnext
          · exact List.mem_singleton.mp hnext
        · simpa [Instr.successors, hop] using hnext
      omega
    | jump hop htarget =>
      obtain ⟨t, htarget, hahead, hinside⟩ := htarget
      obtain rfl : next = t := by simpa [Instr.successors, hop, htarget] using hnext
      exact ⟨hahead, hinside⟩
    | fan hop hfan =>
      rw [Instr.successors_of_dispatches pc hop] at hnext
      refine ⟨?_, hfan.inside next hnext⟩
      -- the first position is the next one, and all others are behind it
      obtain ⟨first, rest, hcons⟩ := List.exists_cons_of_ne_nil (List.ne_nil_of_mem hnext)
      have hfirst := hfan.first
      have hincreasing := hfan.increasing
      rw [hcons] at hnext hfirst hincreasing
      obtain rfl : first = pc + 1 := Option.some.inj hfirst
      rcases List.mem_cons.mp hnext with rfl | hnext
      · omega
      · have hbehind := List.rel_of_pairwise_cons hincreasing hnext
        omega
  · rw [h.ret_of_length (by omega)] at hi
    cases hi
    cases hnext

/-- Control stops at the return and at traps, and nowhere else. -/
theorem stops_iff (h : Finished code) {pc : Nat} (hpc : pc < code.length) :
    (∀ next, ¬Goes code pc next) ↔ Halts code pc := by
  obtain ⟨i, hi⟩ : ∃ i, code[pc]? = some i := ⟨_, List.getElem?_eq_getElem hpc⟩
  constructor
  · intro hstops
    have hnone : ∀ next, next ∉ i.successors pc := fun next hnext => hstops next ⟨i, hi, hnext⟩
    rcases Nat.lt_or_ge pc (code.length - 1) with hfront | hlast
    · refine .inr ⟨i, hi, ?_⟩
      by_contra htrap
      -- every instruction in front of the return that is no trap sends control somewhere
      cases h.orderly pc i (Nat.zero_le pc) hfront hi with
      | straight hop =>
        refine hnone (pc + 1) ?_
        rcases hop with hop | hop
        · rw [Instr.successors_of_sequential pc hop, if_neg htrap]
          exact List.mem_singleton_self _
        · simp [Instr.successors, hop]
      | jump hop htarget =>
        obtain ⟨t, htarget, -⟩ := htarget
        exact hnone t (by simp [Instr.successors, hop, htarget])
      | fan hop hfan =>
        refine hnone (pc + 1) ?_
        rw [Instr.successors_of_dispatches pc hop]
        exact List.mem_of_head? hfan.first
    · exact .inl (by omega)
  · rintro hends next ⟨j, hj, hnext⟩
    rcases hends with hlast | ⟨k, hk, htrap⟩
    · rw [h.ret_of_length hlast] at hj
      cases hj
      cases hnext
    · obtain rfl : j = k := Option.some.inj (hj.symm.trans hk)
      simp [Instr.successors, htrap] at hnext

/-- A path stays inside the code. -/
theorem lt_length_of_path (h : Finished code) {path : List Nat} (hhead : path.head? = some 0)
    (hpath : path.IsChain (Goes code)) : ∀ pc ∈ path, pc < code.length := by
  have hpos : 0 < code.length := by
    rcases code with - | ⟨i, is⟩
    · exact absurd h.last (by decide)
    · exact Nat.succ_pos _
  have hinside : ∀ start rest, start < code.length → (start :: rest).IsChain (Goes code) →
      ∀ pc ∈ start :: rest, pc < code.length := by
    intro start rest
    induction rest generalizing start with
    | nil =>
      intro hstart _ pc hpc
      rwa [List.mem_singleton.mp hpc]
    | cons next rest ih =>
      intro hstart hchain
      rw [List.isChain_cons_cons] at hchain
      refine List.forall_mem_cons.mpr ⟨hstart, ih next (h.goes hchain.1).2 hchain.2⟩
  cases path with
  | nil => cases hhead
  | cons start rest =>
    obtain rfl : start = 0 := Option.some.inj hhead
    exact hinside 0 rest hpos hpath

/-- Along a path the position increases, so that no position is met twice. -/
theorem increasing_of_path (h : Finished code) {path : List Nat}
    (hpath : path.IsChain (Goes code)) : path.Pairwise (· < ·) :=
  List.isChain_iff_pairwise.mp (hpath.imp fun _ _ hgoes => (h.goes hgoes).1)

theorem length_le_of_path (h : Finished code) {path : List Nat} (hhead : path.head? = some 0)
    (hpath : path.IsChain (Goes code)) : path.length ≤ code.length := by
  have hnodup : path.Nodup := (h.increasing_of_path hpath).imp fun hlt => Nat.ne_of_lt hlt
  have hsubset : path ⊆ List.range code.length := by
    intro pc hpc
    exact List.mem_range.mpr (h.lt_length_of_path hhead hpath pc hpc)
  have hlength := (hnodup.subperm hsubset).length_le
  rwa [List.length_range] at hlength

end Finished

end Control

/-! ## Procedures -/

namespace Codegen

open Control

variable {g : Globals} {name : String} {t : Term} {p : Procedure}

theorem finished_of_compileProcedure (ht : t.nodes < 2 ^ 30)
    (hp : compileProcedure g name t = .ok p) : Finished p.code := by
  obtain ⟨d, hd, rfl⟩ := compileProcedure_eq_ok_iff.mp hp
  obtain ⟨hformed, hsize⟩ := formed_body ht hd
  have hlength : (d.outline.layout 0 ++ [Instr.ret]).length = d.outline.size + 1 := by simp
  have horderly : OrderlyOn (d.outline.layout 0 ++ [.ret]) 0 (0 + d.outline.size) :=
    hformed.orderly (Outline.embeds_self _ _) (by omega) (by omega)
  refine ⟨by simp, ?_⟩
  show OrderlyOn (d.outline.layout 0 ++ [.ret]) 0 ((d.outline.layout 0 ++ [Instr.ret]).length - 1)
  rw [hlength, Nat.add_sub_cancel, ← Nat.zero_add d.outline.size]
  exact horderly

/-- Control in generated code.  The last instruction is the only return.  A dispatch falls into its
    first alternative, its targets increase, and the jumps in front of the others all go to one
    position behind them.  A jump has one target, which lies ahead.  So every path from the entry
    goes forward, and where it cannot go on it has got to the return or to a trap. -/
theorem control_of_compileProcedure (ht : t.nodes < 2 ^ 30)
    (hp : compileProcedure g name t = .ok p) :
    (∃ body, p.code = body ++ [.ret] ∧ ∀ i ∈ body, i.op ≠ .named .ret) ∧
      (∀ pc i, p.code[pc]? = some i → dispatches i.op = true → Fans p.code pc i) ∧
      (∀ pc i, p.code[pc]? = some i → i.op = .named .goto →
        ∃ target, i.positions = [target] ∧ pc < target ∧ target < p.code.length) ∧
      ∀ path : List Nat, path.head? = some 0 → path.IsChain (Goes p.code) →
        path.Pairwise (· < ·) ∧ path.length ≤ p.code.length ∧
          ∀ last ∈ path.getLast?, (∀ next, ¬Goes p.code last next) ↔ Halts p.code last := by
  have hfinished := finished_of_compileProcedure ht hp
  obtain ⟨body, hbody⟩ := List.getLast?_eq_some_iff.mp hfinished.last
  -- only the last instruction is not covered by the invariant, and it is the return
  have horderly : ∀ pc i, p.code[pc]? = some i → i.op ≠ .named .ret → Orderly p.code pc i := by
    intro pc i hi hop
    have hpc : pc < p.code.length := (List.getElem?_eq_some_iff.mp hi).1
    refine hfinished.orderly pc i (Nat.zero_le pc) ?_ hi
    by_contra hlast
    rw [hfinished.ret_of_length (by omega)] at hi
    exact hop (congrArg Instr.op (Option.some.inj hi)).symm
  refine ⟨⟨body, hbody, ?_⟩, ?_, ?_, ?_⟩
  · intro i hi
    obtain ⟨pc, hpc, rfl⟩ := List.mem_iff_getElem.mp hi
    have hat : p.code[pc]? = some body[pc] := by
      rw [hbody, List.getElem?_append_left hpc, List.getElem?_eq_getElem hpc]
    have hfront : pc < p.code.length - 1 := by
      rw [hbody, List.length_append, List.length_singleton]
      omega
    exact (hfinished.orderly pc _ (Nat.zero_le pc) hfront hat).op_ne_ret
  · intro pc i hi hop
    refine (horderly pc i hi fun hret => ?_).fans hop
    rw [hret] at hop
    cases hop
  · intro pc i hi hop
    refine (horderly pc i hi fun hret => ?_).target hop
    rw [hret] at hop
    cases hop
  · intro path hhead hpath
    refine ⟨hfinished.increasing_of_path hpath, hfinished.length_le_of_path hhead hpath, ?_⟩
    intro last hlast
    exact hfinished.stops_iff
      (hfinished.lt_length_of_path hhead hpath last (List.mem_of_getLast? hlast))

/-- Nested matches below a let come to 26 instructions, and no path through them is longer. -/
theorem control_tangle : ∃ p, compileProcedure ⟨arithmetic, none⟩ "tangle" tangle = .ok p ∧
    (∀ pc i, p.code[pc]? = some i → dispatches i.op = true → Fans p.code pc i) ∧
      ∀ path : List Nat, path.head? = some 0 → path.IsChain (Goes p.code) →
        path.Pairwise (· < ·) ∧ path.length ≤ 26 := by
  obtain ⟨p, hp, hlength⟩ := compile_tangle
  obtain ⟨-, hfans, -, hpaths⟩ := control_of_compileProcedure (by decide) hp
  refine ⟨p, hp, hfans, fun path hhead hpath => ?_⟩
  obtain ⟨hincreasing, hshort, -⟩ := hpaths path hhead hpath
  exact ⟨hincreasing, hlength ▸ hshort⟩

end Codegen

end TermVM
