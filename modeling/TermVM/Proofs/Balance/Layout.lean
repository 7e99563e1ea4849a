/-
  TermVM.Proofs.Balance.Layout

  Generated code passes verification.

  Marks assign a depth to every position.  When they put the arguments at the
  entry and every instruction passes its check at its mark and sends control
  only to positions marked with the depth it brings, then they hold everything
  that control can reach, so the code is disciplined.

  An outline that moves from one depth to another has such marks wherever it
  is laid out.  A part sees the marks of its surroundings only at the position
  behind it, or at the join of the dispatch it belongs to, so marks are put
  together as the code is.
-/
import TermVM.Proofs.Balance.Plan
import TermVM.Proofs.Outline.Emission
import TermVM.Proofs.Verify.Exactness

namespace TermVM

open Codegen Verify Outline

/-! ## Marks -/

namespace Verify

/-- An instruction has its operands and passes its check at its mark, and control goes only to
    positions marked with the depth it brings. -/
def Fits (table : DeclTable) (arity : UInt32) (size : Nat) (marks : List Int) (pc : Nat)
    (i : Instr) : Prop :=
  Furnished i ∧ ∃ d, marks[pc]? = some d ∧ Admits table arity size ⟨pc, d⟩ i ∧
    ∀ e ∈ exits table ⟨pc, d⟩ i, marks[e.pc]? = some e.depth

/-- Every instruction of a block that stands at a position fits the marks. -/
def BlockFits (table : DeclTable) (arity : UInt32) (size : Nat) (marks : List Int) :
    (start : Nat) → Code → Prop
  | _, [] => True
  | start, i :: is =>
      Fits table arity size marks start i ∧ BlockFits table arity size marks (start + 1) is

section

variable {table : DeclTable} {arity : UInt32} {size : Nat} {marks : List Int}

theorem blockFits_append {start : Nat} {is js : Code} :
    BlockFits table arity size marks start (is ++ js) ↔
      BlockFits table arity size marks start is ∧
        BlockFits table arity size marks (start + is.length) js := by
  induction is generalizing start with
  | nil => simp [BlockFits]
  | cons i is ih =>
    have hpos : start + 1 + is.length = start + (is.length + 1) := by omega
    simp only [List.cons_append, BlockFits, List.length_cons, ih, hpos, and_assoc]

theorem BlockFits.fits {start k : Nat} {is : Code} {i : Instr}
    (h : BlockFits table arity size marks start is) (hi : is[k]? = some i) :
    Fits table arity size marks (start + k) i := by
  induction is generalizing start k with
  | nil => simp at hi
  | cons j is ih =>
    cases k with
    | zero =>
      cases hi
      exact h.1
    | succ k =>
      have hpos : start + 1 + k = start + (k + 1) := by omega
      exact hpos ▸ ih h.2 hi

theorem BlockFits.furnished {start : Nat} {is : Code}
    (h : BlockFits table arity size marks start is) : ∀ i ∈ is, Furnished i := by
  intro i hi
  obtain ⟨k, hk⟩ := List.getElem?_of_mem hi
  exact (h.fits hk).1

end

/-- Code that fits marks is disciplined. -/
theorem disciplined_of_marks {table : DeclTable} {p : Procedure} {marks : List Int}
    (hlen : marks.length = p.code.length) (hentry : marks[0]? = some (p.arity.toNat : Int))
    (hfits : BlockFits table p.arity p.code.length marks 0 p.code) : Disciplined table p := by
  have hstep : ∀ e i, marks[e.pc]? = some e.depth → p.code[e.pc]? = some i →
      Admits table p.arity p.code.length e i ∧
        ∀ e' ∈ exits table e i, marks[e'.pc]? = some e'.depth := by
    intro e i hmark hi
    obtain ⟨-, d, hd, hadmits, hexits⟩ := hfits.fits hi
    rw [Nat.zero_add] at hd hadmits hexits
    obtain rfl : e.depth = d := by
      rw [hd] at hmark
      exact (Option.some.inj hmark).symm
    exact ⟨hadmits, hexits⟩
  have hreach : ∀ e, Reaches table p e → marks[e.pc]? = some e.depth := by
    intro e he
    induction he with
    | refl => exact hentry
    | tail _ hflow ih =>
      obtain ⟨i, hi, hexit⟩ := hflow
      exact (hstep _ i ih hi).2 _ hexit
  refine ⟨fun e he => ?_, fun pc d d' hd hd' => ?_⟩
  · have hlt : e.pc < p.code.length := by
      rw [← hlen]
      exact (List.getElem?_eq_some_iff.mp (hreach e he)).1
    exact ⟨p.code[e.pc], List.getElem?_eq_getElem hlt,
      (hstep e _ (hreach e he) (List.getElem?_eq_getElem hlt)).1⟩
  · exact Option.some.inj ((hreach _ hd).symm.trans (hreach _ hd'))

end Verify

/-! ## Marks of outlines -/

namespace Outline

/-- The element behind a part of a list. -/
theorem getElem?_behind {α : Type} (before behind : List α) :
    (before ++ behind)[before.length]? = behind.head? := by
  rw [List.getElem?_append_right (Nat.le_refl _), Nat.sub_self, List.head?_eq_getElem?]

/-- Marks that an outline fits wherever it is laid out, as long as the position behind it is
    marked with the depth it goes on at. -/
def Marked (table : DeclTable) (d : Nat) (o : Outline) (d' : Nat) (m : List Int) : Prop :=
  m.length = o.size ∧
    ∀ arity size (before behind : List Int), behind.head? = some (d' : Int) →
      before.length + o.size < size → size ≤ 2 ^ 32 →
      (m ++ behind).head? = some (d : Int) ∧
        BlockFits table arity size (before ++ (m ++ behind)) before.length (o.layout before.length)

section

variable {table : DeclTable}

theorem marked_nil (d : Nat) : Marked table d .nil d [] :=
  ⟨rfl, fun _ _ _ _ hbehind _ _ => ⟨hbehind, trivial⟩⟩

theorem marked_op {d d' : Nat} {i : Instr} (h : Straight table d i d') :
    Marked table d (.op i) d' [(d : Int)] := by
  refine ⟨rfl, fun arity size before behind hbehind _ _ =>
    ⟨rfl, ⟨furnished_of_sequential h.op_sequential, d, ?_, h.admits arity size _, ?_⟩, trivial⟩⟩
  · rw [getElem?_behind]
    rfl
  · intro e he
    rw [h.exits_eq before.length e he, ← List.append_assoc]
    have hpos : before.length + 1 = (before ++ [(d : Int)]).length := by simp
    rw [hpos, getElem?_behind, hbehind]

theorem Marked.seq {d d₁ d₂ : Nat} {first second : Outline} {m₁ m₂ : List Int}
    (h₁ : Marked table d first d₁ m₁) (h₂ : Marked table d₁ second d₂ m₂) :
    Marked table d (.seq first second) d₂ (m₁ ++ m₂) := by
  refine ⟨by simp [size, h₁.1, h₂.1], fun arity size before behind hbehind hlt hle => ?_⟩
  simp only [Outline.size] at hlt
  have hlen : (before ++ m₁).length = before.length + first.size := by simp [h₁.1]
  obtain ⟨hhead₂, hfits₂⟩ := h₂.2 arity size (before ++ m₁) behind hbehind (by omega) hle
  obtain ⟨hhead₁, hfits₁⟩ := h₁.2 arity size before (m₂ ++ behind) hhead₂ (by omega) hle
  rw [hlen, List.append_assoc] at hfits₂
  rw [List.append_assoc]
  refine ⟨hhead₁, blockFits_append.mpr ⟨hfits₁, ?_⟩⟩
  rw [length_layout]
  exact hfits₂

/-! ## Marks of a dispatch -/

/-- A jump passes its depth on to its target. -/
theorem fits_jumpTo {arity : UInt32} {size pc target : Nat} {marks : List Int} {d : Int}
    (hpc : marks[pc]? = some d) (htarget : marks[target]? = some d) (hlt : target < size)
    (hle : size ≤ 2 ^ 32) : Fits table arity size marks pc (jumpTo target) := by
  have hword : (UInt32.ofNat target).toNat = target :=
    UInt32.toNat_ofNat_of_lt' (show target < 2 ^ 32 by omega)
  refine ⟨⟨by simp [jumpTo], by simp [jumpTo, Instr.goto]⟩, d, hpc, ?_, ?_⟩
  · rintro t ⟨⟩
    rw [hword]
    exact hlt
  · intro e he
    obtain rfl : e = ⟨target, d⟩ := by simpa [exits, jumpTo, Instr.goto, hword] using he
    exact htarget

/-- Alternatives have marks at which each of them is entered with its fields, and from which all of
    them get to the join. -/
theorem exists_marks_alternatives {d : Nat} {alts : List (Nat × Outline)}
    (hfields : ∀ a ∈ alts, a.1 < 2 ^ 32)
    (h : ∀ a ∈ alts, ∃ m, Marked table (d + a.1) a.2 (d + 1) m) :
    ∃ m : List Int, m.length = sizeOfAlternatives alts ∧
      ∀ arity size (before behind : List Int), behind.head? = some ((d + 1 : Nat) : Int) →
        before.length + sizeOfAlternatives alts < size → size ≤ 2 ^ 32 →
        (∀ r ∈ records before.length alts, r.fields < 2 ^ 32 ∧ before.length ≤ r.entry ∧
          r.entry < size ∧
          (before ++ (m ++ behind))[r.entry]? = some ((d + r.fields : Nat) : Int)) ∧
        BlockFits table arity size (before ++ (m ++ behind)) before.length
          (layoutAlternatives (before.length + sizeOfAlternatives alts) before.length alts) := by
  induction alts with
  | nil => exact ⟨[], rfl, fun _ _ _ _ _ _ _ => ⟨by simp [records], trivial⟩⟩
  | cons a rest ih =>
    obtain ⟨fields, o⟩ := a
    rw [List.forall_mem_cons] at hfields h
    obtain ⟨m₁, hlen₁, hm₁⟩ : ∃ m, Marked table (d + fields) o (d + 1) m := h.1
    obtain ⟨m₂, hlen₂, hm₂⟩ := ih hfields.2 h.2
    refine ⟨m₁ ++ (List.replicate (jumps rest) ((d + 1 : Nat) : Int) ++ m₂), ?_, ?_⟩
    · simp only [List.length_append, List.length_replicate, sizeOfAlternatives, hlen₁, hlen₂]
      omega
    intro arity size before behind hbehind hlt hle
    simp only [sizeOfAlternatives] at hlt
    -- what stands behind the first alternative: a jump to the join, or the join itself
    have hnext : (List.replicate (jumps rest) ((d + 1 : Nat) : Int) ++ (m₂ ++ behind)).head?
        = some ((d + 1 : Nat) : Int) := by
      cases rest with
      | nil =>
        obtain rfl := List.length_eq_zero_iff.mp hlen₂
        exact hbehind
      | cons b bs => rfl
    obtain ⟨hhead, hfits₁⟩ := hm₁ arity size before _ hnext (by omega) hle
    have hlen : (before ++ m₁ ++ List.replicate (jumps rest) ((d + 1 : Nat) : Int)).length =
        before.length + o.size + jumps rest := by
      simp [hlen₁, Nat.add_assoc]
    obtain ⟨hrecords, hfits₂⟩ := hm₂ arity size
      (before ++ m₁ ++ List.replicate (jumps rest) ((d + 1 : Nat) : Int)) behind hbehind
      (by omega) hle
    have hjoin : before.length + o.size + jumps rest + sizeOfAlternatives rest =
        before.length + sizeOfAlternatives ((fields, o) :: rest) := by
      simp only [sizeOfAlternatives]
      omega
    rw [hlen, hjoin] at hfits₂
    rw [hlen] at hrecords
    have hentry : before.length < size := by omega
    have hmarkNext : (before ++ m₁ ++ (List.replicate (jumps rest) ((d + 1 : Nat) : Int)
        ++ (m₂ ++ behind)))[before.length + o.size]? = some ((d + 1 : Nat) : Int) := by
      rw [← hlen₁, ← List.length_append, getElem?_behind, hnext]
    have hmarkJoin : (before ++ m₁ ++ List.replicate (jumps rest) ((d + 1 : Nat) : Int) ++ m₂
        ++ behind)[before.length + o.size + jumps rest + sizeOfAlternatives rest]?
          = some ((d + 1 : Nat) : Int) := by
      rw [← hlen, ← hlen₂, ← List.length_append, getElem?_behind, hbehind]
    rw [hjoin] at hmarkJoin
    simp only [List.append_assoc] at hfits₂ hrecords hmarkNext hmarkJoin ⊢
    refine ⟨List.forall_mem_cons.mpr ⟨⟨hfields.1, Nat.le_refl _, hentry, ?_⟩, ?_⟩, ?_⟩
    · show (before ++ _)[before.length]? = _
      rw [getElem?_behind, hhead]
    · intro r hr
      obtain ⟨hr₁, hr₂, hr₃⟩ := hrecords r hr
      exact ⟨hr₁, by omega, hr₃⟩
    · refine blockFits_append.mpr ⟨hfits₁, blockFits_append.mpr ⟨?_, ?_⟩⟩
      · cases rest with
        | nil => trivial
        | cons b bs =>
          rw [length_layout]
          exact ⟨fits_jumpTo hmarkNext hmarkJoin (by omega) hle, trivial⟩
      · simpa [Nat.add_assoc] using hfits₂

/-- A dispatch destructures its only alternative, or branches to one of several. -/
theorem op_instr (head : CaseHead) :
    (head.instr.op = .named .destruct ∧ head.alternatives = 1) ∨
      dispatches head.instr.op = true := by
  cases head with
  | marked n =>
    by_cases hone : n = 1
    · exact Or.inl ⟨by simp [CaseHead.instr, hone, Instr.destruct], hone⟩
    · by_cases htwo : n = 2 <;>
        exact Or.inr (by simp [CaseHead.instr, hone, htwo, Instr.dispatch, dispatches])
  | natural => exact Or.inr rfl
  | native a => exact Or.inr rfl

theorem branches_of_dispatches {op : Opcode} (h : dispatches op = true) : op.branches = true := by
  unfold dispatches at h
  split at h <;> first | rfl | cases h

theorem furnished_of_dispatches {i : Instr} (h : dispatches i.op = true) : Furnished i := by
  constructor <;>
  · intro hop
    rw [hop] at h
    cases h

theorem admits_of_dispatches {arity : UInt32} {size : Nat} {e : Edge} {i : Instr}
    (h : dispatches i.op = true) (hdepth : 1 ≤ e.depth) (hlen : i.fields.length = i.targets.length)
    (htargets : ∀ t ∈ i.targets, e.pc < t.toNat ∧ t.toNat < size) :
    Admits table arity size e i := by
  unfold dispatches at h
  split at h
  case h_5 => cases h
  all_goals
    rename_i hop
    rw [Admits, hop]
    exact ⟨hdepth, hlen, htargets⟩

theorem exits_of_dispatches {e : Edge} {i : Instr} (h : dispatches i.op = true) :
    exits table e i =
      (i.targets.zip i.fields).map fun tf => ⟨tf.1.toNat, e.depth - 1 + tf.2.toNat⟩ := by
  have hgoto : i.op ≠ .named .goto := by
    intro hop
    rw [hop] at h
    cases h
  rw [exits, if_neg hgoto, h, if_pos rfl]

/-- A dispatch fits marks at which its alternatives are entered with their fields. -/
theorem fits_filled {arity : UInt32} {size pc d : Nat} {marks : List Int} {head : CaseHead}
    {recs : List Alternative} (hpc : marks[pc]? = some ((d + 1 : Nat) : Int))
    (hlen : recs.length = head.alternatives.toNat)
    (hrecs : ∀ r ∈ recs, r.fields < 2 ^ 32 ∧ pc + 1 ≤ r.entry ∧ r.entry < size ∧
      marks[r.entry]? = some ((d + r.fields : Nat) : Int))
    (hfirst : ∀ r ∈ recs.head?, r.entry = pc + 1) (hle : size ≤ 2 ^ 32) :
    Fits table arity size marks pc (filled head.instr recs) := by
  rcases op_instr head with ⟨hop, hone⟩ | hdisp
  · -- the only alternative is entered by falling through
    obtain ⟨r, rfl⟩ : ∃ r, recs = [r] := List.length_eq_one_iff.mp (by simp [hlen, hone])
    obtain ⟨hfields, -, -, hmark⟩ := hrecs r (List.mem_singleton_self r)
    have hentry := hfirst r rfl
    have hword : (UInt32.ofNat r.fields).toNat = r.fields := UInt32.toNat_ofNat_of_lt' hfields
    refine ⟨⟨by simp [filled, hop], by simp [filled]⟩, _, hpc, ?_, fun e he => ?_⟩
    · simp only [Admits, filled, hop]
      omega
    · obtain rfl : e = ⟨pc + 1, (d + 1 : Nat) + ((r.fields : Int) - 1)⟩ := by
        simpa [exits, change, filled, hop, dispatches, hword] using he
      rw [← hentry, hmark]
      congr 1
      simp only [Int.natCast_add]
      omega
  · have hbranches := branches_of_dispatches hdisp
    have hword : ∀ r ∈ recs, (UInt32.ofNat r.entry).toNat = r.entry ∧
        (UInt32.ofNat r.fields).toNat = r.fields := by
      intro r hr
      obtain ⟨hfields, -, hentry, -⟩ := hrecs r hr
      exact ⟨UInt32.toNat_ofNat_of_lt' (show r.entry < 2 ^ 32 by omega),
        UInt32.toNat_ofNat_of_lt' hfields⟩
    have hi : dispatches (filled head.instr recs).op = true := hdisp
    have hdepth : (1 : Int) ≤ (d + 1 : Nat) := by omega
    refine ⟨furnished_of_dispatches hi, _, hpc,
      admits_of_dispatches hi hdepth (by simp [filled, hbranches]) ?_, ?_⟩
    · intro t ht
      simp only [filled, hbranches, if_true, List.mem_map] at ht
      obtain ⟨r, hr, rfl⟩ := ht
      obtain ⟨-, hafter, hinside, -⟩ := hrecs r hr
      rw [(hword r hr).1]
      exact ⟨hafter, hinside⟩
    · intro e he
      rw [exits_of_dispatches hi] at he
      simp only [filled, hbranches, if_true, List.zip_map', List.map_map, List.mem_map] at he
      obtain ⟨r, hr, rfl⟩ := he
      obtain ⟨-, -, -, hmark⟩ := hrecs r hr
      simp only [Function.comp_apply, (hword r hr).1, (hword r hr).2, hmark]
      congr 1
      simp only [Int.natCast_add]
      omega

/-- An outline that moves between two depths has marks. -/
theorem Moves.exists_marks {d d' : Nat} {o : Outline} (h : Moves table d o d') :
    ∃ m, Marked table d o d' m := by
  induction h with
  | nil d => exact ⟨_, marked_nil d⟩
  | op h => exact ⟨_, marked_op h⟩
  | seq _ _ ih₁ ih₂ =>
    obtain ⟨m₁, hm₁⟩ := ih₁
    obtain ⟨m₂, hm₂⟩ := ih₂
    exact ⟨_, hm₁.seq hm₂⟩
  | @dispatch d head alts hlen hfields _ ih =>
    obtain ⟨m, hm, hfits⟩ := exists_marks_alternatives hfields ih
    refine ⟨((d + 1 : Nat) : Int) :: m, by simp [size, hm, Nat.add_comm], ?_⟩
    intro arity size before behind hbehind hlt hle
    simp only [Outline.size] at hlt
    have hlenBefore : (before ++ [((d + 1 : Nat) : Int)]).length = before.length + 1 := by simp
    obtain ⟨hrecs, hblock⟩ := hfits arity size (before ++ [((d + 1 : Nat) : Int)]) behind hbehind
      (by omega) hle
    rw [hlenBefore] at hrecs hblock
    simp only [List.append_assoc, List.singleton_append] at hrecs hblock
    refine ⟨rfl, fits_filled ?_ ?_ hrecs ?_ hle, hblock⟩
    · rw [List.cons_append, getElem?_behind]
      rfl
    · rw [length_records, hlen]
    · cases alts with
      | nil => simp [records]
      | cons a as => simp [records]

end

end Outline

/-! ## Procedures -/

namespace Codegen

theorem hasLocal_bodyOf (t : Term) : (bodyOf t).hasLocal = t.hasLocal := by
  induction t using Term.ind with
  | lam binder body ih => exact ih
  | _ => rfl

theorem within_parameters (arity : Nat) : (parameters arity).Within arity := by
  intro b hb
  obtain ⟨k, hk, rfl⟩ := List.mem_map.mp hb
  exact List.mem_range.mp hk

variable {g : Globals} (hwf : g.table.WellFormed) (hsize : g.table.size ≤ 2 ^ 32)

include hwf hsize

/-- The body of a procedure finds the arguments and leaves one value above them. -/
theorem moves_body {t : Term} (ht : t.nodes < 2 ^ 30) {d : Drawing Nat}
    (hd : planBody g t = .ok d) :
    Moves g.table t.arity d.outline (t.arity + 1) ∧ d.outline.size + 1 < 2 ^ 32 := by
  have hnodes := nodes_bodyOf t
  have hflat := (bodyOf t).nodes_flatten_le
  have hpos := (bodyOf t).flatten.nodes_pos
  have hdraws := (draws_term hwf hsize (bodyOf t).flatten).value (within_parameters t.arity)
    (by omega)
  obtain ⟨hmoves, hlength, -⟩ := hdraws t.arity d hd
  exact ⟨hmoves, by omega⟩

/-- The code of a procedure fits marks. -/
theorem exists_marks_procedure {name : String} {t : Term} (ht : t.nodes < 2 ^ 30) {p : Procedure}
    (hp : compileProcedure g name t = .ok p) :
    ∃ marks : List Int, marks.length = p.code.length ∧
      marks[0]? = some (p.arity.toNat : Int) ∧
      BlockFits g.table p.arity p.code.length marks 0 p.code := by
  obtain ⟨d, hd, rfl⟩ := compileProcedure_eq_ok_iff.mp hp
  obtain ⟨hmoves, hfits⟩ := moves_body hwf hsize ht hd
  obtain ⟨m, hlen, hm⟩ := hmoves.exists_marks
  have harity : (UInt32.ofNat t.arity).toNat = t.arity := by
    have := t.arity_lt_nodes
    exact UInt32.toNat_ofNat_of_lt' (show t.arity < 2 ^ 32 by omega)
  obtain ⟨hentry, hblock⟩ := hm (UInt32.ofNat t.arity) (d.outline.size + 1) []
    [((t.arity + 1 : Nat) : Int)] rfl (by simp) (by omega)
  refine ⟨m ++ [((t.arity + 1 : Nat) : Int)], by simp [hlen], ?_, ?_⟩
  · rw [← List.head?_eq_getElem?, hentry, harity]
  · rw [List.length_append, length_layout]
    refine blockFits_append.mpr ⟨hblock,
      ⟨⟨by decide, by decide⟩, ((t.arity + 1 : Nat) : Int), ?_, ?_, ?_⟩, trivial⟩
    · rw [length_layout, ← hlen, Nat.zero_add, getElem?_behind]
      rfl
    · show ((t.arity + 1 : Nat) : Int) = (UInt32.ofNat t.arity).toNat + 1
      rw [harity]
      rfl
    · intro e he
      cases he

end Codegen

/-- Generated code keeps the stack in balance: whatever the term and the analyzers, a procedure that
    code generation returns is disciplined and passes verification against the table it was
    generated for.  The index of a record has 32 bits, so the table may hold as many records as
    that. -/
theorem Codegen.analyze_compileProcedure (g : Globals) (hreach : g.table.Reachable)
    (hsize : g.table.size ≤ 2 ^ 32) (name : String) (t : Term) (ht : t.nodes < 2 ^ 30)
    (p : Procedure) (hp : compileProcedure g name t = .ok p) :
    Disciplined g.table p ∧ ∃ a, analyze g.table p = .ok a := by
  obtain ⟨marks, hlen, hentry, hfits⟩ := exists_marks_procedure hreach.wellFormed hsize ht hp
  have hd := disciplined_of_marks hlen hentry hfits
  refine ⟨hd, ?_⟩
  rw [analyze_eq_analyzeBy]
  exact analyzeBy_complete rearranges_self hfits.furnished hd

/-- A binary native addition and a compiled function of one argument. -/
def Codegen.arithmetic : DeclTable :=
  ⟨[⟨⟨"nat.add", 2, .native, 0⟩, none⟩, ⟨⟨"double", 1, .compiled, 1⟩, none⟩]⟩

/-- Two nested matches, one alternative of which traps, below a let; the bound values are a partial
    application and a call with more arguments than the declaration takes. -/
def Codegen.tangle : Term :=
  .lam "n" <| .lam "m" <| .letIn
    [("f", .app (.const "nat.add" .none) [.var 1]),
     ("x", .app (.const "double" .none) [.var 2, .var 1])] <|
    .app (.const Term.natCasesOn .none)
      [.app (.var 1) [.var 0],
       .const "unreachable" ⟨.unreachable, 0⟩,
       .lam "k" <| .app (.const "cases" ⟨.cases, 2⟩)
        [.var 0,
         .lam "a" <| .lam "b" <| .app (.var 4) [.var 1, .var 0],
         .app (.const "double" .none) [.var 3]]]

theorem Codegen.reachable_arithmetic : arithmetic.Reachable :=
  .reserve (@DeclTable.Reachable.declare .empty _ "nat.add" 2 .native .empty rfl)
    (show DeclTable.reserve _ [("double", 1)] = .ok arithmetic from rfl)

theorem Codegen.compile_tangle :
    ∃ p, compileProcedure ⟨arithmetic, none⟩ "tangle" tangle = .ok p ∧ p.code.length = 26 := by
  have hcode : (compileProcedure ⟨arithmetic, none⟩ "tangle" tangle).toOption.map (·.code.length)
      = some 26 := by decide +kernel
  cases hp : compileProcedure ⟨arithmetic, none⟩ "tangle" tangle with
  | error f => simp [hp, Except.toOption] at hcode
  | ok p => exact ⟨p, rfl, by simpa [hp, Except.toOption] using hcode⟩

theorem Codegen.tangle_analyze :
    arithmetic.Reachable ∧ tangle.nodes = 29 ∧
      ∃ p, compileProcedure ⟨arithmetic, none⟩ "tangle" tangle = .ok p ∧ p.code.length = 26 ∧
        Disciplined arithmetic p ∧ ∃ a, analyze arithmetic p = .ok a := by
  obtain ⟨p, hp, hlen⟩ := compile_tangle
  exact ⟨reachable_arithmetic, rfl, p, hp, hlen, analyze_compileProcedure ⟨arithmetic, none⟩
    reachable_arithmetic (by decide) "tangle" tangle (by decide) p hp⟩

end TermVM
