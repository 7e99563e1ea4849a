/-
  TermVM.Proofs.Listing

  Listings of generated code.

  A line depends on the table only through the name at the index it refers to.
  Generated code refers to positions that the table has (`Resolves`), and names
  keep their positions, so its lines are the same against every later table.

  An operand is missing from generated code in one case only: the term of a
  quotation may be an absent one.
-/
import TermVM.Proofs.Build.Tracing
import TermVM.Proofs.DeclTable.Contents
import TermVM.Proofs.Outline.Forms
import TermVM.Proofs.Outline.Reindexing

namespace TermVM

/-! ## Names in lines -/

/-- Every index in a piece of code is a position of the table. -/
def DeclTable.Resolves (t : DeclTable) (code : Code) : Prop :=
  ∀ i ∈ code, i.refers = true → (t.at? i.a).isSome = true

namespace DeclTable

variable {t t' : DeclTable} {code : Code}

theorem Resolves.later (h : t.Resolves code) (hnames : t.names <+: t'.names) :
    t'.Resolves code := by
  intro i hi hrefers
  have hindex := h i hi hrefers
  have hname := map_name_at?_of_prefix hnames hindex
  rw [← Option.isSome_map, hname, Option.isSome_map]
  exact hindex

theorem resolves_of_compileProcedure {g : Codegen.Globals} (hwf : g.table.WellFormed)
    {name : String} {value : Term} {p : Procedure}
    (hp : Codegen.compileProcedure g name value = .ok p) : g.table.Resolves p.code := by
  intro i hi hrefers
  obtain ⟨n, d, hd, hindex⟩ := Codegen.exists_lookup_of_refers hp hi hrefers
  rw [← hindex]
  exact hwf.isSome_at? hd

end DeclTable

namespace Listing

variable {table table' : Option DeclTable} {t t' : DeclTable} {code : Code}

theorem declName_eq (t : DeclTable) (index : UInt32) :
    declName (some t) index = ((t.at? index).map (·.name)).getD "?" := by
  unfold declName
  rw [Option.bind_some]
  cases t.at? index <;> rfl

/-- The table shows in the operands of an instruction only as the name at its index. -/
theorem operands_congr {i : Instr}
    (h : i.refers = true → declName table' i.a = declName table i.a) :
    operands table' i = operands table i := by
  unfold operands
  cases hop : i.op with
  | undefined code hcode => rfl
  | named m =>
    cases m with
    | invokeGlobal | invokeBuiltin | invokeNative | closure =>
      have hname := h (by simp [Instr.refers, hop])
      simp only [hname]
    | _ => rfl

/-- An instruction with a name in its line has all that it shows. -/
theorem exists_operands_of_refers {i : Instr} (h : i.refers = true) (table : Option DeclTable) :
    ∃ text, operands table i = .ok text := by
  unfold operands
  cases hop : i.op with
  | undefined code hcode => exact ⟨_, rfl⟩
  | named m =>
    cases m with
    | invokeGlobal | invokeBuiltin | invokeNative | closure => exact ⟨_, rfl⟩
    | _ => simp [Instr.refers, hop] at h

/-- An instruction that can be listed can be listed with another index and against another
    table. -/
theorem exists_operands_reindex {i : Instr} {text : String} (h : operands table i = .ok text)
    (ρ : UInt32 → UInt32) : ∃ text', operands table' (i.reindex ρ) = .ok text' := by
  cases hrefers : i.refers with
  | true =>
    refine exists_operands_of_refers ?_ table'
    rw [Instr.reindex, if_pos hrefers]
    exact hrefers
  | false =>
    rw [Instr.reindex_of_not_refers hrefers, operands_congr (by simp [hrefers])]
    exact ⟨text, h⟩

theorem linesFrom_congr
    (h : ∀ i ∈ code, i.refers = true → declName table' i.a = declName table i.a) (pc : Int) :
    linesFrom table' pc code = linesFrom table pc code := by
  induction code generalizing pc with
  | nil => rfl
  | cons i is ih =>
    rw [List.forall_mem_cons] at h
    rw [linesFrom, linesFrom, ih h.2, line, line, operands_congr h.1]

/-- Code that is listed against a table has the same lines against every later one. -/
theorem lines_of_prefix (h : t.Resolves code) (hnames : t.names <+: t'.names) :
    lines (some t') code = lines (some t) code := by
  refine linesFrom_congr (fun i hi hrefers => ?_) 0
  rw [declName_eq, declName_eq, DeclTable.map_name_at?_of_prefix hnames (h i hi hrefers)]

end Listing

theorem Tracer.procedure_of_prefix (tracer : Tracer) {verbosity : Int} {name : String}
    {t t' : DeclTable} {p : Procedure} (h : t.Resolves p.code) (hnames : t.names <+: t'.names) :
    tracer.procedure verbosity name t' p = tracer.procedure verbosity name t p := by
  unfold procedure text
  rw [Listing.lines_of_prefix h hnames]

/-! ## Missing operands -/

namespace Instr

open Listing

/-- An instruction that neither branches nor quotes can be listed. -/
theorem listable_plain {i : Instr} {m : Mnemonic} (hop : i.op = .named m)
    (hbranches : m.branches = false) (hdestruct : m ≠ .destruct) (hexpr : m ≠ .expr) :
    Listable i where
  furnished := by
    refine ⟨fun h => ?_, fun h => absurd (Opcode.named.inj (hop.symm.trans h)) hdestruct⟩
    rw [Opcode.named.inj (hop.symm.trans h)] at hbranches
    cases hbranches
  fields_eq h := by
    rw [hop] at h
    cases m with
    | cases2 | casesN | natCases | builtinCases => cases hbranches
    | _ => cases h
  expr_ne h := absurd (Opcode.named.inj (hop.symm.trans h)) hexpr

/-- A dispatch has a field count for every target, and one that has no targets has a field
    count. -/
theorem listable_dispatch {head : Codegen.CaseHead} {alternatives : List Codegen.Alternative}
    (h : alternatives.length = head.alternatives.toNat) :
    Listable (Outline.filled head.instr alternatives) := by
  have hfilled : ∀ m a n, Verify.dispatches (.named m) = true →
      Listable (Outline.filled (dispatch m a n) alternatives) := by
    intro m a n hm
    cases m with
    | cases2 | casesN | natCases | builtinCases =>
      refine ⟨⟨by rintro ⟨⟩, by rintro ⟨⟩⟩, fun _ => ?_, by rintro ⟨⟩⟩
      simp [Outline.filled, dispatch, Opcode.branches, Mnemonic.branches]
    | _ => cases hm
  cases head with
  | natural => exact hfilled .natCases 0 2 rfl
  | native a => exact hfilled .builtinCases a.index a.alternatives.toNat rfl
  | marked n =>
    rw [Codegen.CaseHead.instr]
    by_cases hone : n = 1
    · subst hone
      have hne : alternatives ≠ [] := List.ne_nil_of_length_pos (by rw [h]; decide)
      rw [if_pos rfl]
      refine ⟨⟨by rintro ⟨⟩, fun _ => ?_⟩, by rintro ⟨⟩, by rintro ⟨⟩⟩
      simpa [Outline.filled] using hne
    · rw [if_neg hone]
      split
      · exact hfilled .cases2 0 2 rfl
      · exact hfilled .casesN 0 n.toNat rfl

/-- Generated code can be listed unless it quotes an absent term. -/
theorem Generated.listable {t : Term} (hquotes : .absent ∉ t.quotations) {i : Instr}
    (h : i.Generated t) : Listable i := by
  cases h with
  | quotation hq => exact ⟨⟨nofun, nofun⟩, nofun, fun _ habsent => hquotes (habsent ▸ hq)⟩
  | jump target => exact ⟨⟨fun _ => List.cons_ne_nil _ _, nofun⟩, nofun, nofun⟩
  | dispatch head start hcount =>
    refine listable_dispatch ?_
    rw [Outline.length_records, hcount]
  | invoke hm index =>
    rcases hm with rfl | rfl | rfl <;> exact listable_plain rfl rfl (by decide) (by decide)
  | _ => exact listable_plain rfl rfl (by decide) (by decide)

end Instr

end TermVM
