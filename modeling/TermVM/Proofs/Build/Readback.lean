/-
  TermVM.Proofs.Build.Readback

  Compiled procedures can be read back from their bytes.

  The reader cuts off nesting, lists and texts that are too large.  A term of a
  batch stands three levels down in the batch, a quotation four levels down in
  the procedures that were compiled from it, and a quotation is lower than the
  term around it: what a batch was read with is enough for what it compiles
  to.  Only the number of instructions and of alternatives can grow.
-/
import TermVM.Proofs.Batch.Reencoding
import TermVM.Proofs.Build.Basic
import TermVM.Proofs.Code.Wire
import TermVM.Proofs.Outline.Forms

namespace TermVM

open Cbor Result

/-! ## Terms -/

namespace Term

variable {limits : Limits} (hlow : 9 ≤ limits.elements) (hhigh : limits.elements < UInt64.size)
  {t : Term} {levels : Nat} (ht : t.Writable limits levels)

include hlow hhigh ht

/-- The literals of a term that can be written are short. -/
theorem length_decimal_of_mem_parts {v : Int} (h : nat v ∈ t.parts) :
    (utf8 (Text.decimal v)).length < UInt64.size := by
  obtain ⟨-, -, hfits⟩ := (writable_iff hlow hhigh).mp ht
  exact (hfits _ h).2 _ (by simp [shell, Node.texts])

/-- A quotation of a term that can be written can be written two levels further down. -/
theorem writable_of_mem_quotations {q : Term} (h : q ∈ t.quotations) {levels' : Nat}
    (hlevels : levels ≤ levels' + 2) : q.Writable limits levels' := by
  obtain ⟨-, hheight, -⟩ := (writable_iff hlow hhigh).mp ht
  have hquote : quote q ∈ t.parts := quote_mem_parts_of_mem_quotations h
  -- the node around the quotation takes up two levels, which the quotation has left over
  have hbelow : q.height + 1 ≤ t.height := height_le_of_mem_parts hquote
  have hq : q ∈ t.parts := parts_subset_of_mem hquote (List.mem_cons_of_mem _ q.mem_parts_self)
  exact ht.of_mem_parts hlow hhigh hq (by omega)

end Term

/-! ## Generated instructions -/

namespace Instr

variable {limits : Limits} {levels : Nat}

/-- Most instructions have neither a number nor a term. -/
theorem Writable.plain {i : Instr} {m : Mnemonic} (hop : i.op = .named m) (hnum : m ≠ .num)
    (hexpr : m ≠ .expr) (hnone : i.num = none) (habsent : i.expr = .absent)
    (htargets : i.targets.length ≤ limits.elements) (hfields : i.fields.length ≤ limits.elements) :
    i.Writable limits levels where
  named := ⟨m, hop⟩
  num := .inr ⟨fun h => hnum (Opcode.named.inj (hop.symm.trans h)), hnone⟩
  expr := .inr ⟨fun h => hexpr (Opcode.named.inj (hop.symm.trans h)), habsent⟩
  targets := htargets
  fields := hfields

theorem writable_literal {v : Int} (h : (utf8 (Text.decimal v)).length < UInt64.size) :
    (literal v).Writable limits levels where
  named := ⟨.num, rfl⟩
  num := .inl ⟨rfl, v, rfl, h⟩
  expr := .inr ⟨nofun, rfl⟩
  targets := Nat.zero_le _
  fields := Nat.zero_le _

theorem writable_quotation {q : Term} (h : q.Writable limits levels) :
    (quotation q).Writable limits levels where
  named := ⟨.expr, rfl⟩
  num := .inr ⟨nofun, rfl⟩
  expr := .inl ⟨rfl, h⟩
  targets := Nat.zero_le _
  fields := Nat.zero_le _

theorem writable_dispatch {head : Codegen.CaseHead} {alternatives : List Codegen.Alternative}
    (h : alternatives.length ≤ limits.elements) :
    (Outline.filled head.instr alternatives).Writable limits levels := by
  have htargets := Nat.le_trans (head.length_targets_filled_le alternatives) h
  have hfields : (Outline.filled head.instr alternatives).fields.length ≤ limits.elements := by
    rwa [Outline.filled, List.length_map]
  rcases head.instr_cases with hinstr | ⟨m, a, n, hm, hinstr⟩ <;>
    rw [hinstr] at htargets hfields ⊢
  · exact .plain rfl (by decide) (by decide) rfl rfl htargets hfields
  · refine .plain (m := m) rfl ?_ ?_ rfl rfl htargets hfields
    · rintro rfl
      cases hm
    · rintro rfl
      cases hm

/-- An instruction of code of a term can be written when the term can, unless it has too many
    alternatives. -/
theorem Generated.writable (hlow : 9 ≤ limits.elements) (hhigh : limits.elements < UInt64.size)
    {t : Term} (ht : t.Writable limits levels) {i : Instr} (h : i.Generated t)
    (hfields : i.fields.length ≤ limits.elements) {levels' : Nat} (hlevels : levels ≤ levels' + 2) :
    i.Writable limits levels' := by
  cases h with
  | literal hv =>
    rcases hv with rfl | hv
    · exact writable_literal (by decide)
    · exact writable_literal (Term.length_decimal_of_mem_parts hlow hhigh ht hv)
  | quotation hq =>
    exact writable_quotation (Term.writable_of_mem_quotations hlow hhigh ht hq hlevels)
  | jump target =>
    have hone : 1 ≤ limits.elements := by omega
    exact .plain rfl (by decide) (by decide) rfl rfl hone (Nat.zero_le _)
  | dispatch head start _ =>
    rw [Outline.filled, List.length_map] at hfields
    exact writable_dispatch hfields
  | invoke hm index =>
    rcases hm with rfl | rfl | rfl <;>
      exact .plain rfl (by decide) (by decide) rfl rfl (Nat.zero_le _) (Nat.zero_le _)
  | _ => exact .plain rfl (by decide) (by decide) rfl rfl (Nat.zero_le _) (Nat.zero_le _)

end Instr

/-! ## Batches -/

namespace Build

variable {s : Settings} {interrupt : Option Interrupt} {table : DeclTable} {o : Outcome}

/-- Without a store and an optimizer, the procedures of a batch are the code of its declarations. -/
theorem forall₂_procedures (hplain : s.optimizer = none) {batch : List Declaration}
    (h : (run s interrupt none table batch).outcome = .ok o) :
    ∃ reserved, List.Forall₂
      (fun d p => Codegen.compileProcedure ⟨reserved, s.analyzers⟩ d.name d.value = .ok p)
      batch o.procedures := by
  obtain ⟨reserved, -, bodies, ⟨-, hbodies⟩, hconclude⟩ := run_eq_ok_iff.mp h
  obtain ⟨-, hprocedures, -⟩ := install_eq_ok.mp (conclude_eq_ok.mp hconclude).2
  refine ⟨reserved, ?_⟩
  rw [hprocedures, List.forall₂_map_right_iff]
  rw [tasks, List.forall₂_map_left_iff] at hbodies
  refine hbodies.imp fun d b hb => ?_
  obtain ⟨p, hp, hfinish⟩ := bodyAlone_eq_ok.mp hb
  obtain ⟨-, -, rfl⟩ := finish_eq_ok.mp hfinish
  show Codegen.compileProcedure _ _ _ = .ok (s.optimized reserved p)
  rw [Settings.optimized_of_none hplain]
  exact generate_eq_ok.mp hp

/-- The procedure of a declaration that was read can be written: what it quotes may stand one level
    deeper in it than the declaration's value stands in a batch. -/
theorem writable_of_compileProcedure {g : Codegen.Globals} {d : Declaration} {p : Procedure}
    (hd : d.Writable .standard 29) (h : Codegen.compileProcedure g d.name d.value = .ok p)
    (hcode : p.code.length ≤ 131072) (hfields : ∀ i ∈ p.code, i.fields.length ≤ 131072) :
    p.Writable .standard 28 where
  name := by
    obtain ⟨draft, -, rfl⟩ := Codegen.compileProcedure_eq_ok_iff.mp h
    exact hd.name
  count := hcode
  code i hi :=
    Instr.Generated.writable (by decide) (by decide) hd.value
      (Codegen.generated_of_compileProcedure h hi) (hfields i hi) (by decide)

/-- Compiled procedures can be read back.  If the declarations of a batch that was read compile to
    procedures with at most 131072 instructions each and at most 131072 alternatives in each
    dispatch, then the procedures can be written, and what was written is read as them. -/
theorem decodeList_of_run (hplain : s.optimizer = none) {bs : Bytes}
    (hbs : bs.length < UInt64.size) {ds : Option (List Declaration)}
    (hds : Batch.decode bs = .ok ds)
    (hrun : (run s interrupt none table (ds.getD [])).outcome = .ok o)
    (hcode : ∀ p ∈ o.procedures, p.code.length ≤ 131072)
    (hfields : ∀ p ∈ o.procedures, ∀ i ∈ p.code, i.fields.length ≤ 131072) :
    ∃ bytes, Procedure.encodeList? (some (o.procedures.map some)) = some bytes ∧
      Procedure.decodeList bytes = .ok (some (o.procedures.map some)) := by
  have hbatch : (ds.getD []).length ≤ 131072 ∧ ∀ d ∈ ds.getD [], d.Writable .standard 29 := by
    cases ds with
    | none => exact ⟨Nat.zero_le _, fun d hd => absurd hd List.not_mem_nil⟩
    | some l => exact Batch.writable_of_decode hbs hds l rfl
  obtain ⟨reserved, hprocedures⟩ := forall₂_procedures hplain hrun
  refine Procedure.decodeList_encodeList? (hprocedures.length_eq ▸ hbatch.1) fun p hp => ?_
  obtain ⟨d, hd, hp'⟩ := exists_of_mem_right hprocedures hp
  exact writable_of_compileProcedure (hbatch.2 d hd) hp' (hcode p hp) (hfields p hp)

/-- A declaration that takes a number apart, and one that quotes a term as high as a batch can hold
    it. -/
def deepest : List Declaration :=
  [⟨"a", .lam "" (.app (.const Term.natCasesOn ⟨.plain, 0⟩)
    [.var 0, .nat 2, .lam "" (.var 0)])⟩,
   ⟨"b", .quote (Term.lams (List.replicate 13 "") (.var 0))⟩]

/-- The bytes of `deepest`: every binder is a record in a list of its own. -/
def deepestBytes : Bytes :=
  [0xa2, 0x01, 0x01, 0x02, 0x82, 0xa2, 0x01, 0x61, 0x61, 0x02, 0xa2, 0x01, 0x07, 0x05, 0x81, 0xa2,
   0x01, 0x06, 0x05, 0x84, 0xa2, 0x01, 0x03, 0x02, 0x6c] ++ utf8 "nat.cases_on" ++
  [0xa1, 0x01, 0x01, 0xa3, 0x01, 0x0a, 0x07, 0x01, 0x08, 0x61, 0x32, 0xa2, 0x01, 0x07, 0x05, 0x81,
   0xa1, 0x01, 0x01, 0xa2, 0x01, 0x61, 0x62, 0x02, 0xa3, 0x01, 0x0a, 0x05, 0x81] ++
  (List.replicate 13 [0xa2, 0x01, 0x07, 0x05, 0x81]).flatten ++ [0xa1, 0x01, 0x01, 0x07, 0x02]

/-- What `deepest` compiles to. -/
def deepestCode : List Procedure :=
  [⟨"a", 1, [.push 0, { Instr.dispatch .natCases 0 2 with targets := [2, 4], fields := [0, 1] },
    .literal 2, Outline.jumpTo 6, .push 1, .drop 1, .ret]⟩,
   ⟨"b", 0, [.quotation (Term.lams (List.replicate 13 "") (.var 0)), .ret]⟩]

theorem deepest_read_back :
    deepestBytes.length < UInt64.size ∧ Batch.decode deepestBytes = .ok (some deepest) ∧
      ∃ o, (run .plain none none ⟨[]⟩ deepest).outcome = .ok o ∧ o.procedures = deepestCode ∧
        ∃ bytes, Procedure.encodeList? (some (deepestCode.map some)) = some bytes ∧
          Procedure.decodeList bytes = .ok (some (deepestCode.map some)) := by
  have hdecode : (Batch.decode deepestBytes).toOption = some (some deepest) := by decide +kernel
  have hrun : (run .plain none none ⟨[]⟩ deepest).outcome.toOption.map (·.procedures)
      = some deepestCode := by decide +kernel
  obtain ⟨o, ho, hprocedures⟩ := Option.map_eq_some_iff.mp hrun
  have hsize : deepestBytes.length < UInt64.size := by decide +kernel
  refine ⟨hsize, eq_ok_of_toOption hdecode, o, eq_ok_of_toOption ho, hprocedures, ?_⟩
  rw [← hprocedures]
  refine decodeList_of_run rfl hsize (eq_ok_of_toOption hdecode) (eq_ok_of_toOption ho) ?_ ?_
  · rw [hprocedures]
    decide
  · rw [hprocedures]
    decide

end Build

end TermVM
