/-
  TermVM.Proofs.Outline.Quotation

  Generated code carries quotations of its term and no other term.

  Of the forms that generated instructions have, one carries a term, and that
  is a quotation of the term the code was generated from, as it stands there:
  `expr_of_compileProcedure`.
-/
import TermVM.Proofs.Outline.Forms
import TermVM.Proofs.Outline.Mirror

namespace TermVM

open Codegen

/-- An instruction carries no term and pushes none, or carries one of a list. -/
def Instr.Quotes (qs : List Term) (i : Instr) : Prop :=
  ((i.op == .named .expr) = false ∧ i.expr = .absent) ∨ i.expr ∈ qs

namespace Codegen

theorem CaseHead.op_instr_ne_expr (head : CaseHead) :
    (head.instr.op == .named .expr) = false := by
  rcases head.instr_cases with h | ⟨m, a, n, hm, h⟩
  · rw [h]
    rfl
  · rw [h]
    cases m <;> first | rfl | cases hm

/-- An instruction of a procedure pushes no term and carries none, or carries a quotation of the
    term it was generated from. -/
theorem quotes_of_compileProcedure {g : Globals} {name : String} {t : Term} {p : Procedure}
    (h : compileProcedure g name t = .ok p) {i : Instr} (hi : i ∈ p.code) :
    i.Quotes t.quotations := by
  cases generated_of_compileProcedure h hi with
  | quotation hq => exact .inr hq
  | dispatch head start _ => exact .inl ⟨head.op_instr_ne_expr, head.expr_instr⟩
  | invoke hm index =>
    rcases hm with rfl | rfl | rfl <;> exact .inl ⟨rfl, rfl⟩
  | _ => exact .inl ⟨rfl, rfl⟩

theorem expr_of_compileProcedure {g : Globals} {name : String} {t : Term} {p : Procedure}
    (h : compileProcedure g name t = .ok p) {i : Instr} (hi : i ∈ p.code) :
    i.expr = .absent ∨ i.expr ∈ t.quotations :=
  (quotes_of_compileProcedure h hi).imp_left And.right

end Codegen

end TermVM
