/-
  TermVM.Proofs.Build.Tracing

  Traced code can be listed.

  A line shows the operands that its operation reads, and there is no line
  when one of them is missing.  Generated code has the targets and field
  counts it needs, since it fits its marks; and a term that it pushes is a
  quotation of its source, so a term is missing only where the source quotes
  an absent one.
-/
import TermVM.Proofs.Balance.Layout
import TermVM.Proofs.Build.Basic
import TermVM.Proofs.Outline.Quotation

namespace TermVM

open Result Verify

/-! ## Lines -/

namespace Listing

/-- A value is there if its operands are, and an element is missing if they are not. -/
def Needs {α : Type} (present : Prop) (x : Except Fault α) : Prop :=
  (present → ∃ a, x = .ok a) ∧ (¬present → x = .error .missingElement)

theorem needs_ok {α : Type} {c : Prop} (hc : c) (a : α) : Needs c (.ok a) :=
  ⟨fun _ => ⟨a, rfl⟩, fun h => absurd hc h⟩

theorem Needs.bind {α β : Type} {c : Prop} {x : Except Fault α} (h : Needs c x) (f : α → β) :
    Needs c (x >>= fun a => .ok (f a)) := by
  refine ⟨fun hc => ?_, fun hc => ?_⟩
  · obtain ⟨a, ha⟩ := h.1 hc
    exact ⟨f a, by rw [ha]; rfl⟩
  · rw [h.2 hc]
    rfl

theorem needs_first (xs : List UInt32) : Needs (xs ≠ []) (first xs) := by
  cases xs with
  | nil => exact ⟨fun h => absurd rfl h, fun _ => rfl⟩
  | cons x xs => exact needs_ok (List.cons_ne_nil x xs) x

theorem needs_targetEntries (ts fs : List UInt32) :
    Needs (ts.length ≤ fs.length) (targetEntries ts fs) := by
  induction ts generalizing fs with
  | nil => exact needs_ok (Nat.zero_le _) []
  | cons t ts ih =>
    cases fs with
    | nil => exact ⟨fun h => absurd h (Nat.not_succ_le_zero _), fun _ => rfl⟩
    | cons f fs =>
      rw [List.length_cons, List.length_cons, Nat.add_le_add_iff_right]
      exact (ih fs).bind _

/-- An instruction has the operands that its line shows: a jump has a target, a destructuring has a
    field count, and a dispatch has a field count for every target. -/
def Equipped (i : Instr) : Prop :=
  Furnished i ∧ (dispatches i.op = true → i.targets.length ≤ i.fields.length)

instance (i : Instr) : Decidable (Equipped i) :=
  inferInstanceAs (Decidable (_ ∧ _))

theorem needs_operands {i : Instr} (hexpr : i.op = .named .expr → i.expr ≠ .absent)
    (table : Option DeclTable) : Needs (Equipped i) (operands table i) := by
  have htargets : Needs (i.targets.length ≤ i.fields.length) (targets i) :=
    (needs_targetEntries i.targets i.fields).bind _
  unfold operands Equipped Furnished
  cases hop : i.op with
  | undefined code hcode => exact needs_ok (by simp [dispatches]) _
  | named m =>
    cases m with
    | goto => simpa [dispatches] using (needs_first i.targets).bind _
    | destruct => simpa [dispatches] using (needs_first i.fields).bind _
    | cases2 | casesN | natCases | builtinCases => simpa [dispatches] using htargets.bind _
    | expr =>
      cases hterm : i.expr with
      | absent => exact absurd hterm (hexpr hop)
      | _ => exact needs_ok (by simp [dispatches]) _
    | num => cases i.num <;> exact needs_ok (by simp [dispatches]) _
    | _ => exact needs_ok (by simp [dispatches]) _

theorem needs_line {i : Instr} (hexpr : i.op = .named .expr → i.expr ≠ .absent)
    (table : Option DeclTable) (pc : Int) : Needs (Equipped i) (line table pc i) :=
  (needs_operands hexpr table).bind _

/-- An instruction carries everything that its line shows. -/
structure Listable (i : Instr) : Prop where
  furnished : Furnished i
  fields_eq : dispatches i.op = true → i.fields.length = i.targets.length
  expr_ne : i.op = .named .expr → i.expr ≠ .absent

theorem Listable.equipped {i : Instr} (h : Listable i) : Equipped i :=
  ⟨h.furnished, fun hop => Nat.le_of_eq (h.fields_eq hop).symm⟩

theorem exists_operands {i : Instr} (h : Listable i) (table : Option DeclTable) :
    ∃ text, operands table i = .ok text :=
  (needs_operands h.expr_ne table).1 h.equipped

/-- Code can be listed when every instruction has the operands that its line shows. -/
theorem exists_linesFrom_iff {code : Code} {table : Option DeclTable} {pc : Int} :
    (∃ ls, (linesFrom table pc code).mapM id = .ok ls) ↔
      ∀ i ∈ code, ∃ text, operands table i = .ok text := by
  induction code generalizing pc with
  | nil => exact iff_of_true ⟨[], rfl⟩ (by simp)
  | cons i is ih =>
    rw [List.forall_mem_cons, ← @ih (pc + 1), linesFrom, List.mapM_cons]
    unfold line
    cases operands table i with
    | error f => simp
    | ok text => simp [bind_eq_ok]

theorem exists_linesFrom {code : Code} (h : ∀ i ∈ code, Listable i) (table : Option DeclTable)
    (pc : Int) : ∃ ls, (linesFrom table pc code).mapM id = .ok ls :=
  exists_linesFrom_iff.mpr fun i hi => exists_operands (h i hi) table

end Listing

/-! ## Generated code -/

/-- An instruction that fits its marks has the operands it branches through. -/
theorem Verify.Fits.fields_eq {table : DeclTable} {arity : UInt32} {size pc : Nat}
    {marks : List Int} {i : Instr} (h : Fits table arity size marks pc i)
    (hop : dispatches i.op = true) : i.fields.length = i.targets.length := by
  obtain ⟨-, d, -, hadmits, -⟩ := h
  unfold Admits at hadmits
  cases hi : i.op with
  | undefined code hcode =>
    rw [hi] at hop
    cases hop
  | named m =>
    rw [hi] at hop hadmits
    cases m with
    | cases2 | casesN | natCases | builtinCases => exact hadmits.2.1
    | _ => cases hop

/-- The code of a term that quotes no absent term can be listed. -/
theorem Codegen.listable_of_compileProcedure {g : Globals} (hwf : g.table.WellFormed)
    (hsize : g.table.size ≤ 2 ^ 32) {name : String} {t : Term} (ht : t.nodes < 2 ^ 30)
    (hquotes : .absent ∉ t.quotations) {p : Procedure}
    (hp : compileProcedure g name t = .ok p) : ∀ i ∈ p.code, Listing.Listable i := by
  intro i hi
  obtain ⟨marks, -, -, hblock⟩ := exists_marks_procedure hwf hsize ht hp
  obtain ⟨k, hk⟩ := List.getElem?_of_mem hi
  have hfits := hblock.fits hk
  refine ⟨hfits.1, hfits.fields_eq, ?_⟩
  intro hop habsent
  rcases quotes_of_compileProcedure hp hi with ⟨hplain, -⟩ | hmem
  · rw [hop] at hplain
    cases hplain
  · exact hquotes (habsent ▸ hmem)

/-! ## Traces -/

namespace Tracer

variable {t : Tracer} {verbosity : Int} {name : String} {table : DeclTable} {p : Procedure}

/-- A procedure can be traced when nothing of it reaches the log or it can be listed. -/
theorem exists_procedure_iff :
    (∃ entries, t.procedure verbosity name table p = .ok entries) ↔
      (t.isShown verbosity name = true →
        ∀ i ∈ p.code, ∃ text, Listing.operands (some table) i = .ok text) := by
  unfold procedure text Listing.lines
  cases t.isShown verbosity name with
  | false => simp
  | true =>
    rw [← @Listing.exists_linesFrom_iff p.code (some table) 0]
    simp [bind_eq_ok]

end Tracer

namespace Build

/-- Whether the code of a batch reaches the log. -/
def Settings.shows (s : Settings) : Bool :=
  match s.tracer with
  | none => false
  | some t =>
      t.isShown s.verbosity Tracer.codeGen || t.isShown s.verbosity Tracer.optimizeBytecode

/-- Bodies are traced without a crash when all their procedures can be traced. -/
theorem trace_eq_ok_iff {s : Settings} {table : DeclTable} {bodies : List Body} :
    (trace s table bodies).2 = .ok () ↔
      ∀ t, s.tracer = some t → ∀ b ∈ bodies,
        (∃ entries, t.procedure s.verbosity Tracer.codeGen table b.generated = .ok entries) ∧
          ∃ entries, t.procedure s.verbosity Tracer.optimizeBytecode table b.final
            = .ok entries := by
  induction bodies with
  | nil => simp [trace]
  | cons b bs ih =>
    unfold trace
    cases htracer : s.tracer with
    | none => simp
    | some t =>
      rw [htracer] at ih
      dsimp only
      cases hbefore : t.procedure s.verbosity Tracer.codeGen table b.generated with
      | error f => simp [hbefore]
      | ok before =>
        dsimp only
        cases hafter : t.procedure s.verbosity Tracer.optimizeBytecode table b.final with
        | error f => simp [hafter]
        | ok after => simpa [hbefore, hafter] using ih

/-- Bodies are traced without a crash when nothing reaches the log or all of them can be listed. -/
theorem trace_eq_ok {s : Settings} {table : DeclTable} {bodies : List Body}
    (h : s.shows = true → ∀ b ∈ bodies, (∀ i ∈ b.generated.code, Listing.Listable i) ∧
      ∀ i ∈ b.final.code, Listing.Listable i) :
    (trace s table bodies).2 = .ok () := by
  refine trace_eq_ok_iff.mpr fun t htracer b hb => ?_
  have hshows : s.shows = (t.isShown s.verbosity Tracer.codeGen ||
      t.isShown s.verbosity Tracer.optimizeBytecode) := by
    unfold Settings.shows
    rw [htracer]
  constructor
  · refine Tracer.exists_procedure_iff.mpr fun hshown i hi => ?_
    exact Listing.exists_operands ((h (by simp [hshows, hshown]) b hb).1 i hi) _
  · refine Tracer.exists_procedure_iff.mpr fun hshown i hi => ?_
    exact Listing.exists_operands ((h (by simp [hshows, hshown]) b hb).2 i hi) _

end Build

end TermVM
