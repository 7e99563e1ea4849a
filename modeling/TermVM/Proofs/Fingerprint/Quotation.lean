/-
  TermVM.Proofs.Fingerprint.Quotation

  What a key says about quoted terms.

  Generated code carries quoted terms as they stand, but the bytes of a key
  show them in normal form: inside quotations, too, they leave out the names of
  free locals and how application chains nest.  So code found under a key can
  carry another spelling of a quoted term than the declaration it is taken for.

  This does not happen to code whose quoted terms hold neither an application
  nor a free local, and to no other code can it be ruled out:
  `exprs_eq_of_keyBytes_iff`.
-/
import TermVM.Proofs.Fingerprint.Key
import TermVM.Proofs.Outline.Quotation

namespace TermVM.Fingerprint

open Codegen

/-! ## Quotations under one key -/

theorem Alike.eq {i j : Instr} (h : Alike i j) (hexpr : i.expr = j.expr) : i = j := by
  obtain ⟨hop, ha, hb, hnum, htargets, hfields, -⟩ := h
  cases i
  cases j
  simp_all

/-- Code whose quoted terms have no slack is the only code with its normal form. -/
theorem code_eq_of_normal_eq {code code' : Code}
    (h : code'.map Instr.normal = code.map Instr.normal)
    (hrigid : ∀ i ∈ code, i.expr.isRigid = true) : code' = code := by
  induction code generalizing code' with
  | nil => exact List.map_eq_nil_iff.mp h
  | cons i code ih =>
    obtain ⟨j, code', rfl, hj, hcode⟩ := List.map_eq_cons_iff.mp h
    rw [List.forall_mem_cons] at hrigid
    have halike : Alike j i := alike_of_normal_eq hj
    have hexpr : j.expr = i.expr :=
      Term.eq_of_normalData_eq (Term.isRigid_iff.mp hrigid.1) halike.expr_eq
    rw [halike.eq hexpr, ih hcode hrigid.2]

/-- A term whose respelling is no larger than the name it is respelled with has no slack, and
    neither has its respelling. -/
theorem isRigid_respell {name : String} {t : Term}
    (h : (t.respell name).slack ≤ name.length) : (t.respell name).isRigid = true := by
  have ht : t.slack = 0 := by
    by_cases hslack : t.slack = 0
    · exact hslack
    · exact absurd (Term.lt_slack_respell name hslack) (Nat.not_lt.mpr h)
  have hnormal : (t.respell name).normalData = t :=
    (Term.withoutNames_flattenWith_respell name true t rfl).trans (Term.normalData_of_slack ht)
  exact Term.isRigid_iff.mpr (Term.slack_of_normalData (by rw [hnormal, ht]))

/-- All code under the key of a term carries the quoted terms that the term's own code carries
    exactly when no application and no free local stands in these. -/
theorem exprs_eq_of_keyBytes_iff {g : Globals} {s : Term} {name : String} {p : Procedure}
    {bytes : Bytes} (hs : measured s = true)
    (hkey : keyBytes? s g.table g.analyzers = some bytes)
    (hp : compileProcedure g name s = .ok p) :
    (∀ (g' : Globals) (t : Term) (name' : String) (q : Procedure), measured t = true →
        keyBytes? t g'.table g'.analyzers = some bytes → compileProcedure g' name' t = .ok q →
        q.code.map Instr.expr = p.code.map Instr.expr)
      ↔ ∀ i ∈ p.code, i.expr.isRigid = true := by
  constructor
  · intro hsame i hi
    -- respell the term with a name too long for the quoted term at hand
    let long := String.ofList (List.replicate i.expr.slack 'x')
    have hlong : long.length = i.expr.slack := by simp [long]
    have hnormal : s.normal = (s.respell long).normal := (Term.normal_respell long s).symm
    have hagree : g.Agree g s.constants := fun _ _ _ => ⟨rfl, rfl⟩
    obtain ⟨q, hq, -, -⟩ := exists_compileProcedure_of_normal_eq hnormal hagree hp name
    have hexprs := hsame g (s.respell long) name q
      (by rw [← measured_eq_of_normal_eq hnormal, hs])
      (by rw [← keyBytes?_eq_of_normal_eq hnormal, hkey]) hq
    obtain ⟨j, hj, hexpr⟩ : ∃ j ∈ q.code, j.expr = i.expr := by
      rw [← List.mem_map, hexprs]
      exact List.mem_map_of_mem hi
    rcases expr_of_compileProcedure hq hj with habsent | hmem
    · rw [← hexpr, habsent]
      rfl
    · rw [Term.quotations_respell] at hmem
      obtain ⟨d, -, hd⟩ := List.mem_map.mp hmem
      rw [← hexpr, ← hd]
      refine isRigid_respell (Nat.le_of_eq ?_)
      rw [hd, hexpr, hlong]
  · intro hrigid g' t name' q ht hkey' hq
    obtain ⟨hnormal, hagree⟩ := agree_of_keyBytes hs ht hkey hkey'
    obtain ⟨q', hq', -, hcode⟩ := exists_compileProcedure_of_normal_eq hnormal hagree hp name'
    obtain rfl : q = q' := Except.ok.inj (hq.symm.trans hq')
    rw [code_eq_of_normal_eq hcode hrigid]

/-- A call on a number and a quoted function that names its binder. -/
def handOver : Term :=
  .app (.global "add") [.nat 2, .quote (.lam "z" (.var 0))]

theorem handOver_exprs_eq :
    ∃ bytes p, keyBytes? handOver onlyAdd.table onlyAdd.analyzers = some bytes ∧
      compileProcedure onlyAdd "f" handOver = .ok p ∧
      p.code.map Instr.expr = [.lam "z" (.var 0), .absent, .absent, .absent] ∧
      ∀ (g' : Globals) (t : Term) (name' : String) (q : Procedure), measured t = true →
        keyBytes? t g'.table g'.analyzers = some bytes → compileProcedure g' name' t = .ok q →
        q.code.map Instr.expr = p.code.map Instr.expr := by
  have hkey : keyBytes? handOver onlyAdd.table onlyAdd.analyzers
      = some ((keyBytes? handOver onlyAdd.table onlyAdd.analyzers).getD []) := by decide +kernel
  have hp : compileProcedure onlyAdd "f" handOver = .ok ⟨"f", 0, [.quotation (.lam "z" (.var 0)),
      .literal 2, .invoke .invokeBuiltin 0, .ret]⟩ :=
    Result.eq_ok_of_toOption (by decide +kernel)
  refine ⟨_, _, hkey, hp, rfl, ?_⟩
  exact (exprs_eq_of_keyBytes_iff (by decide +kernel) hkey hp).mpr (by decide +kernel)

/-- A quoted free local. -/
def quotedLocal (name : String) : Term :=
  .quote (.fvar 7 name)

/-- Code under one key that carries two spellings of a quoted term. -/
theorem quotedLocal_exprs_ne :
    ∃ bytes p q, keyBytes? (quotedLocal "x") .empty none = some bytes ∧
      keyBytes? (quotedLocal "y") .empty none = some bytes ∧
      compileProcedure ⟨.empty, none⟩ "a" (quotedLocal "x") = .ok p ∧
      compileProcedure ⟨.empty, none⟩ "b" (quotedLocal "y") = .ok q ∧
      p.code.map Instr.expr = [.fvar 7 "x", .absent] ∧
      q.code.map Instr.expr = [.fvar 7 "y", .absent] := by
  refine ⟨(keyBytes? (quotedLocal "x") .empty none).getD [],
    ⟨"a", 0, [.quotation (.fvar 7 "x"), .ret]⟩, ⟨"b", 0, [.quotation (.fvar 7 "y"), .ret]⟩,
    by decide +kernel, by decide +kernel, ?_, ?_, rfl, rfl⟩
  · exact Result.eq_ok_of_toOption (by decide +kernel)
  · exact Result.eq_ok_of_toOption (by decide +kernel)

end TermVM.Fingerprint
