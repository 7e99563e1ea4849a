/-
  TermVM.Proofs.Verify.Renumbering

  Verification against a table with other indices.

  Of the record that an instruction refers to, verification looks at the kind
  and the arity.  Code whose indices follow the records to where they stand in
  another table passes against that table when it passed before, with the same
  depths: `analyze_of_moves`.
-/
import TermVM.Proofs.Outline.Reindexing
import TermVM.Proofs.Verify.Tables

namespace TermVM

/-- Every record of the first table stands in the second, at the changed index. -/
def DeclTable.Moves (ρ : UInt32 → UInt32) (t t' : DeclTable) : Prop :=
  ∀ index d, t.at? index = some d → t'.at? (ρ index) = some (d.reindex ρ)

namespace Verify

variable {ρ : UInt32 → UInt32} {t t' : DeclTable}

theorem edges_of_moves (h : t.Moves ρ t') {arity : UInt32} {size pc : Nat} {depth : Int}
    {i : Instr} {es : List Edge} (he : edges t arity size pc depth i = .ok es) :
    edges t' arity size pc depth (i.reindex ρ) = .ok es := by
  cases hrefers : i.refers with
  | false =>
    -- the rule of an instruction without an index does not look at the table
    rw [Instr.reindex_of_not_refers hrefers]
    unfold edges at he ⊢
    cases hop : i.op with
    | undefined code hcode => simp [hop] at he
    | named m =>
      rw [hop] at he
      cases m with
      | invokeGlobal | invokeBuiltin | invokeNative | closure => simp [Instr.refers, hop] at hrefers
      | _ => exact he
  | true =>
    -- a rule that gives edges has found the record it asks for
    have hinvoke : ∀ (m : Mnemonic) (next : Int → Except Stop (List Edge)),
        edges.invoke t depth i m next (fun q => .error (.problem q)) = .ok es →
        edges.invoke t' depth { i with a := ρ i.a } m next (fun q => .error (.problem q))
          = .ok es := by
      intro m next hm
      unfold edges.invoke at hm ⊢
      cases hd : t.at? i.a with
      | none => simp [hd] at hm
      | some d =>
        rw [hd] at hm
        dsimp only
        rw [h i.a d hd]
        dsimp only at hm
        split at hm
        · cases hm
        · next hkind =>
          split at hm
          · cases hm
          · next hdepth => exact (if_neg hkind).trans ((if_neg hdepth).trans hm)
    rw [Instr.reindex, if_pos hrefers]
    unfold edges at he ⊢
    dsimp only
    cases hop : i.op with
    | undefined code hcode => simp [hop] at he
    | named m =>
      rw [hop] at he
      cases m with
      | invokeGlobal | invokeBuiltin | invokeNative => exact hinvoke _ _ he
      | closure =>
        cases hd : t.at? i.a with
        | none => simp [hd] at he
        | some d =>
          simp only [hd] at he
          simp only [h i.a d hd]
          exact he
      | _ => simp [Instr.refers, hop] at hrefers

theorem edgeCount_reindex (ρ : UInt32 → UInt32) (i : Instr) :
    edgeCount (i.reindex ρ) = edgeCount i := by
  unfold Instr.reindex
  split <;> rfl

/-- Code that passes against a table passes, with the same depths, where its records were moved to
    and its indices follow them. -/
theorem analyze_of_moves (h : t.Moves ρ t') {p : Procedure} {a : Analysis}
    (ha : analyze t p = .ok a) :
    analyze t' { p with code := p.code.map (Instr.reindex ρ) } = .ok a :=
  analyze_congr (edgeCount_reindex ρ) (fun _ _ _ _ _ he => edges_of_moves h he) ha

end Verify

end TermVM
