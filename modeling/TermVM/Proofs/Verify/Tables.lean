/-
  TermVM.Proofs.Verify.Tables

  Verification of one procedure against two tables.

  Code asks the table for the records at the positions it holds, and for
  nothing else.  Where the rules of the instructions that control arrives at
  give the same answers, so does verification (`analyze_congr`), also when the
  instructions are changed one by one.

  A record may take another arity while the code that calls it stays.  A call
  then leaves more or fewer values on the stack than it did, and this drift
  adds up along the way: `Route` follows it.  Nothing drifts where calls find
  the arities they were made for (`analyze_of_serves`), and code that returns
  after a drift is refused (`drift_eq_zero_of_return`).
-/
import TermVM.Proofs.Verify.Exactness

namespace TermVM.Verify

variable {home now : DeclTable} {p : Procedure} {e : Edge} {i : Instr}

/-! ## Equal rules -/

/-- An instruction whose rule gives edges has the operands that the rule reads. -/
theorem furnished_of_edges {table : DeclTable} {arity : UInt32} {size pc : Nat} {depth : Int}
    {es : List Edge} (h : edges table arity size pc depth i = .ok es) : Furnished i := by
  constructor
  · intro hop hnil
    simp [edges, hop, hnil] at h
  · intro hop hnil
    simp only [edges, hop, hnil] at h
    split at h <;> cases h

/-- The rule of an instruction runs into nothing but an operand that is not there. -/
theorem not_furnished_of_edges {table : DeclTable} {arity : UInt32} {size pc : Nat} {depth : Int}
    {f : Fault} (h : edges table arity size pc depth i = .error (.fault f)) :
    f = .missingElement ∧ ¬Furnished i := by
  unfold edges at h
  cases hop : i.op with
  | undefined code hcode =>
    rw [hop] at h
    cases h
  | named m =>
    rw [hop] at h
    cases m with
    | goto =>
      cases htargets : i.targets with
      | nil =>
        rw [htargets] at h
        cases h
        exact ⟨rfl, fun hf => hf.1 hop htargets⟩
      | cons t ts =>
        rw [htargets] at h
        dsimp only at h
        split at h <;> cases h
    | destruct =>
      dsimp only at h
      split at h
      · cases h
      · cases hfields : i.fields with
        | nil =>
          rw [hfields] at h
          cases h
          exact ⟨rfl, fun hf => hf.2 hop hfields⟩
        | cons f fs =>
          rw [hfields] at h
          cases h
    | cases2 | casesN | natCases | builtinCases =>
      dsimp only at h
      split at h
      · cases h
      · split at h
        · cases h
        · cases hes : dispatchEdges size pc depth i.targets i.fields <;> rw [hes] at h <;> cases h
    | invokeGlobal | invokeBuiltin | invokeNative | closure =>
      dsimp only [edges.invoke] at h
      split at h
      · cases h
      · split at h
        · cases h
        · split at h <;> cases h
    | scnstr | num | expr | unreachable => cases h
    | _ =>
      dsimp only at h
      split at h <;> cases h

/-- The rules of the instructions that control arrives at give the same edges when the instructions
    are changed and the table is another one. -/
def SameRules (f : Instr → Instr) (home now : DeclTable) (p : Procedure) : Prop :=
  ∀ e i es, Reaches home p e → p.code[e.pc]? = some i →
    edges home p.arity p.code.length e.pc e.depth i = .ok es →
    edges now p.arity p.code.length e.pc e.depth (f i) = .ok es

theorem drain_congr {f : Instr → Instr} (hsame : SameRules f home now p) {steps : Nat}
    {marks final : Marks} {work : List Edge} (hwork : ∀ e ∈ work, Reaches home p e)
    (hdrain : drain home p p.code.toArray steps marks work = .ok final) :
    drain now { p with code := p.code.map f } (p.code.map f).toArray steps marks work
      = .ok final := by
  induction steps generalizing marks work with
  | zero =>
    cases work with
    | nil => exact hdrain
    | cons e work => cases hdrain
  | succ steps ih =>
    cases work with
    | nil => exact hdrain
    | cons e work =>
      obtain ⟨hreach, hrest⟩ := List.forall_mem_cons.mp hwork
      unfold drain at hdrain ⊢
      rw [List.getElem?_toArray, List.size_toArray] at hdrain ⊢
      rw [List.getElem?_map, List.length_map]
      cases hi : p.code[e.pc]? with
      | none => simp [hi] at hdrain
      | some i =>
        rw [hi] at hdrain
        cases hm : marks[e.pc]?.join with
        | some seen =>
          simp only [hm, Option.map_some] at hdrain ⊢
          split at hdrain
          · cases hdrain
          · next hseen =>
            rw [if_neg hseen]
            exact ih hrest hdrain
        | none =>
          simp only [hm, Option.map_some] at hdrain ⊢
          cases hes : edges home p.arity p.code.length e.pc e.depth i with
          | error stop => cases stop <;> simp [hes] at hdrain
          | ok es =>
            rw [hes] at hdrain
            rw [hsame e i es hreach hi hes]
            refine ih ?_ hdrain
            -- the edges found are steps of control from a point that it arrives at
            have hexits := ((edges_eq_ok_iff (furnished_of_edges hes)).mp hes).2
            intro e' he'
            rcases List.mem_append.mp he' with he' | he'
            · exact hreach.tail ⟨i, hi, hexits ▸ List.mem_reverse.mp he'⟩
            · exact hrest e' he'

theorem stepBound_map {f : Instr → Instr} (hf : ∀ i, edgeCount (f i) = edgeCount i) (code : Code) :
    stepBound (code.map f) = stepBound code := by
  simp only [stepBound, List.foldr_map, hf]

/-- Verification gives the same depths when the rules give the same edges. -/
theorem analyze_congr {f : Instr → Instr} (hf : ∀ i, edgeCount (f i) = edgeCount i)
    (hsame : SameRules f home now p) {a : Analysis} (ha : analyze home p = .ok a) :
    analyze now { p with code := p.code.map f } = .ok a := by
  obtain ⟨marks, hmarks, hdepths⟩ := Result.bind_eq_ok.mp ha
  have hentry : ∀ e ∈ [(⟨0, p.arity.toNat⟩ : Edge)], Reaches home p e := by
    intro e he
    rw [List.mem_singleton.mp he]
    exact Relation.ReflTransGen.refl
  have hdrain := drain_congr hsame hentry hmarks
  unfold analyze
  rw [stepBound_map hf, List.length_map]
  exact Result.bind_eq_ok.mpr ⟨marks, hdrain, hdepths⟩

/-! ## Records that took another arity -/

/-- Every position of a table still has a record of the same kind. -/
def Retains (home now : DeclTable) : Prop :=
  ∀ index d, home.at? index = some d → ∃ d', now.at? index = some d' ∧ d'.kind = d.kind

/-- An instruction finds what it was made for: a call finds a record that takes as many arguments
    as it did, a partial application finds one that still lacks arguments. -/
def Serves (home now : DeclTable) (i : Instr) : Prop :=
  match i.op with
  | .named .invokeGlobal | .named .invokeBuiltin | .named .invokeNative =>
      (now.at? i.a).map (·.arity) = (home.at? i.a).map (·.arity)
  | .named .closure => ∀ d ∈ now.at? i.a, i.b < d.arity
  | _ => True

theorem invoke_of_serves (hretains : Retains home now) {m : Mnemonic} {pc : Nat} {depth : Int}
    {es : List Edge} (harity : (now.at? i.a).map (·.arity) = (home.at? i.a).map (·.arity))
    (h : edges.invoke home depth i m (fun d => .ok [⟨pc + 1, d⟩]) (fun q => .error (.problem q))
      = .ok es) :
    edges.invoke now depth i m (fun d => .ok [⟨pc + 1, d⟩]) (fun q => .error (.problem q))
      = .ok es := by
  obtain ⟨⟨d, hd, hkind, hdepth⟩, hes⟩ := invoke_eq_ok_iff.mp h
  obtain ⟨d', hd', hkind'⟩ := hretains i.a d hd
  have harity : d'.arity = d.arity := by simpa [hd, hd'] using harity
  refine invoke_eq_ok_iff.mpr ⟨⟨d', hd', hkind'.trans hkind, harity ▸ hdepth⟩, ?_⟩
  rw [hes, hd, hd', Option.map_some, Option.map_some, harity]

theorem edges_of_serves (hretains : Retains home now) (hserves : Serves home now i)
    {arity : UInt32} {size pc : Nat} {depth : Int} {es : List Edge}
    (h : edges home arity size pc depth i = .ok es) :
    edges now arity size pc depth i = .ok es := by
  unfold Serves at hserves
  unfold edges at h ⊢
  cases hop : i.op with
  | undefined code hcode => simp [hop] at h
  | named m =>
    rw [hop] at h hserves
    cases m with
    | invokeGlobal | invokeBuiltin | invokeNative => exact invoke_of_serves hretains hserves h
    | closure =>
      cases hd : home.at? i.a with
      | none => simp [hd] at h
      | some d =>
        obtain ⟨d', hd', -⟩ := hretains i.a d hd
        have hlacks : ¬d'.arity ≤ i.b := UInt32.not_le.mpr (hserves d' hd')
        simp only [hd] at h
        simp only [hd', if_neg hlacks]
        split at h
        · cases h
        · exact h
    | _ => exact h

/-- Code passes against a table that serves every instruction that control arrives at. -/
theorem analyze_of_serves (hretains : Retains home now)
    (hserves : ∀ e i, Reaches home p e → p.code[e.pc]? = some i → Serves home now i)
    {a : Analysis} (ha : analyze home p = .ok a) : analyze now p = .ok a := by
  have hsame : SameRules id home now p := fun e i _ he hi h =>
    edges_of_serves hretains (hserves e i he hi) h
  simpa using analyze_congr (fun _ => rfl) hsame ha

/-! ## Drift -/

/-- The number of arguments that the record at a position takes. -/
def arityAt (table : DeclTable) (index : UInt32) : Int :=
  ((table.at? index).map fun d => (d.arity.toNat : Int)).getD 0

/-- How many values more an instruction leaves on the stack than it did: a call that takes fewer
    arguments leaves the others. -/
def surplus (home now : DeclTable) (i : Instr) : Int :=
  match i.op with
  | .named .invokeGlobal | .named .invokeBuiltin | .named .invokeNative =>
      arityAt home i.a - arityAt now i.a
  | _ => 0

/-- A way of control through code, as the first table has it, with the drift of the depth that the
    second table makes on this way. -/
inductive Route (home now : DeclTable) (p : Procedure) : Edge → Int → Prop where
  | entry : Route home now p (entry p) 0
  | step {e e' : Edge} {i : Instr} {drift : Int} (h : Route home now p e drift)
      (hi : p.code[e.pc]? = some i) (he' : e' ∈ exits home e i) :
      Route home now p e' (drift + surplus home now i)

theorem change_now (hretains : Retains home now) {c : Int} (h : change home i = some c) :
    change now i = some (c + surplus home now i) := by
  -- only calls look at the table
  have hcall : ∀ d, home.at? i.a = some d → 1 - (d.arity.toNat : Int) = c →
      (now.at? i.a).map (fun d => 1 - (d.arity.toNat : Int))
        = some (c + (arityAt home i.a - arityAt now i.a)) := by
    intro d hd hc
    obtain ⟨d', hd', -⟩ := hretains i.a d hd
    simp only [arityAt, hd, hd', Option.map_some, Option.getD_some, Option.some.injEq]
    omega
  unfold change at h ⊢
  unfold surplus
  cases hop : i.op with
  | undefined code hcode => simp [hop] at h
  | named m =>
    simp only [hop] at h ⊢
    cases m with
    | invokeGlobal | invokeBuiltin | invokeNative =>
      obtain ⟨d, hd, hc⟩ := Option.map_eq_some_iff.mp h
      exact hcall d hd hc
    | _ =>
      rw [Int.add_zero]
      exact h

/-- One step of control leads to the same position for both tables, and the drift grows by what the
    instruction leaves. -/
theorem mem_exits_now (hretains : Retains home now) {e e' : Edge} {drift : Int}
    (h : e' ∈ exits home e i) :
    ⟨e'.pc, e'.depth + (drift + surplus home now i)⟩ ∈ exits now ⟨e.pc, e.depth + drift⟩ i := by
  unfold exits at h ⊢
  by_cases hgoto : i.op = .named .goto
  · rw [if_pos hgoto] at h ⊢
    obtain ⟨t, ht, rfl⟩ := List.mem_map.mp h
    have hnone : surplus home now i = 0 := by simp [surplus, hgoto]
    exact List.mem_map.mpr ⟨t, ht, by simp [hnone]⟩
  · rw [if_neg hgoto] at h ⊢
    by_cases hdispatch : dispatches i.op = true
    · rw [if_pos hdispatch] at h ⊢
      obtain ⟨tf, htf, rfl⟩ := List.mem_map.mp h
      have hnone : surplus home now i = 0 := by
        unfold dispatches at hdispatch
        unfold surplus
        split at hdispatch <;> simp_all
      refine List.mem_map.mpr ⟨tf, htf, ?_⟩
      rw [hnone, Edge.mk.injEq]
      exact ⟨rfl, by dsimp only; omega⟩
    · rw [if_neg hdispatch] at h ⊢
      obtain ⟨c, hc, rfl⟩ := List.mem_map.mp h
      have hnow := change_now hretains (Option.mem_toList.mp hc)
      refine List.mem_map.mpr ⟨_, Option.mem_toList.mpr hnow, ?_⟩
      rw [Edge.mk.injEq]
      exact ⟨rfl, by dsimp only; omega⟩

theorem Route.reaches {drift : Int} (h : Route home now p e drift) : Reaches home p e := by
  induction h with
  | entry => exact .refl
  | step _ hi he' ih => exact ih.tail ⟨_, hi, he'⟩

theorem Route.reaches_now (hretains : Retains home now) {drift : Int}
    (h : Route home now p e drift) : Reaches now p ⟨e.pc, e.depth + drift⟩ := by
  induction h with
  | entry =>
    rw [Int.add_zero]
    exact .refl
  | step _ hi he' ih => exact ih.tail ⟨_, hi, mem_exits_now hretains he'⟩

theorem disciplined_of_analyze {table : DeclTable} (hf : ∀ i ∈ p.code, Furnished i) {a : Analysis}
    (ha : analyze table p = .ok a) : Disciplined table p := by
  rw [analyze_eq_analyzeBy] at ha
  exact (analyzeBy_sound rearranges_self hf ha).1

/-- Code that passes against both tables returns without a drift. -/
theorem drift_eq_zero_of_return (hretains : Retains home now) (hf : ∀ i ∈ p.code, Furnished i)
    {a a' : Analysis} (ha : analyze home p = .ok a) (ha' : analyze now p = .ok a') {drift : Int}
    (hroute : Route home now p e drift) (hi : p.code[e.pc]? = some i)
    (hret : i.op = .named .ret) : drift = 0 := by
  have hhome := (disciplined_of_analyze hf ha).admits e hroute.reaches
  have hnow := (disciplined_of_analyze hf ha').admits _ (hroute.reaches_now hretains)
  simp only [hi, Option.some.injEq, exists_eq_left', Admits, hret] at hhome hnow
  omega

end TermVM.Verify
