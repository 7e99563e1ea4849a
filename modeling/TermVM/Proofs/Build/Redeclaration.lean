/-
  TermVM.Proofs.Build.Redeclaration

  Names that are declared again with another number of parameters.

  A name that is declared again keeps its position and takes the arity of its
  new term; the code of its callers stays installed as it is.  A batch that is
  compiled with verification verifies its own code, and that code only.  So
  every procedure in a table has passed against the table that its own batch
  left, and passes against a later one as long as what it calls still takes
  the arguments it was called with.  A caller whose calls make the depth drift
  before it returns does not pass any more: `redeclared_code_verifies`, and
  `fourfold_rejected` for a batch that succeeds and leaves such a caller.
-/
import TermVM.Proofs.Build.Validity

namespace TermVM

open Relation Result

/-! ## Positions -/

namespace DeclTable

variable {t t' : DeclTable}

theorem Change.retains (h : Change t t') : Verify.Retains t t' := by
  -- a row that is changed in place keeps its kind
  have hmodify : ∀ (name : String) (f : Row → Row), (∀ r, (f r).decl.kind = r.decl.kind) →
      Verify.Retains t (t.modify name f) := by
    intro name f hf index d hd
    obtain ⟨r, hr, rfl⟩ := Option.map_eq_some_iff.mp hd
    refine ⟨(if r.decl.name == name then f r else r).decl, ?_, ?_⟩
    · simp only [at?, modify, List.getElem?_map, hr, Option.map_some]
    · split
      · exact hf r
      · rfl
  cases h with
  | added hnew hkind =>
    intro index d hd
    obtain ⟨r, hr, rfl⟩ := Option.map_eq_some_iff.mp hd
    have hlt := (List.getElem?_eq_some_iff.mp hr).1
    refine ⟨r.decl, ?_, rfl⟩
    rw [at?, append, List.getElem?_append_left hlt, hr]
    rfl
  | reservedAgain hd hkind => exact hmodify _ _ fun _ => rfl
  | installed hd hkind harity => exact hmodify _ _ fun _ => rfl

theorem retains_of_changes (h : ReflTransGen Change t t') : Verify.Retains t t' := by
  induction h with
  | refl => exact fun _ d hd => ⟨d, hd, rfl⟩
  | tail _ hchange ih =>
    intro index d hd
    obtain ⟨d₁, hd₁, hkind₁⟩ := ih index d hd
    obtain ⟨d₂, hd₂, hkind₂⟩ := hchange.retains index d₁ hd₁
    exact ⟨d₂, hd₂, hkind₂.trans hkind₁⟩

end DeclTable

namespace Build

open DeclTable Verify

/-! ## Batches with a store -/

section

variable {s : Settings} {interrupt : Option Interrupt} {store : Option Store} {t : DeclTable}

/-- Wherever its code comes from, a body that was compiled has been finished. -/
theorem finish_of_compileBodies {tasks : List (Declaration × UInt32)} {bodies : List Body}
    (h : (compileBodies s interrupt t store tasks).2 = .ok bodies) :
    ∀ b ∈ bodies, ∃ d arity p hit, finish s t d arity p hit = .ok b := by
  induction tasks generalizing interrupt store bodies with
  | nil =>
    cases h
    exact fun _ hb => absurd hb List.not_mem_nil
  | cons task tasks ih =>
    obtain ⟨d, arity⟩ := task
    cases interrupt with
    | some why => cases h
    | none =>
      rw [compileBodies] at h
      cases hbody : compileBody s store t d arity with
      | mk store' result =>
        rw [hbody] at h
        cases result with
        | error e => cases h
        | ok b =>
          dsimp only at h
          cases hrest : (compileBodies s none t store' tasks).2 with
          | error e =>
            rw [hrest] at h
            cases h
          | ok rest =>
            rw [hrest] at h
            obtain rfl : b :: rest = bodies := Except.ok.inj h
            refine List.forall_mem_cons.mpr ⟨?_, ih hrest⟩
            have hfinish : (bodyCode s store t d).2.bind
                (fun code => finish s t d arity code.1 code.2) = .ok b :=
              congrArg Prod.snd hbody
            obtain ⟨⟨p, hit⟩, -, hb⟩ := bind_eq_ok.mp hfinish
            exact ⟨d, arity, p, hit, hb⟩

/-- A batch that is compiled with verification installs code that passes against the table it
    leaves, whatever store and optimizer it went through. -/
theorem analyze_of_verified {batch : List Declaration} {o : Outcome} (hverify : s.verify = true)
    (hrun : (run s interrupt store t batch).outcome = .ok o) {p : Procedure}
    (hp : p ∈ o.procedures) : ∃ a, analyze o.table p = .ok a := by
  rw [outcome_run] at hrun
  obtain ⟨reserved, -, hrun⟩ := bind_eq_ok.mp hrun
  obtain ⟨bodies, hbodies, hconclude⟩ := bind_eq_ok.mp hrun
  obtain ⟨htable, hprocedures, -⟩ := install_eq_ok.mp (conclude_eq_ok.mp hconclude).2
  rw [hprocedures] at hp
  obtain ⟨b, hb, rfl⟩ := List.mem_map.mp hp
  obtain ⟨d, arity, q, hit, hfinish⟩ := finish_of_compileBodies hbodies b hb
  obtain ⟨-, hchecked, rfl⟩ := finish_eq_ok.mp hfinish
  obtain ⟨a, ha⟩ := hchecked hverify
  exact ⟨a, analyze_of_grows (grows_of_install htable) ha⟩

theorem changes_of_run {batch : List Declaration} {o : Outcome}
    (hrun : (run s interrupt store t batch).outcome = .ok o) :
    ReflTransGen Change t o.table := by
  obtain ⟨reserved, hreserve, hinstall⟩ := tables_of_run hrun
  exact (changes_of_reserve (reserve_eq_ok.mp hreserve).2).trans (changes_of_install hinstall)

/-- What is installed after a batch was installed by it, or before. -/
theorem holds_of_run {batch : List Declaration} {o : Outcome}
    (hrun : (run s interrupt store t batch).outcome = .ok o) {p : Procedure}
    (hp : o.table.Holds p) : p ∈ o.procedures ∨ t.Holds p := by
  rw [outcome_run] at hrun
  obtain ⟨reserved, hreserve, hrun⟩ := bind_eq_ok.mp hrun
  obtain ⟨bodies, -, hconclude⟩ := bind_eq_ok.mp hrun
  obtain ⟨htable, hprocedures, -⟩ := install_eq_ok.mp (conclude_eq_ok.mp hconclude).2
  rw [hprocedures]
  exact (holds_of_install htable hp).imp_right (holds_of_reserve (reserve_eq_ok.mp hreserve).2)

end

/-! ## Runs with verification -/

/-- A batch is compiled with verification, whatever the other settings, the store and the interrupt
    are: the code that it installs and the table that it leaves. -/
inductive VerifiedBatch (t : DeclTable) : List Procedure → DeclTable → Prop where
  | intro {s : Settings} {interrupt : Option Interrupt} {store : Option Store}
      {batch : List Declaration} {o : Outcome} (hverify : s.verify = true)
      (hrun : (run s interrupt store t batch).outcome = .ok o) :
      VerifiedBatch t o.procedures o.table

/-- Batches compiled with verification lead from one table to another. -/
def VerifiedRun : DeclTable → DeclTable → Prop :=
  ReflTransGen fun t t' => ∃ procedures, VerifiedBatch t procedures t'

/-- A run installed a procedure with the batch that left the table `home`. -/
def Issued (start home : DeclTable) (p : Procedure) : Prop :=
  ∃ before procedures, VerifiedRun start before ∧ VerifiedBatch before procedures home ∧
    p ∈ procedures

section

variable {start home now : DeclTable} {p : Procedure}

theorem VerifiedBatch.analyze {t t' : DeclTable} {procedures : List Procedure}
    (h : VerifiedBatch t procedures t') (hp : p ∈ procedures) :
    ∃ a, Verify.analyze t' p = .ok a := by
  cases h with
  | intro hverify hrun => exact analyze_of_verified hverify hrun hp

theorem VerifiedRun.retains (h : VerifiedRun home now) : Retains home now := by
  refine retains_of_changes ?_
  induction h with
  | refl => exact .refl
  | tail _ hbatch ih =>
    obtain ⟨procedures, ⟨-, hrun⟩⟩ := hbatch
    exact ih.trans (changes_of_run hrun)

/-- Every procedure that a run leaves was installed by one of its batches. -/
theorem VerifiedRun.issued (hbare : ∀ r ∈ start.rows, r.proc = none) (h : VerifiedRun start now)
    (hp : now.Holds p) : ∃ home, Issued start home p ∧ VerifiedRun home now := by
  induction h with
  | refl =>
    obtain ⟨r, hr, hproc⟩ := hp
    rw [hbare r hr] at hproc
    cases hproc
  | @tail t t' hrun hbatch ih =>
    obtain ⟨procedures, hbatch⟩ := hbatch
    have hfrom : p ∈ procedures ∨ t.Holds p := by
      cases hbatch with
      | intro _ hrun => exact holds_of_run hrun hp
    rcases hfrom with hmem | hold
    · exact ⟨t', ⟨t, procedures, hrun, hbatch, hmem⟩, .refl⟩
    · obtain ⟨home, hissued, hafter⟩ := ih hold
      exact ⟨home, hissued, hafter.tail ⟨procedures, hbatch⟩⟩

end

/-- Code after a re-declaration.  Let batches compiled with verification lead from a table without
    code to `t`, and let one more succeed, whichever names it declares again and with however many
    parameters.  The code of this batch passes against the table it leaves, and all other code was
    installed by an earlier batch and has passed against the table `home` that this batch left.  It
    passes still if every instruction that control arrives at finds what it was made for; and it
    does not pass if control can come to a return after calls which, taken together, no longer take
    what they took. -/
theorem redeclared_code_verifies {start t : DeclTable} (hbare : ∀ r ∈ start.rows, r.proc = none)
    (hbefore : VerifiedRun start t) {s : Settings} (hverify : s.verify = true)
    {interrupt : Option Interrupt} {store : Option Store} {batch : List Declaration} {o : Outcome}
    (hrun : (run s interrupt store t batch).outcome = .ok o) :
    (∀ p ∈ o.procedures, ∃ a, analyze o.table p = .ok a) ∧
      ∀ r ∈ o.table.rows, ∀ p, r.proc = some p →
        (∃ home, Issued start home p ∧ VerifiedRun home o.table) ∧
        ∀ home, Issued start home p → VerifiedRun home o.table →
          (∃ a, analyze home p = .ok a) ∧
          ((∀ e i, Reaches home p e → p.code[e.pc]? = some i → Serves home o.table i) →
            ∃ a, analyze o.table p = .ok a) ∧
          ((∀ i ∈ p.code, Furnished i) → ∀ e i drift, Route home o.table p e drift →
            p.code[e.pc]? = some i → i.op = .named .ret → drift ≠ 0 →
            ∀ a, analyze o.table p ≠ .ok a) := by
  refine ⟨fun p hp => analyze_of_verified hverify hrun hp, ?_⟩
  intro r hr p hp
  have hall : VerifiedRun start o.table := hbefore.tail ⟨_, .intro hverify hrun⟩
  refine ⟨hall.issued hbare ⟨r, hr, hp⟩, ?_⟩
  rintro home ⟨before, procedures, -, hbatch, hmem⟩ hafter
  obtain ⟨a, ha⟩ := hbatch.analyze hmem
  refine ⟨⟨a, ha⟩, ?_, ?_⟩
  · exact fun hserves => ⟨a, analyze_of_serves hafter.retains hserves ha⟩
  · intro hf e i drift hroute hi hret hdrift a' ha'
    exact hdrift (drift_eq_zero_of_return hafter.retains hf ha ha' hroute hi hret)

/-- A function of one argument is declared again with two, beside one that calls it so. -/
def doubleOfTwo : List Declaration :=
  [⟨"double", .lam "m" (.lam "n" (.app (.global "add") [.var 1, .var 0]))⟩,
   ⟨"eightfold", .lam "n" (.app (.global "double")
     [.app (.global "fourfold") [.var 0], .app (.global "fourfold") [.var 0]])⟩]

/-- The code that was generated when `double` took one argument. -/
def fourfold : Procedure :=
  ⟨"fourfold", 1, [.push 0, .invoke .invokeGlobal 1, .invoke .invokeGlobal 1, .ret]⟩

/-- The table after `double` was declared again. -/
def withDoubleOfTwo : DeclTable :=
  ⟨[⟨⟨"add", 2, .native, 0⟩, none⟩,
    ⟨⟨"double", 2, .compiled, 1⟩,
      some ⟨"double", 2, [.push 0, .push 1, .invoke .invokeNative 0, .ret]⟩⟩,
    ⟨⟨"fourfold", 1, .compiled, 2⟩, some fourfold⟩,
    ⟨⟨"eightfold", 1, .compiled, 3⟩,
      some ⟨"eightfold", 1, [.push 0, .invoke .invokeGlobal 2, .push 0, .invoke .invokeGlobal 2,
        .invoke .invokeGlobal 1, .ret]⟩⟩]⟩

theorem run_multiples : ∃ o, (run { Settings.plain with verify := true } none none onlyAddition
    multiples).outcome = .ok o ∧ o.table = withMultiples ∧ fourfold ∈ o.procedures := by
  have hrun : (run { Settings.plain with verify := true } none none onlyAddition
      multiples).outcome.toOption.map (fun o => (o.table, o.procedures[1]?))
      = some (withMultiples, some fourfold) := by decide +kernel
  obtain ⟨o, ho, hfacts⟩ := Option.map_eq_some_iff.mp hrun
  obtain ⟨htable, hprocedure⟩ := Prod.mk.inj hfacts
  exact ⟨o, eq_ok_of_toOption ho, htable, List.mem_of_getElem? hprocedure⟩

theorem reachable_withMultiples : withMultiples.Reachable := by
  obtain ⟨o, hrun, htable, -⟩ := run_multiples
  rw [← htable]
  exact reachable_of_run (@DeclTable.Reachable.declare .empty _ "add" 2 .native .empty rfl) hrun

theorem run_doubleOfTwo : ∃ o, (run { Settings.plain with verify := true } none none withMultiples
    doubleOfTwo).outcome = .ok o ∧ o.table = withDoubleOfTwo := by
  have hrun : (run { Settings.plain with verify := true } none none withMultiples
      doubleOfTwo).outcome.toOption.map (·.table) = some withDoubleOfTwo := by decide +kernel
  obtain ⟨o, ho, htable⟩ := Option.map_eq_some_iff.mp hrun
  exact ⟨o, eq_ok_of_toOption ho, htable⟩

/-- `double` is declared again with two parameters instead of one, and `fourfold`, which calls it
    twice, stays installed: what was called with one argument takes two, so that two values are
    missing at the return. -/
theorem fourfold_refused :
    (∀ r ∈ onlyAddition.rows, r.proc = none) ∧ VerifiedRun onlyAddition withMultiples ∧
      ∃ o, (run { Settings.plain with verify := true } none none withMultiples
          doubleOfTwo).outcome = .ok o ∧
        (∀ p ∈ o.procedures, ∃ a, analyze o.table p = .ok a) ∧
        (∃ a, analyze withMultiples fourfold = .ok a) ∧
        ∀ a, analyze o.table fourfold ≠ .ok a := by
  have hbare : ∀ r ∈ onlyAddition.rows, r.proc = none := by decide
  obtain ⟨o₁, hrun₁, htable₁, hmem⟩ := run_multiples
  have hbatch₁ : VerifiedBatch onlyAddition o₁.procedures withMultiples :=
    htable₁ ▸ VerifiedBatch.intro rfl hrun₁
  have hbefore : VerifiedRun onlyAddition withMultiples := .single ⟨_, hbatch₁⟩
  obtain ⟨o, hrun, htable⟩ := run_doubleOfTwo
  obtain ⟨hown, hall⟩ := redeclared_code_verifies hbare hbefore rfl hrun
  rw [htable] at hown hall
  have hafter : VerifiedRun withMultiples withDoubleOfTwo :=
    htable ▸ ReflTransGen.single ⟨_, .intro rfl hrun⟩
  obtain ⟨hpassed, -, hrefused⟩ :=
    (hall ⟨⟨"fourfold", 1, .compiled, 2⟩, some fourfold⟩ (by decide) fourfold rfl).2
      withMultiples ⟨onlyAddition, _, .refl, hbatch₁, hmem⟩ hafter
  -- each of the two calls leaves one value less than it did
  have hpush : Route withMultiples withDoubleOfTwo fourfold ⟨1, 2⟩ (0 + 0) :=
    .step (i := .push 0) .entry rfl (by decide)
  have hcall : Route withMultiples withDoubleOfTwo fourfold ⟨2, 2⟩ (0 + 0 + -1) :=
    .step (i := .invoke .invokeGlobal 1) hpush rfl (by decide)
  have hroute : Route withMultiples withDoubleOfTwo fourfold ⟨3, 2⟩ (0 + 0 + -1 + -1) :=
    .step (i := .invoke .invokeGlobal 1) hcall rfl (by decide)
  refine ⟨hbare, hbefore, o, hrun, htable ▸ hown, hpassed, ?_⟩
  rw [htable]
  exact hrefused (by decide) ⟨3, 2⟩ .ret _ hroute rfl rfl (by decide)

/-- A batch that succeeds with verification, and leaves code that verification rejects. -/
theorem fourfold_rejected :
    ∃ o₁ o₂, (run { Settings.plain with verify := true } none none onlyAddition
        multiples).outcome = .ok o₁ ∧
      (run { Settings.plain with verify := true } none none o₁.table doubleOfTwo).outcome = .ok o₂ ∧
      o₁.table.lookup? "double" = some ⟨"double", 1, .compiled, 1⟩ ∧
      o₂.table.lookup? "double" = some ⟨"double", 2, .compiled, 1⟩ ∧
      o₂.table.procedure? "fourfold" = some fourfold ∧
      analyze o₂.table fourfold
        = .error (.rejected ⟨"fourfold", 2, .missingArguments "double" 2 1⟩) := by
  obtain ⟨o₁, hrun₁, htable₁, -⟩ := run_multiples
  obtain ⟨o₂, hrun₂, htable₂⟩ := run_doubleOfTwo
  refine ⟨o₁, o₂, hrun₁, htable₁ ▸ hrun₂, ?_⟩
  rw [htable₁, htable₂]
  exact ⟨by decide, by decide, by decide, rfl⟩

end Build

end TermVM
