/-
  TermVM.Proofs.Grammar.Basic

  The terms that code can be generated for.

  `Compilable g free n t` is a grammar: it says which terms have code in the
  sight of `n` binders, without saying what the code is.  An application is
  looked at through its chain: what its head asks of the arguments decides.
  Whether a free local is bound is a question of identities and not of shape;
  `free` says whether the grammar lets free locals pass or has none.

  Chains may be written as one node or as several: `compilable_flatten`.
-/
import TermVM.Proofs.Balance.Layout
import TermVM.Proofs.Outline.Basic
import TermVM.Proofs.Term.Normal

namespace TermVM

open Codegen

theorem Term.bodyOf_flatten (t : Term) : bodyOf t.flatten = (bodyOf t).flatten := by
  induction t using Term.ind with
  | app fn args ihfn ihargs =>
    rw [Term.flatten_app]
    exact (Term.flatten_app fn args).symm
  | lam binder body ih => exact ih
  | _ => rfl

/-! ## The grammar -/

namespace Codegen

/-- A constant heads a case analysis over a number of alternatives. -/
inductive Announces (g : Globals) : (name : String) → Marker → (alternatives : Nat) → Prop where
  /-- Erasure's own marker says how many there are. -/
  | marked {name : String} {marker : Marker} (h : marker.kind = .cases) :
      Announces g name marker marker.index.toNat
  /-- The eliminator of natural numbers. -/
  | natural {marker : Marker} (h : marker.kind = .plain) : Announces g Term.natCasesOn marker 2
  /-- Any other eliminator that an analyzer is registered for. -/
  | native {name : String} {marker : Marker} {a : Analyzer} (h : marker.kind = .plain)
      (hname : name ≠ Term.natCasesOn) (ha : g.analyzers.bind (·.lookup? name) = some a) :
      Announces g name marker a.alternatives.toNat

/-- The terms that have code in the sight of a number of binders. -/
inductive Compilable (g : Globals) (free : Bool) : (binders : Nat) → Term → Prop where
  | var {n : Nat} {i : UInt32} (h : i.toNat < n) : Compilable g free n (.var i)
  | fvar {n : Nat} {id : UInt64} {name : String} (h : free = true) :
      Compilable g free n (.fvar id name)
  /-- A marked constant that is a value by itself. -/
  | marked {n : Nat} {name : String} {marker : Marker}
      (h : marker.kind ∈ [.neutral, .unreachable, .cnstr]) :
      Compilable g free n (.const name marker)
  | zero {n : Nat} {marker : Marker} (h : marker.kind = .plain) :
      Compilable g free n (.const Term.natZero marker)
  /-- An unmarked constant that the table binds. -/
  | global {n : Nat} {name : String} {marker : Marker} {d : Decl} (h : marker.kind = .plain)
      (hd : g.table.lookup? name = some d) : Compilable g free n (.const name marker)
  | nat {n : Nat} {value : Int} : Compilable g free n (.nat value)
  /-- What is quoted is data, whatever it is. -/
  | quote {n : Nat} {body : Term} : Compilable g free n (.quote body)
  | ann {n : Nat} {name : String} {body : Term} (h : Compilable g free n body) :
      Compilable g free n (.ann name body)
  /-- Every bound value sees the binders before it, the body sees all of them. -/
  | letIn {n : Nat} {bindings : List (String × Term)} {body : Term}
      (hbindings : ∀ j b, bindings[j]? = some b → Compilable g free (n + j) b.2)
      (hbody : Compilable g free (n + bindings.length) body) :
      Compilable g free n (.letIn bindings body)
  /-- Arguments of an erased value or of a dead branch are not looked at. -/
  | inert {n : Nat} {fn : Term} {args : List Term} {name : String} {marker : Marker}
      {operands : List Term} (hspine : (Term.app fn args).spine = (.const name marker, operands))
      (h : marker.kind ∈ [.neutral, .unreachable]) : Compilable g free n (.app fn args)
  | cnstr {n : Nat} {fn : Term} {args : List Term} {name : String} {marker : Marker}
      {operands : List Term} (hspine : (Term.app fn args).spine = (.const name marker, operands))
      (h : marker.kind = .cnstr) (hargs : ∀ a ∈ operands, Compilable g free n a) :
      Compilable g free n (.app fn args)
  /-- A projection has a subject. -/
  | proj {n : Nat} {fn : Term} {args : List Term} {name : String} {marker : Marker}
      {operands : List Term} (hspine : (Term.app fn args).spine = (.const name marker, operands))
      (h : marker.kind = .proj) (hsubject : operands ≠ [])
      (hargs : ∀ a ∈ operands, Compilable g free n a) : Compilable g free n (.app fn args)
  /-- A case analysis has exactly the alternatives it announces, and at least one.  The leading
      lambdas of an alternative bind the fields. -/
  | analysis {n : Nat} {fn : Term} {args : List Term} {name : String} {marker : Marker}
      {major : Term} {alternatives : List Term}
      (hspine : (Term.app fn args).spine = (.const name marker, major :: alternatives))
      (h : Announces g name marker alternatives.length) (hsome : alternatives ≠ [])
      (hmajor : Compilable g free n major)
      (halternatives : ∀ a ∈ alternatives, Compilable g free (n + a.arity) (bodyOf a)) :
      Compilable g free n (.app fn args)
  /-- A call of a global that heads no case analysis. -/
  | call {n : Nat} {fn : Term} {args : List Term} {name : String} {marker : Marker}
      {operands : List Term} {d : Decl}
      (hspine : (Term.app fn args).spine = (.const name marker, operands))
      (h : marker.kind = .plain) (hcase : ∀ m, ¬Announces g name marker m)
      (hd : g.table.lookup? name = some d) (hargs : ∀ a ∈ operands, Compilable g free n a) :
      Compilable g free n (.app fn args)
  /-- An application of the value of any term that is no constant. -/
  | computed {n : Nat} {fn : Term} {args : List Term} {head : Term} {operands : List Term}
      (hspine : (Term.app fn args).spine = (head, operands))
      (hconst : ∀ name marker, head ≠ .const name marker) (hhead : Compilable g free n head)
      (hargs : ∀ a ∈ operands, Compilable g free n a) : Compilable g free n (.app fn args)

/-! ## Heads -/

variable {g : Globals} {free : Bool}

/-- A constant announces alternatives exactly when it heads a case analysis over them. -/
theorem announces_iff {name : String} {marker : Marker} {m : Nat} :
    Announces g name marker m ↔
      ∃ head, g.caseHead? name marker = some head ∧ head.alternatives.toNat = m := by
  constructor
  · rintro (h | h | ⟨h, hname, ha⟩)
    · exact ⟨.marked marker.index, by simp [Globals.caseHead?, h], rfl⟩
    · exact ⟨.natural, by simp [Globals.caseHead?, h], rfl⟩
    · exact ⟨.native _, by simp [Globals.caseHead?, h, hname, ha], rfl⟩
  · rintro ⟨head, hhead, rfl⟩
    unfold Globals.caseHead? at hhead
    cases hkind : marker.kind with
    | cases =>
      simp only [hkind, Option.some.injEq] at hhead
      subst hhead
      exact .marked hkind
    | plain =>
      simp only [hkind] at hhead
      by_cases hname : name = Term.natCasesOn
      · subst hname
        obtain rfl : .natural = head := by simpa using hhead
        exact .natural hkind
      · rw [if_neg hname] at hhead
        obtain ⟨a, ha, rfl⟩ := Option.map_eq_some_iff.mp hhead
        exact .native hkind hname ha
    | cnstr | proj | neutral | unreachable | other code reserved =>
      simp [hkind] at hhead

theorem caseHead?_eq_none_iff {name : String} {marker : Marker} :
    g.caseHead? name marker = none ↔ ∀ m, ¬Announces g name marker m := by
  simp only [announces_iff, Option.eq_none_iff_forall_ne_some]
  grind

/-- What a head asks of itself and of its operands.  `ok` is what it asks of a term whose value it
    wants, `branch` what it asks of an alternative. -/
def Head.Accepts (table : DeclTable) (ok branch : Term → Prop) (fn : Term) (operands : List Term) :
    Head → Prop
  | .analysis head => ∃ major alternatives, operands = major :: alternatives ∧
      alternatives ≠ [] ∧ alternatives.length = head.alternatives.toNat ∧ ok major ∧
      ∀ a ∈ alternatives, branch a
  | .cnstr _ => ∀ a ∈ operands, ok a
  | .proj _ => operands ≠ [] ∧ ∀ a ∈ operands, ok a
  | .neutral | .unreachable => True
  | .declared name => (∃ d, table.lookup? name = some d) ∧ ∀ a ∈ operands, ok a
  | .unusable _ => False
  | .computed => ok fn ∧ ∀ a ∈ operands, ok a

/-- A term is used as an alternative: its leading lambdas bind fields. -/
def CompilableBranch (g : Globals) (free : Bool) (n : Nat) (t : Term) : Prop :=
  Compilable g free (n + t.arity) (bodyOf t)

theorem head_of_not_const {t : Term} (h : ∀ name marker, t ≠ .const name marker) :
    g.head t = .computed := by
  cases t with
  | const name marker => exact absurd rfl (h name marker)
  | _ => rfl

/-- The grammar of applications, read off the head of the chain. -/
theorem compilable_app_iff {n : Nat} {fn : Term} {args : List Term} {head : Term}
    {operands : List Term} (hspine : (Term.app fn args).spine = (head, operands)) :
    Compilable g free n (.app fn args) ↔
      (g.head head).Accepts g.table (Compilable g free n) (CompilableBranch g free n) head
        operands := by
  constructor
  · intro h
    cases h with
    | inert hspine' h =>
      obtain ⟨rfl, rfl⟩ := Prod.mk.inj (hspine.symm.trans hspine')
      simp only [List.mem_cons, List.not_mem_nil, or_false] at h
      rcases h with h | h <;> simp [Globals.head, Globals.caseHead?, h, Head.Accepts]
    | cnstr hspine' h hargs =>
      obtain ⟨rfl, rfl⟩ := Prod.mk.inj (hspine.symm.trans hspine')
      simpa [Globals.head, Globals.caseHead?, h, Head.Accepts] using hargs
    | proj hspine' h hsubject hargs =>
      obtain ⟨rfl, rfl⟩ := Prod.mk.inj (hspine.symm.trans hspine')
      simpa [Globals.head, Globals.caseHead?, h, Head.Accepts] using ⟨hsubject, hargs⟩
    | analysis hspine' h hsome hmajor halternatives =>
      obtain ⟨rfl, rfl⟩ := Prod.mk.inj (hspine.symm.trans hspine')
      obtain ⟨c, hcase, hcount⟩ := announces_iff.mp h
      simp only [Globals.head, hcase]
      exact ⟨_, _, rfl, hsome, hcount.symm, hmajor, halternatives⟩
    | call hspine' h hcase hd hargs =>
      obtain ⟨rfl, rfl⟩ := Prod.mk.inj (hspine.symm.trans hspine')
      have hnone := caseHead?_eq_none_iff.mpr hcase
      simp only [Globals.head, hnone, h]
      exact ⟨⟨_, hd⟩, hargs⟩
    | computed hspine' hconst hhead hargs =>
      obtain ⟨rfl, rfl⟩ := Prod.mk.inj (hspine.symm.trans hspine')
      rw [head_of_not_const hconst]
      exact ⟨hhead, hargs⟩
  · intro h
    cases head with
    | const name marker =>
      cases hcase : g.caseHead? name marker with
      | some c =>
        simp only [Globals.head, hcase] at h
        obtain ⟨major, alternatives, rfl, hsome, hcount, hmajor, halternatives⟩ := h
        exact .analysis hspine (announces_iff.mpr ⟨c, hcase, hcount.symm⟩) hsome hmajor
          halternatives
      | none =>
        -- without a case analysis the marker alone decides
        cases hkind : marker.kind with
        | plain =>
          simp only [Globals.head, hcase, hkind] at h
          obtain ⟨⟨d, hd⟩, hargs⟩ := h
          exact .call hspine hkind (caseHead?_eq_none_iff.mp hcase) hd hargs
        | cnstr =>
          simp only [Globals.head, hcase, hkind] at h
          exact .cnstr hspine hkind h
        | proj =>
          simp only [Globals.head, hcase, hkind] at h
          exact .proj hspine hkind h.1 h.2
        | neutral => exact .inert hspine (by simp [hkind])
        | unreachable => exact .inert hspine (by simp [hkind])
        | cases => simp [Globals.caseHead?, hkind] at hcase
        | other code reserved =>
          simp only [Globals.head, hcase, hkind] at h
          exact h.elim
    | _ => exact .computed hspine (by simp) h.1 h.2

theorem compilable_letIn_iff {n : Nat} {bindings : List (String × Term)} {body : Term} :
    Compilable g free n (.letIn bindings body) ↔
      (∀ j b, bindings[j]? = some b → Compilable g free (n + j) b.2) ∧
        Compilable g free (n + bindings.length) body := by
  constructor
  · intro h
    cases h with
    | letIn hbindings hbody => exact ⟨hbindings, hbody⟩
  · rintro ⟨hbindings, hbody⟩
    exact .letIn hbindings hbody

theorem compilable_ann_iff {n : Nat} {name : String} {body : Term} :
    Compilable g free n (.ann name body) ↔ Compilable g free n body := by
  constructor
  · intro h
    cases h with
    | ann h => exact h
  · exact .ann

/-! ## Flattening -/

theorem head_flatten (t : Term) : g.head t.flatten = g.head t := by
  cases t with
  | app fn args =>
    rw [Term.flatten_app]
    rfl
  | _ => rfl

/-- What a head asks of operands does not depend on how they are written. -/
theorem Head.accepts_map {table : DeclTable} {ok branch : Term → Prop} {f : Term → Term}
    {fn : Term} {operands : List Term} (hfn : ok (f fn) ↔ ok fn)
    (hok : ∀ a ∈ operands, ok (f a) ↔ ok a) (hbranch : ∀ a ∈ operands, branch (f a) ↔ branch a)
    (head : Head) :
    head.Accepts table ok branch (f fn) (operands.map f) ↔
      head.Accepts table ok branch fn operands := by
  have hall : (∀ a ∈ operands.map f, ok a) ↔ ∀ a ∈ operands, ok a := by
    rw [List.forall_mem_map]
    exact forall₂_congr hok
  cases head with
  | analysis c =>
    cases operands with
    | nil => simp [Accepts]
    | cons major alternatives =>
      rw [List.forall_mem_cons] at hok hbranch
      have halternatives : (∀ a ∈ alternatives.map f, branch a) ↔ ∀ a ∈ alternatives, branch a := by
        rw [List.forall_mem_map]
        exact forall₂_congr hbranch.2
      simp [Accepts, hok.1, ← halternatives]
  | cnstr index => exact hall
  | proj index => simp only [Accepts, hall, ne_eq, List.map_eq_nil_iff]
  | neutral => exact Iff.rfl
  | unreachable => exact Iff.rfl
  | declared name => simp only [Accepts, hall]
  | unusable marker => exact Iff.rfl
  | computed => simp only [Accepts, hall, hfn]

/-- A term is in the grammar however its chains are written. -/
theorem compilable_flatten (t : Term) : ∀ n, Compilable g free n t.flatten ↔ Compilable g free n t := by
  -- the parts of a chain are not the parts of its first node, so the induction is on the size
  induction hsize : t.nodes using Nat.strongRecOn generalizing t with
  | ind size ih =>
    subst hsize
    intro n
    cases t with
    | app fn args =>
      have hnodes := Term.nodes_spine_le fn
      have hbelow : ∀ u ∈ (Term.app fn args).spine.2, u.nodes < (Term.app fn args).nodes := by
        intro u hu
        have hu := Term.nodes_le_of_mem hu
        simp only [Term.spine, Term.nodesOfArgs_append] at hu
        simp only [Term.nodes]
        omega
      have hhead : (Term.app fn args).spine.1.nodes < (Term.app fn args).nodes := by
        simp only [Term.spine, Term.nodes]
        omega
      rw [compilable_app_iff (show (Term.app fn args).spine = (_, _) from rfl)]
      have hspine := Term.spine_flatten (Term.app fn args)
      rw [Term.flatten_app] at hspine ⊢
      rw [compilable_app_iff hspine, head_flatten]
      refine Head.accepts_map (ih _ hhead _ rfl n) (fun a ha => ih _ (hbelow a ha) a rfl n) ?_ _
      intro a ha
      have hbody := nodes_bodyOf a
      have ha := hbelow a ha
      rw [CompilableBranch, CompilableBranch, Term.arity_flatten, Term.bodyOf_flatten]
      exact ih _ (by omega) (bodyOf a) rfl _
    | letIn bindings body =>
      have hbody : body.nodes < (Term.letIn bindings body).nodes := by
        simp only [Term.nodes]
        omega
      rw [Term.flatten_letIn, compilable_letIn_iff, compilable_letIn_iff, List.length_map,
        ih _ hbody body rfl]
      refine and_congr_left fun _ => ?_
      have hvalue : ∀ (j : Nat) (b : String × Term), bindings[j]? = some b →
          (Compilable g free (n + j) b.2.flatten ↔ Compilable g free (n + j) b.2) := by
        intro j b hb
        have hb := Term.nodes_le_of_mem_bindings (List.mem_of_getElem? hb)
        refine ih _ ?_ b.2 rfl (n + j)
        simp only [Term.nodes]
        omega
      simp only [List.getElem?_map, Option.map_eq_some_iff]
      constructor
      · intro h j b hb
        exact (hvalue j b hb).mp (h j _ ⟨b, hb, rfl⟩)
      · rintro h j - ⟨b, hb, rfl⟩
        exact (hvalue j b hb).mpr (h j b hb)
    | ann name body =>
      have hbody : body.nodes < (Term.ann name body).nodes := by
        simp only [Term.nodes]
        omega
      show Compilable g free n (.ann name body.flatten) ↔ _
      rw [compilable_ann_iff, compilable_ann_iff, ih _ hbody body rfl]
    | quote body => exact iff_of_true .quote .quote
    | lam binder body => exact iff_of_false (by rintro ⟨⟩) (by rintro ⟨⟩)
    | pi binder domain body => exact iff_of_false (by rintro ⟨⟩) (by rintro ⟨⟩)
    | foreign name args => exact iff_of_false (by rintro ⟨⟩) (by rintro ⟨⟩)
    | _ => exact Iff.rfl

/-! ## Free locals -/

/-- Where there is no free local, it does not matter whether the grammar lets them pass. -/
theorem Compilable.of_hasLocal {n : Nat} {t : Term} (h : Compilable g free n t)
    (hlocal : t.hasLocal = false) (free' : Bool) : Compilable g free' n t := by
  -- an application hides a free local neither in its head nor in its operands
  have hparts : ∀ {fn args head operands}, (Term.app fn args).spine = (head, operands) →
      (Term.app fn args).hasLocal = false →
        head.hasLocal = false ∧ ∀ a ∈ operands, a.hasLocal = false := by
    intro fn args head operands hspine hlocal
    rw [Term.hasLocal_spine, hspine, Bool.or_eq_false_iff] at hlocal
    exact ⟨hlocal.1, fun a ha => Term.hasLocal_of_mem hlocal.2 ha⟩
  induction h with
  | var h => exact .var h
  | fvar h => cases hlocal
  | marked h => exact .marked h
  | zero h => exact .zero h
  | global h hd => exact .global h hd
  | nat => exact .nat
  | quote => exact .quote
  | ann h ih => exact .ann (ih hlocal)
  | letIn hbindings hbody ihbindings ihbody =>
    simp only [Term.hasLocal, Bool.or_eq_false_iff] at hlocal
    refine .letIn (fun j b hb => ihbindings j b hb ?_) (ihbody hlocal.2)
    exact Term.hasLocal_of_mem_bindings hlocal.1 (List.mem_of_getElem? hb)
  | inert hspine h => exact .inert hspine h
  | cnstr hspine h hargs ih =>
    exact .cnstr hspine h fun a ha => ih a ha ((hparts hspine hlocal).2 a ha)
  | proj hspine h hsubject hargs ih =>
    exact .proj hspine h hsubject fun a ha => ih a ha ((hparts hspine hlocal).2 a ha)
  | analysis hspine h hsome hmajor halternatives ihmajor ihalternatives =>
    have hoperands := List.forall_mem_cons.mp (hparts hspine hlocal).2
    refine .analysis hspine h hsome (ihmajor hoperands.1) fun a ha => ihalternatives a ha ?_
    rw [hasLocal_bodyOf, hoperands.2 a ha]
  | call hspine h hcase hd hargs ih =>
    exact .call hspine h hcase hd fun a ha => ih a ha ((hparts hspine hlocal).2 a ha)
  | computed hspine hconst hhead hargs ihhead ih =>
    exact .computed hspine hconst (ihhead (hparts hspine hlocal).1)
      fun a ha => ih a ha ((hparts hspine hlocal).2 a ha)

end Codegen

end TermVM
