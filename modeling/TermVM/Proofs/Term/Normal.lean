/-
  TermVM.Proofs.Term.Normal

  Terms up to what fingerprints leave out.

  A fingerprint sees every application chain as one node, and leaves out the
  names of free locals, and outside quotations those of binders.  `normal` puts
  a term into the form that remains.  It keeps the number of leading lambdas
  and all constants, and it does not matter whether chains outside quotations
  were flattened before.
-/
import TermVM.Codegen
import TermVM.Proofs.Term.Flatten

namespace TermVM.Term

/-! ## Names -/

mutual

/-- A term without the names of free locals, and without those of binders outside quotations. -/
def withoutNames (quoted : Bool) : Term → Term
  | fvar id _ => fvar id ""
  | app fn args => app (fn.withoutNames quoted) (withoutNamesInArgs quoted args)
  | lam binder body => lam (if quoted then binder else "") (body.withoutNames quoted)
  | pi binder domain body =>
      pi (if quoted then binder else "") (domain.withoutNames quoted) (body.withoutNames quoted)
  | letIn bindings body =>
      letIn (withoutNamesInBindings quoted bindings) (body.withoutNames quoted)
  | quote body => quote (body.withoutNames true)
  | ann name body => ann name (body.withoutNames quoted)
  | foreign name args => foreign name (withoutNamesInArgs quoted args)
  | t => t

/-- The terms of a list without names. -/
def withoutNamesInArgs (quoted : Bool) : List Term → List Term
  | [] => []
  | a :: as => a.withoutNames quoted :: withoutNamesInArgs quoted as

/-- Bindings without names. -/
def withoutNamesInBindings (quoted : Bool) : List (String × Term) → List (String × Term)
  | [] => []
  | (name, v) :: bs =>
      (if quoted then name else "", v.withoutNames quoted) :: withoutNamesInBindings quoted bs

end

theorem withoutNamesInArgs_eq_map (quoted : Bool) (as : List Term) :
    withoutNamesInArgs quoted as = as.map (withoutNames quoted) := by
  induction as with
  | nil => rfl
  | cons a as ih => simp [withoutNamesInArgs, ih]

theorem withoutNamesInBindings_eq_map (quoted : Bool) (bs : List (String × Term)) :
    withoutNamesInBindings quoted bs =
      bs.map fun b => (if quoted then b.1 else "", b.2.withoutNames quoted) := by
  induction bs with
  | nil => rfl
  | cons b bs ih => simp [withoutNamesInBindings, ih]

@[simp] theorem length_withoutNamesInArgs (quoted : Bool) (as : List Term) :
    (withoutNamesInArgs quoted as).length = as.length := by
  simp [withoutNamesInArgs_eq_map]

@[simp] theorem length_withoutNamesInBindings (quoted : Bool) (bs : List (String × Term)) :
    (withoutNamesInBindings quoted bs).length = bs.length := by
  simp [withoutNamesInBindings_eq_map]

/-- What is left of a term in its fingerprint. -/
def normal (t : Term) : Term :=
  t.flattenDeep.withoutNames false

/-- What is left of a quoted term in a fingerprint. -/
def normalData (t : Term) : Term :=
  t.flattenDeep.withoutNames true

/-! ## Normal forms of flat terms -/

/-- A term that is no application takes pending arguments as they are. -/
theorem flattenWith_of_isApp {t : Term} (h : t.isApp = false) (quotes : Bool)
    (pending : Option (List Term)) :
    flattenWith quotes t pending = (flattenWith quotes t none).withArgs pending := by
  cases t with
  | app fn args => cases h
  | _ => rfl

theorem normal_app {fn : Term} (h : fn.isApp = false) (args : List Term) :
    normal (.app fn args) = .app fn.normal (args.map normal) := by
  unfold normal flattenDeep
  rw [flattenWith, flattenWith_of_isApp h, Option.getD_none, List.append_nil]
  simp only [withArgs, withoutNames, withoutNamesInArgs_eq_map, flattenArgs_eq_map, List.map_map]
  rfl

theorem normal_letIn (bindings : List (String × Term)) (body : Term) :
    normal (.letIn bindings body) =
      .letIn (bindings.map fun b => ("", b.2.normal)) body.normal := by
  unfold normal flattenDeep
  simp only [flattenWith, withArgs, withoutNames, withoutNamesInBindings_eq_map,
    flattenBindings_eq_map, List.map_map]
  rfl

/-! ## Flattening in two steps -/

theorem flattenWith_withArgs (t : Term) (pending pending' : Option (List Term)) :
    flattenWith true (t.withArgs pending) pending' =
      match pending with
      | none => flattenWith true t pending'
      | some as => flattenWith true t (some (flattenArgs true as ++ pending'.getD [])) := by
  cases pending <;> rfl

theorem flattenArgs_flattenArgs {as : List Term}
    (h : ∀ a ∈ as, flattenWith true (flattenWith false a none) none = flattenWith true a none) :
    flattenArgs true (flattenArgs false as) = flattenArgs true as := by
  rw [flattenArgs_eq_map, flattenArgs_eq_map, flattenArgs_eq_map, List.map_map]
  exact List.map_congr_left h

theorem flattenBindings_flattenBindings {bs : List (String × Term)}
    (h : ∀ b ∈ bs, flattenWith true (flattenWith false b.2 none) none
      = flattenWith true b.2 none) :
    flattenBindings true (flattenBindings false bs) = flattenBindings true bs := by
  rw [flattenBindings_eq_map, flattenBindings_eq_map, flattenBindings_eq_map, List.map_map]
  refine List.map_congr_left fun b hb => ?_
  simp [h b hb]

/-- Flattening chains outside quotations first makes no difference to flattening all of them. -/
theorem flattenWith_flattenWith (t : Term) (pending pending' : Option (List Term)) :
    flattenWith true (flattenWith false t pending) pending' =
      match pending with
      | none => flattenWith true t pending'
      | some as => flattenWith true t (some (flattenArgs true as ++ pending'.getD [])) := by
  induction t using Term.ind generalizing pending pending' with
  | app fn args ihfn ihargs =>
    have hargs := flattenArgs_flattenArgs fun a ha => ihargs a ha none none
    rw [flattenWith, ihfn]
    cases pending with
    | none => simp [flattenWith, hargs]
    | some as => simp [flattenWith, flattenArgs_append, hargs]
  | lam binder body ih =>
    rw [flattenWith, flattenWith_withArgs]
    simp only [flattenWith, ih none none]
  | pi binder domain body ihdomain ihbody =>
    rw [flattenWith, flattenWith_withArgs]
    simp only [flattenWith, ihdomain none none, ihbody none none]
  | letIn bindings body ihbindings ihbody =>
    have hbindings := flattenBindings_flattenBindings fun b hb => ihbindings b hb none none
    rw [flattenWith, flattenWith_withArgs]
    simp only [flattenWith, hbindings, ihbody none none]
  | ann name body ih =>
    rw [flattenWith, flattenWith_withArgs]
    simp only [flattenWith, ih none none]
  | foreign name args ih =>
    have hargs := flattenArgs_flattenArgs fun a ha => ih a ha none none
    rw [flattenWith, flattenWith_withArgs]
    simp only [flattenWith, hargs]
  | _ => exact flattenWith_withArgs _ pending pending'

theorem normal_flatten (t : Term) : t.flatten.normal = t.normal := by
  unfold normal flattenDeep flatten
  rw [flattenWith_flattenWith]

/-! ## Leading lambdas -/

theorem exists_flattenWith_some (quotes : Bool) (t : Term) (as : List Term) :
    ∃ fn args, flattenWith quotes t (some as) = .app fn args := by
  induction t using Term.ind generalizing as with
  | app fn args ihfn ihargs => exact ihfn _
  | _ => exact ⟨_, _, rfl⟩

/-- The normal form of an application is an application. -/
theorem exists_normal_app (fn : Term) (args : List Term) :
    ∃ fn' args', normal (.app fn args) = .app fn' args' := by
  obtain ⟨fn', args', hflat⟩ := exists_flattenWith_some true fn (flattenArgs true args ++ [])
  unfold normal flattenDeep
  rw [flattenWith, Option.getD_none, hflat]
  exact ⟨_, _, rfl⟩

@[simp] theorem arity_normal (t : Term) : t.normal.arity = t.arity := by
  induction t using Term.ind with
  | app fn args ihfn ihargs =>
    obtain ⟨fn', args', happ⟩ := exists_normal_app fn args
    rw [happ]
    rfl
  | lam binder body ih => exact congrArg (· + 1) ih
  | _ => rfl

theorem arity_eq_of_normal_eq {s t : Term} (h : s.normal = t.normal) : s.arity = t.arity := by
  rw [← s.arity_normal, h, t.arity_normal]

theorem bodyOf_normal (t : Term) : Codegen.bodyOf t.normal = (Codegen.bodyOf t).normal := by
  induction t using Term.ind with
  | app fn args ihfn ihargs =>
    obtain ⟨fn', args', happ⟩ := exists_normal_app fn args
    rw [happ]
    exact happ.symm
  | lam binder body ih => exact ih
  | _ => rfl

/-! ## Constants -/

theorem constantsOfArgs_eq_flatMap (as : List Term) :
    constantsOfArgs as = as.flatMap constants := by
  induction as with
  | nil => rfl
  | cons a as ih => simp [constantsOfArgs, ih]

theorem constantsOfBindings_eq_flatMap (bs : List (String × Term)) :
    constantsOfBindings bs = bs.flatMap (·.2.constants) := by
  induction bs with
  | nil => rfl
  | cons b bs ih => simp [constantsOfBindings, ih]

theorem constantsOfArgs_append (as bs : List Term) :
    constantsOfArgs (as ++ bs) = constantsOfArgs as ++ constantsOfArgs bs := by
  simp [constantsOfArgs_eq_flatMap]

theorem constantsOfArgs_map {f : Term → Term} {as : List Term}
    (h : ∀ a ∈ as, (f a).constants = a.constants) :
    constantsOfArgs (as.map f) = constantsOfArgs as := by
  simp only [constantsOfArgs_eq_flatMap, List.flatMap_def, List.map_map]
  exact congrArg List.flatten (List.map_congr_left h)

theorem constantsOfBindings_map {f : String × Term → String × Term} {bs : List (String × Term)}
    (h : ∀ b ∈ bs, (f b).2.constants = b.2.constants) :
    constantsOfBindings (bs.map f) = constantsOfBindings bs := by
  simp only [constantsOfBindings_eq_flatMap, List.flatMap_def, List.map_map]
  exact congrArg List.flatten (List.map_congr_left h)

theorem constants_subset_of_mem {as : List Term} {a : Term} (h : a ∈ as) :
    a.constants ⊆ constantsOfArgs as := by
  rw [constantsOfArgs_eq_flatMap]
  exact fun c hc => List.mem_flatMap.mpr ⟨a, h, hc⟩

theorem constants_subset_of_mem_bindings {bs : List (String × Term)} {b : String × Term}
    (h : b ∈ bs) : b.2.constants ⊆ constantsOfBindings bs := by
  rw [constantsOfBindings_eq_flatMap]
  exact fun c hc => List.mem_flatMap.mpr ⟨b, h, hc⟩

theorem constants_withArgs (t : Term) (pending : Option (List Term)) :
    (t.withArgs pending).constants = t.constants ++ constantsOfArgs (pending.getD []) := by
  cases pending <;> simp [withArgs, constants, constantsOfArgs]

theorem constantsOfArgs_flattenArgs {quotes : Bool} {as : List Term}
    (h : ∀ a ∈ as, (flattenWith quotes a none).constants = a.constants ++ constantsOfArgs []) :
    constantsOfArgs (flattenArgs quotes as) = constantsOfArgs as := by
  rw [flattenArgs_eq_map]
  exact constantsOfArgs_map fun a ha => by simpa [constantsOfArgs] using h a ha

/-- Flattening keeps the constants and their order. -/
theorem constants_flattenWith (quotes : Bool) (t : Term) (pending : Option (List Term)) :
    (flattenWith quotes t pending).constants
      = t.constants ++ constantsOfArgs (pending.getD []) := by
  induction t using Term.ind generalizing pending with
  | app fn args ihfn ihargs =>
    have hargs := constantsOfArgs_flattenArgs fun a ha => ihargs a ha none
    simp only [flattenWith, ihfn, Option.getD_some, constantsOfArgs_append, hargs, constants,
      List.append_assoc]
  | lam binder body ih => simp [flattenWith, constants_withArgs, constants, ih, constantsOfArgs]
  | pi binder domain body ihdomain ihbody =>
    simp [flattenWith, constants_withArgs, constants, ihdomain, ihbody, constantsOfArgs]
  | letIn bindings body ihbindings ihbody =>
    have hbindings : constantsOfBindings (flattenBindings quotes bindings)
        = constantsOfBindings bindings := by
      rw [flattenBindings_eq_map]
      exact constantsOfBindings_map fun b hb => by
        simpa [constantsOfArgs] using ihbindings b hb none
    simp [flattenWith, constants_withArgs, constants, hbindings, ihbody, constantsOfArgs]
  | ann name body ih => simp [flattenWith, constants_withArgs, constants, ih, constantsOfArgs]
  | foreign name args ih =>
    have hargs := constantsOfArgs_flattenArgs fun a ha => ih a ha none
    simp [flattenWith, constants_withArgs, constants, hargs]
  | _ => exact constants_withArgs _ pending

theorem constants_withoutNames (quoted : Bool) (t : Term) :
    (t.withoutNames quoted).constants = t.constants := by
  induction t using Term.ind with
  | app fn args ihfn ihargs =>
    simp only [withoutNames, constants, ihfn, withoutNamesInArgs_eq_map,
      constantsOfArgs_map ihargs]
  | lam binder body ih => exact ih
  | pi binder domain body ihdomain ihbody => simp only [withoutNames, constants, ihdomain, ihbody]
  | letIn bindings body ihbindings ihbody =>
    simp only [withoutNames, constants, withoutNamesInBindings_eq_map, ihbody]
    rw [constantsOfBindings_map ihbindings]
  | ann name body ih => exact ih
  | foreign name args ih =>
    simp only [withoutNames, constants, withoutNamesInArgs_eq_map, constantsOfArgs_map ih]
  | _ => rfl

@[simp] theorem constants_flatten (t : Term) : t.flatten.constants = t.constants := by
  simp [flatten, constants_flattenWith, constantsOfArgs]

@[simp] theorem constants_normal (t : Term) : t.normal.constants = t.constants := by
  simp [normal, flattenDeep, constants_withoutNames, constants_flattenWith, constantsOfArgs]

@[simp] theorem constants_bodyOf (t : Term) : (Codegen.bodyOf t).constants = t.constants := by
  induction t using Term.ind with
  | lam binder body ih => exact ih
  | _ => rfl

end TermVM.Term
