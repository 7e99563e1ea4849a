/-
  TermVM.Proofs.Term.Quotation

  The quotations of a term, and how far a normal form determines a quoted term.

  `quotations` lists the terms that stand under the outermost quotations of a
  term, in visiting order.  Flattening chains outside quotations keeps them.

  Normal forms forget how application chains nest and how free locals are
  named.  `slack` measures how much of a term is of that kind.  A term without
  slack is the only one with its normal form (`eq_of_normalData_eq`); any other
  term can be respelled, with the same normal form, to have as much slack as
  one likes (`normal_respell`, `lt_slack_respell`).
-/
import TermVM.Proofs.Term.Normal
import TermVM.Proofs.Term.Parts

namespace TermVM.Term

/-! ## Quotations -/

mutual

/-- The terms under the outermost quotations of a term, in visiting order. -/
def quotations : Term → List Term
  | app fn args => fn.quotations ++ quotationsOfArgs args
  | lam _ body => body.quotations
  | pi _ domain body => domain.quotations ++ body.quotations
  | letIn bindings body => quotationsOfBindings bindings ++ body.quotations
  | quote body => [body]
  | ann _ body => body.quotations
  | foreign _ args => quotationsOfArgs args
  | _ => []

/-- The quotations of a list of terms. -/
def quotationsOfArgs : List Term → List Term
  | [] => []
  | a :: as => a.quotations ++ quotationsOfArgs as

/-- The quotations of the values of a list of bindings. -/
def quotationsOfBindings : List (String × Term) → List Term
  | [] => []
  | (_, v) :: bs => v.quotations ++ quotationsOfBindings bs

end

theorem quotationsOfArgs_eq_flatMap (as : List Term) :
    quotationsOfArgs as = as.flatMap quotations := by
  induction as with
  | nil => rfl
  | cons a as ih => simp [quotationsOfArgs, ih]

theorem quotationsOfBindings_eq_flatMap (bs : List (String × Term)) :
    quotationsOfBindings bs = bs.flatMap (·.2.quotations) := by
  induction bs with
  | nil => rfl
  | cons b bs ih => simp [quotationsOfBindings, ih]

theorem quotations_subset_of_mem {as : List Term} {a : Term} (h : a ∈ as) :
    a.quotations ⊆ quotationsOfArgs as := by
  rw [quotationsOfArgs_eq_flatMap]
  exact fun q hq => List.mem_flatMap.mpr ⟨a, h, hq⟩

theorem quotations_subset_of_mem_bindings {bs : List (String × Term)} {b : String × Term}
    (h : b ∈ bs) : b.2.quotations ⊆ quotationsOfBindings bs := by
  rw [quotationsOfBindings_eq_flatMap]
  exact fun q hq => List.mem_flatMap.mpr ⟨b, h, hq⟩

theorem quote_mem_parts_of_mem_quotations {t q : Term} (h : q ∈ t.quotations) :
    quote q ∈ t.parts := by
  induction t using Term.ind with
  | app fn args ihfn ihargs =>
    rw [quotations, List.mem_append, quotationsOfArgs_eq_flatMap, List.mem_flatMap] at h
    rcases h with h | ⟨a, ha, h⟩
    · exact mem_parts_of_child List.mem_cons_self (ihfn h)
    · exact mem_parts_of_child (List.mem_cons_of_mem fn ha) (ihargs a ha h)
  | lam binder body ih => exact List.mem_cons_of_mem _ (ih h)
  | pi binder domain body ihdomain ihbody =>
    rcases List.mem_append.mp h with h | h
    · exact mem_parts_of_child List.mem_cons_self (ihdomain h)
    · exact mem_parts_of_child (by simp [children]) (ihbody h)
  | letIn bindings body ihbindings ihbody =>
    rw [quotations, List.mem_append, quotationsOfBindings_eq_flatMap, List.mem_flatMap] at h
    rcases h with ⟨b, hb, h⟩ | h
    · have hchild : b.2 ∈ (letIn bindings body).children :=
        List.mem_append_left _ (List.mem_map_of_mem hb)
      exact mem_parts_of_child hchild (ihbindings b hb h)
    · exact mem_parts_of_child (by simp [children]) (ihbody h)
  | quote body _ =>
    obtain rfl := List.mem_singleton.mp h
    exact List.mem_cons_self
  | ann name body ih => exact List.mem_cons_of_mem _ (ih h)
  | foreign name args ih =>
    rw [quotations, quotationsOfArgs_eq_flatMap, List.mem_flatMap] at h
    obtain ⟨a, ha, h⟩ := h
    exact mem_parts_of_child ha (ih a ha h)
  | _ => cases h

/-- What is done to the quotations of every term of a list is done to those of the list. -/
theorem quotationsOfArgs_map {f g : Term → Term} {as : List Term}
    (h : ∀ a ∈ as, (f a).quotations = a.quotations.map g) :
    quotationsOfArgs (as.map f) = (quotationsOfArgs as).map g := by
  simp only [quotationsOfArgs_eq_flatMap, List.flatMap_def, List.map_map, List.map_flatten]
  exact congrArg List.flatten (List.map_congr_left h)

theorem quotationsOfBindings_map {f : String × Term → String × Term} {g : Term → Term}
    {bs : List (String × Term)} (h : ∀ b ∈ bs, (f b).2.quotations = b.2.quotations.map g) :
    quotationsOfBindings (bs.map f) = (quotationsOfBindings bs).map g := by
  simp only [quotationsOfBindings_eq_flatMap, List.flatMap_def, List.map_map, List.map_flatten]
  exact congrArg List.flatten (List.map_congr_left h)

theorem quotations_withArgs (t : Term) (pending : Option (List Term)) :
    (t.withArgs pending).quotations = t.quotations ++ quotationsOfArgs (pending.getD []) := by
  cases pending <;> simp [withArgs, quotations, quotationsOfArgs]

theorem quotationsOfArgs_append (as bs : List Term) :
    quotationsOfArgs (as ++ bs) = quotationsOfArgs as ++ quotationsOfArgs bs := by
  simp [quotationsOfArgs_eq_flatMap]

theorem quotationsOfArgs_flattenArgs {as : List Term}
    (h : ∀ a ∈ as, (flattenWith false a none).quotations = a.quotations ++ quotationsOfArgs []) :
    quotationsOfArgs (flattenArgs false as) = quotationsOfArgs as := by
  rw [flattenArgs_eq_map, quotationsOfArgs_map (g := id), List.map_id]
  intro a ha
  simpa [quotationsOfArgs] using h a ha

/-- Flattening outside quotations keeps them and their order. -/
theorem quotations_flattenWith (t : Term) (pending : Option (List Term)) :
    (flattenWith false t pending).quotations
      = t.quotations ++ quotationsOfArgs (pending.getD []) := by
  induction t using Term.ind generalizing pending with
  | app fn args ihfn ihargs =>
    have hargs := quotationsOfArgs_flattenArgs fun a ha => ihargs a ha none
    simp only [flattenWith, ihfn, Option.getD_some, quotationsOfArgs_append, hargs, quotations,
      List.append_assoc]
  | lam binder body ih =>
    simp [flattenWith, quotations_withArgs, quotations, ih, quotationsOfArgs]
  | pi binder domain body ihdomain ihbody =>
    simp [flattenWith, quotations_withArgs, quotations, ihdomain, ihbody, quotationsOfArgs]
  | letIn bindings body ihbindings ihbody =>
    have hbindings : quotationsOfBindings (flattenBindings false bindings)
        = quotationsOfBindings bindings := by
      rw [flattenBindings_eq_map, quotationsOfBindings_map (g := id), List.map_id]
      intro b hb
      simpa [quotationsOfArgs] using ihbindings b hb none
    simp [flattenWith, quotations_withArgs, quotations, hbindings, ihbody, quotationsOfArgs]
  | ann name body ih =>
    simp [flattenWith, quotations_withArgs, quotations, ih, quotationsOfArgs]
  | foreign name args ih =>
    have hargs := quotationsOfArgs_flattenArgs fun a ha => ih a ha none
    simp [flattenWith, quotations_withArgs, quotations, hargs]
  | _ => exact quotations_withArgs _ pending

@[simp] theorem quotations_flatten (t : Term) : t.flatten.quotations = t.quotations := by
  simp [flatten, quotations_flattenWith, quotationsOfArgs]

@[simp] theorem quotations_bodyOf (t : Term) :
    (Codegen.bodyOf t).quotations = t.quotations := by
  induction t using Term.ind with
  | lam binder body ih => exact ih
  | _ => rfl

/-! ## Slack -/

mutual

/-- How much of a term its normal form leaves open, at any depth: one for every application, and
    for every free local one more than the length of its name. -/
def slack : Term → Nat
  | fvar _ name => name.length + 1
  | app fn args => fn.slack + slackOfArgs args + 1
  | lam _ body => body.slack
  | pi _ domain body => domain.slack + body.slack
  | letIn bindings body => slackOfBindings bindings + body.slack
  | quote body => body.slack
  | ann _ body => body.slack
  | foreign _ args => slackOfArgs args
  | _ => 0

/-- The slack of a list of terms. -/
def slackOfArgs : List Term → Nat
  | [] => 0
  | a :: as => a.slack + slackOfArgs as

/-- The slack of the values of a list of bindings. -/
def slackOfBindings : List (String × Term) → Nat
  | [] => 0
  | (_, v) :: bs => v.slack + slackOfBindings bs

end

/-- Whether neither an application nor a free local stands anywhere in a term. -/
def isRigid (t : Term) : Bool :=
  t.slack == 0

theorem isRigid_iff {t : Term} : t.isRigid = true ↔ t.slack = 0 := by
  simp [isRigid]

theorem slackOfArgs_eq_zero {as : List Term} :
    slackOfArgs as = 0 ↔ ∀ a ∈ as, a.slack = 0 := by
  induction as with
  | nil => simp [slackOfArgs]
  | cons a as ih => simp [slackOfArgs, ih]

theorem slackOfBindings_eq_zero {bs : List (String × Term)} :
    slackOfBindings bs = 0 ↔ ∀ b ∈ bs, b.2.slack = 0 := by
  induction bs with
  | nil => simp [slackOfBindings]
  | cons b bs ih => simp [slackOfBindings, ih]

theorem slack_le_slackOfArgs {as : List Term} {a : Term} (h : a ∈ as) :
    a.slack ≤ slackOfArgs as := by
  induction as with
  | nil => cases h
  | cons b as ih =>
    rw [slackOfArgs]
    rcases List.mem_cons.mp h with rfl | h
    · exact Nat.le_add_right ..
    · exact Nat.le_trans (ih h) (Nat.le_add_left ..)

theorem slack_le_slackOfBindings {bs : List (String × Term)} {b : String × Term} (h : b ∈ bs) :
    b.2.slack ≤ slackOfBindings bs := by
  induction bs with
  | nil => cases h
  | cons c bs ih =>
    rw [slackOfBindings]
    rcases List.mem_cons.mp h with rfl | h
    · exact Nat.le_add_right ..
    · exact Nat.le_trans (ih h) (Nat.le_add_left ..)

/-! ## Quoted terms without slack -/

theorem normalData_letIn (bindings : List (String × Term)) (body : Term) :
    normalData (.letIn bindings body) =
      .letIn (bindings.map fun b => (b.1, b.2.normalData)) body.normalData := by
  unfold normalData flattenDeep
  simp only [flattenWith, withArgs, withoutNames, withoutNamesInBindings_eq_map,
    flattenBindings_eq_map, List.map_map]
  rfl

theorem normalData_foreign (name : String) (args : List Term) :
    normalData (.foreign name args) = .foreign name (args.map normalData) := by
  unfold normalData flattenDeep
  simp only [flattenWith, withArgs, withoutNames, withoutNamesInArgs_eq_map, flattenArgs_eq_map,
    List.map_map]
  rfl

/-- A term without slack is its own normal form. -/
theorem normalData_of_slack {t : Term} (h : t.slack = 0) : t.normalData = t := by
  induction t using Term.ind with
  | fvar id name => cases h
  | app fn args ihfn ihargs => cases h
  | lam binder body ih => exact congrArg (lam binder) (ih h)
  | pi binder domain body ihdomain ihbody =>
    obtain ⟨hdomain, hbody⟩ : domain.slack = 0 ∧ body.slack = 0 := Nat.add_eq_zero_iff.mp h
    show pi binder domain.normalData body.normalData = _
    rw [ihdomain hdomain, ihbody hbody]
  | letIn bindings body ihbindings ihbody =>
    obtain ⟨hbindings, hbody⟩ : slackOfBindings bindings = 0 ∧ body.slack = 0 :=
      Nat.add_eq_zero_iff.mp h
    have hmap : bindings.map (fun b => (b.1, b.2.normalData)) = bindings.map id :=
      List.map_congr_left fun b hb => by
        rw [ihbindings b hb (slackOfBindings_eq_zero.mp hbindings b hb), id]
    rw [normalData_letIn, hmap, List.map_id, ihbody hbody]
  | quote body ih => exact congrArg quote (ih h)
  | ann name body ih => exact congrArg (ann name) (ih h)
  | foreign name args ih =>
    have hmap : args.map normalData = args.map id :=
      List.map_congr_left fun a ha => ih a ha (slackOfArgs_eq_zero.mp h a ha)
    rw [normalData_foreign, hmap, List.map_id]
  | _ => rfl

/-- A normal form keeps some slack where the term has some. -/
theorem slack_of_normalData {t : Term} (h : t.normalData.slack = 0) : t.slack = 0 := by
  induction t using Term.ind with
  | fvar id name => cases h
  | app fn args ihfn ihargs =>
    obtain ⟨fn', args', hflat⟩ := exists_flattenWith_some true fn (flattenArgs true args ++ [])
    unfold normalData flattenDeep at h
    rw [flattenWith, Option.getD_none, hflat] at h
    cases h
  | lam binder body ih => exact ih h
  | pi binder domain body ihdomain ihbody =>
    obtain ⟨hdomain, hbody⟩ : domain.normalData.slack = 0 ∧ body.normalData.slack = 0 :=
      Nat.add_eq_zero_iff.mp h
    rw [slack, ihdomain hdomain, ihbody hbody]
  | letIn bindings body ihbindings ihbody =>
    rw [normalData_letIn, slack, Nat.add_eq_zero_iff, slackOfBindings_eq_zero,
      List.forall_mem_map] at h
    rw [slack, ihbody h.2, Nat.add_zero, slackOfBindings_eq_zero]
    exact fun b hb => ihbindings b hb (h.1 b hb)
  | quote body ih => exact ih h
  | ann name body ih => exact ih h
  | foreign name args ih =>
    rw [normalData_foreign, slack, slackOfArgs_eq_zero, List.forall_mem_map] at h
    rw [slack, slackOfArgs_eq_zero]
    exact fun a ha => ih a ha (h a ha)
  | _ => rfl

/-- A term without slack is the only one with its normal form. -/
theorem eq_of_normalData_eq {s t : Term} (hs : s.slack = 0) (h : t.normalData = s.normalData) :
    t = s := by
  have hnormal : t.normalData = s := h.trans (normalData_of_slack hs)
  have ht : t.slack = 0 := slack_of_normalData (by rw [hnormal, hs])
  rw [← normalData_of_slack ht, hnormal]

/-! ## Respelling -/

/-- A term under a number of applications to nothing. -/
def nest : Nat → Term → Term
  | 0, t => t
  | n + 1, t => app (nest n t) []

mutual

/-- A term with the given name for every free local, and with as many applications to nothing
    around every application as the name has characters. -/
def respell (name : String) : Term → Term
  | fvar id _ => fvar id name
  | app fn args => nest name.length (app (fn.respell name) (respellArgs name args))
  | lam binder body => lam binder (body.respell name)
  | pi binder domain body => pi binder (domain.respell name) (body.respell name)
  | letIn bindings body => letIn (respellBindings name bindings) (body.respell name)
  | quote body => quote (body.respell name)
  | ann label body => ann label (body.respell name)
  | foreign label args => foreign label (respellArgs name args)
  | t => t

/-- The terms of a list respelled. -/
def respellArgs (name : String) : List Term → List Term
  | [] => []
  | a :: as => a.respell name :: respellArgs name as

/-- Bindings with their values respelled. -/
def respellBindings (name : String) : List (String × Term) → List (String × Term)
  | [] => []
  | (n, v) :: bs => (n, v.respell name) :: respellBindings name bs

end

section

variable (name : String)

theorem respellArgs_eq_map (as : List Term) : respellArgs name as = as.map (respell name) := by
  induction as with
  | nil => rfl
  | cons a as ih => simp [respellArgs, ih]

theorem respellBindings_eq_map (bs : List (String × Term)) :
    respellBindings name bs = bs.map fun b => (b.1, b.2.respell name) := by
  induction bs with
  | nil => rfl
  | cons b bs ih => simp [respellBindings, ih]

@[simp] theorem quotations_nest (n : Nat) (t : Term) : (nest n t).quotations = t.quotations := by
  induction n with
  | zero => rfl
  | succ n ih => simp [nest, quotations, quotationsOfArgs, ih]

@[simp] theorem slack_nest (n : Nat) (t : Term) : (nest n t).slack = t.slack + n := by
  induction n with
  | zero => rfl
  | succ n ih => simp [nest, slack, slackOfArgs, ih, Nat.add_assoc]

theorem quotations_respell (t : Term) :
    (t.respell name).quotations = t.quotations.map (respell name) := by
  induction t using Term.ind with
  | app fn args ihfn ihargs =>
    rw [respell, quotations_nest, quotations, quotations, ihfn, respellArgs_eq_map,
      quotationsOfArgs_map ihargs, List.map_append]
  | lam binder body ih => exact ih
  | pi binder domain body ihdomain ihbody =>
    rw [respell, quotations, quotations, ihdomain, ihbody, List.map_append]
  | letIn bindings body ihbindings ihbody =>
    rw [respell, quotations, quotations, ihbody, respellBindings_eq_map,
      quotationsOfBindings_map ihbindings, List.map_append]
  | ann label body ih => exact ih
  | foreign label args ih =>
    rw [respell, quotations, quotations, respellArgs_eq_map, quotationsOfArgs_map ih]
  | _ => rfl

/-- Respelling a term with slack gives it more slack than the name has characters. -/
theorem lt_slack_respell {t : Term} (h : t.slack ≠ 0) :
    name.length < (t.respell name).slack := by
  induction t using Term.ind with
  | fvar id name' => exact Nat.lt_succ_self _
  | app fn args ihfn ihargs =>
    rw [respell, slack_nest, slack]
    omega
  | lam binder body ih => exact ih h
  | pi binder domain body ihdomain ihbody =>
    rw [respell, slack]
    by_cases hdomain : domain.slack = 0
    · have hbody : body.slack ≠ 0 := by simpa [slack, hdomain] using h
      exact Nat.lt_add_left _ (ihbody hbody)
    · exact Nat.lt_add_right _ (ihdomain hdomain)
  | letIn bindings body ihbindings ihbody =>
    rw [respell, slack, respellBindings_eq_map]
    by_cases hbody : body.slack = 0
    · have hbindings : slackOfBindings bindings ≠ 0 := by simpa [slack, hbody] using h
      obtain ⟨b, hb, hslack⟩ : ∃ b ∈ bindings, b.2.slack ≠ 0 := by
        simpa [slackOfBindings_eq_zero] using hbindings
      have hle := slack_le_slackOfBindings
        (List.mem_map_of_mem (f := fun b : String × Term => (b.1, b.2.respell name)) hb)
      exact Nat.lt_add_right _ (Nat.lt_of_lt_of_le (ihbindings b hb hslack) hle)
    · exact Nat.lt_add_left _ (ihbody hbody)
  | quote body ih => exact ih h
  | ann label body ih => exact ih h
  | foreign label args ih =>
    rw [respell, slack, respellArgs_eq_map]
    obtain ⟨a, ha, hslack⟩ : ∃ a ∈ args, a.slack ≠ 0 := by
      simpa [slack, slackOfArgs_eq_zero] using h
    exact Nat.lt_of_lt_of_le (ih a ha hslack)
      (slack_le_slackOfArgs (List.mem_map_of_mem (f := respell name) ha))
  | _ => cases h rfl

/-- Applications to nothing around an application disappear with its chain. -/
theorem flattenWith_nest (n : Nat) (fn : Term) (args : List Term) (pending : Option (List Term)) :
    flattenWith true (nest n (.app fn args)) pending = flattenWith true (.app fn args) pending := by
  induction n generalizing pending with
  | zero => rfl
  | succ n ih =>
    rw [nest, flattenWith, ih]
    rfl

theorem withoutNames_withArgs (quoted : Bool) (t : Term) (pending : Option (List Term)) :
    (t.withArgs pending).withoutNames quoted
      = (t.withoutNames quoted).withArgs (pending.map (withoutNamesInArgs quoted)) := by
  cases pending <;> rfl

theorem withoutNamesInArgs_append (quoted : Bool) (as bs : List Term) :
    withoutNamesInArgs quoted (as ++ bs)
      = withoutNamesInArgs quoted as ++ withoutNamesInArgs quoted bs := by
  simp [withoutNamesInArgs_eq_map]

theorem withoutNamesInArgs_respellArgs {quoted : Bool} {as : List Term}
    (h : ∀ a ∈ as, (flattenWith true (a.respell name) none).withoutNames quoted
      = (flattenWith true a none).withoutNames quoted) :
    withoutNamesInArgs quoted (flattenArgs true (respellArgs name as))
      = withoutNamesInArgs quoted (flattenArgs true as) := by
  simp only [withoutNamesInArgs_eq_map, flattenArgs_eq_map, respellArgs_eq_map, List.map_map]
  exact List.map_congr_left h

/-- Flattening and leaving out names undo a respelling.  The arguments that wait for the head of a
    chain may have been respelled before. -/
theorem withoutNames_flattenWith_respell (quoted : Bool) (t : Term)
    {pending pending' : Option (List Term)}
    (h : pending.map (withoutNamesInArgs quoted) = pending'.map (withoutNamesInArgs quoted)) :
    (flattenWith true (t.respell name) pending).withoutNames quoted
      = (flattenWith true t pending').withoutNames quoted := by
  induction t using Term.ind generalizing quoted pending pending' with
  | app fn args ihfn ihargs =>
    have hargs := withoutNamesInArgs_respellArgs name fun a ha => ihargs a ha quoted rfl
    have hpending : withoutNamesInArgs quoted (pending.getD [])
        = withoutNamesInArgs quoted (pending'.getD []) := by
      cases pending <;> cases pending' <;> simp_all
    rw [respell, flattenWith_nest, flattenWith, flattenWith]
    -- the arguments join those that wait, respelled on one side only
    refine ihfn quoted ?_
    simp only [Option.map_some, withoutNamesInArgs_append, hargs, hpending]
  | lam binder body ih =>
    simp only [respell, flattenWith, withoutNames_withArgs, h, withoutNames, ih quoted rfl]
  | pi binder domain body ihdomain ihbody =>
    simp only [respell, flattenWith, withoutNames_withArgs, h, withoutNames,
      ihdomain quoted rfl, ihbody quoted rfl]
  | letIn bindings body ihbindings ihbody =>
    have hbindings :
        withoutNamesInBindings quoted (flattenBindings true (respellBindings name bindings))
          = withoutNamesInBindings quoted (flattenBindings true bindings) := by
      simp only [withoutNamesInBindings_eq_map, flattenBindings_eq_map, respellBindings_eq_map,
        List.map_map]
      refine List.map_congr_left fun b hb => ?_
      simp only [Function.comp_apply, ihbindings b hb quoted rfl]
    simp only [respell, flattenWith, withoutNames_withArgs, h, withoutNames, hbindings,
      ihbody quoted rfl]
  | quote body ih =>
    -- inside, names of binders are kept, which respelling does not touch
    simp only [respell, flattenWith, withoutNames_withArgs, h, withoutNames, if_true,
      ih true rfl]
  | ann label body ih =>
    simp only [respell, flattenWith, withoutNames_withArgs, h, withoutNames, ih quoted rfl]
  | foreign label args ih =>
    have hargs := withoutNamesInArgs_respellArgs name fun a ha => ih a ha quoted rfl
    simp only [respell, flattenWith, withoutNames_withArgs, h, withoutNames, hargs]
  | _ => simp only [respell, flattenWith, withoutNames_withArgs, h, withoutNames]

theorem normal_respell (t : Term) : (t.respell name).normal = t.normal :=
  withoutNames_flattenWith_respell name false t rfl

end

end TermVM.Term
