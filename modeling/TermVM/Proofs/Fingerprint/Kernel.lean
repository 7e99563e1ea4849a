/-
  TermVM.Proofs.Fingerprint.Kernel

  Which terms share a serialization.

  Two terms are written as the same bytes when they differ only in how their
  application chains are nested and in names that bind or identify nothing:
  those of free locals, and outside quotations those of binders.  Terms that
  differ in anything else differ in their bytes, and no serialization goes on
  where another one ends: `serialize?_eq_iff_collapsed`.
-/
import TermVM.Proofs.Fingerprint.Key

namespace TermVM

namespace Term

/-! ## Chains as single nodes -/

/-- A term applied to arguments.  An application takes them behind the arguments it has. -/
def extended : Term → List Term → Term
  | app fn args, more => app fn (args ++ more)
  | t, more => app t more

mutual

/-- A term in which the head of no application is an application: a chain of them has become one,
    with the arguments of all in order. -/
def collapsed : Term → Term
  | app fn args => fn.collapsed.extended (collapsedArgs args)
  | lam binder body => lam binder body.collapsed
  | pi binder domain body => pi binder domain.collapsed body.collapsed
  | letIn bindings body => letIn (collapsedBindings bindings) body.collapsed
  | quote body => quote body.collapsed
  | ann name body => ann name body.collapsed
  | foreign name args => foreign name (collapsedArgs args)
  | t => t

/-- The terms of a list, collapsed. -/
def collapsedArgs : List Term → List Term
  | [] => []
  | a :: as => a.collapsed :: collapsedArgs as

/-- Bindings with their values collapsed. -/
def collapsedBindings : List (String × Term) → List (String × Term)
  | [] => []
  | (name, v) :: bs => (name, v.collapsed) :: collapsedBindings bs

end

/-- A term at the head of a chain whose other arguments are pending. -/
def extendedBy (t : Term) : Option (List Term) → Term
  | none => t
  | some args => t.extended args

theorem extended_extended (t : Term) (as bs : List Term) :
    (t.extended as).extended bs = t.extended (as ++ bs) := by
  cases t with
  | app fn args => simp [extended]
  | _ => rfl

theorem extendedBy_extended (t : Term) (as : List Term) (pending : Option (List Term)) :
    (t.extended as).extendedBy pending = t.extended (as ++ pending.getD []) := by
  cases pending with
  | none => simp [extendedBy]
  | some bs => exact extended_extended t as bs

theorem flattenArgs_eq_collapsedArgs {as : List Term}
    (h : ∀ a ∈ as, flattenWith true a none = a.collapsed) :
    flattenArgs true as = collapsedArgs as := by
  induction as with
  | nil => rfl
  | cons a as ih =>
    rw [List.forall_mem_cons] at h
    rw [flattenArgs, collapsedArgs, h.1, ih h.2]

theorem flattenBindings_eq_collapsedBindings {bs : List (String × Term)}
    (h : ∀ b ∈ bs, flattenWith true b.2 none = b.2.collapsed) :
    flattenBindings true bs = collapsedBindings bs := by
  induction bs with
  | nil => rfl
  | cons b bs ih =>
    rw [List.forall_mem_cons] at h
    rw [flattenBindings, collapsedBindings, h.1, ih h.2]

/-- Carrying the arguments of a chain down to its head gives what collecting them on the way up
    gives. -/
theorem flattenWith_eq_collapsed (t : Term) (pending : Option (List Term)) :
    flattenWith true t pending = t.collapsed.extendedBy pending := by
  induction t using Term.ind generalizing pending with
  | app fn args ihfn ihargs =>
    have hargs : flattenArgs true args = collapsedArgs args :=
      flattenArgs_eq_collapsedArgs fun a ha => ihargs a ha none
    rw [flattenWith, ihfn, hargs, collapsed, extendedBy_extended]
    rfl
  | lam binder body ih =>
    rw [flattenWith, ih none]
    cases pending <;> rfl
  | pi binder domain body ihdomain ihbody =>
    rw [flattenWith, ihdomain none, ihbody none]
    cases pending <;> rfl
  | letIn bindings body ihbindings ihbody =>
    have hbindings : flattenBindings true bindings = collapsedBindings bindings :=
      flattenBindings_eq_collapsedBindings fun b hb => ihbindings b hb none
    rw [flattenWith, hbindings, ihbody none]
    cases pending <;> rfl
  | quote body ih =>
    rw [flattenWith, if_pos rfl, ih none]
    cases pending <;> rfl
  | ann name body ih =>
    rw [flattenWith, ih none]
    cases pending <;> rfl
  | foreign name args ih =>
    have hargs : flattenArgs true args = collapsedArgs args :=
      flattenArgs_eq_collapsedArgs fun a ha => ih a ha none
    rw [flattenWith, hargs]
    cases pending <;> rfl
  | _ => cases pending <;> rfl

/-- What is left of a term in its fingerprint is its collapsed form without names. -/
theorem normal_eq_collapsed (t : Term) : t.normal = t.collapsed.withoutNames false :=
  congrArg (withoutNames false) (flattenWith_eq_collapsed t none)

end Term

namespace Fingerprint

/-! ## Bytes and normal forms -/

/-- A term without absent parts is written as the version byte and its own bytes. -/
theorem exists_serialize? {t : Term} (h : t.isComplete = true) :
    ∃ bs, flatBytes? false t.flattenDeep = some bs ∧ serialize? t = some (version :: bs) := by
  have hsome : (flatBytes? false t.flattenDeep).isSome = true := by
    rw [isSome_flatBytes?, Term.isComplete_flattenDeep, h]
  obtain ⟨bs, hbs⟩ := Option.isSome_iff_exists.mp hsome
  refine ⟨bs, hbs, ?_⟩
  rw [serialize?, hbs]
  rfl

/-- Two serializations agree exactly when their terms do, once chains are collapsed and the names
    that are not written are gone.  None of them is a proper initial part of another. -/
theorem serialize?_eq_iff_collapsed {s t : Term} (hs : s.isComplete = true)
    (ht : t.isComplete = true) (hsfits : measured s = true) (htfits : measured t = true) :
    ∃ bs cs, serialize? s = some bs ∧ serialize? t = some cs ∧
      (bs = cs ↔ s.collapsed.withoutNames false = t.collapsed.withoutNames false) ∧
      (bs <+: cs → bs = cs) := by
  obtain ⟨bs, hbs, hserial⟩ := exists_serialize? hs
  obtain ⟨cs, hcs, hserial'⟩ := exists_serialize? ht
  rw [← Term.normal_eq_collapsed, ← Term.normal_eq_collapsed]
  -- whatever follows the bytes, the normal form can be read off their front
  have hread : ∀ rest, bs ++ rest = cs → s.normal = t.normal ∧ rest = [] := by
    intro rest hrest
    exact withoutNames_eq_of_append_eq hsfits htfits hbs hcs
      (hrest.trans (List.append_nil cs).symm)
  refine ⟨_, _, hserial, hserial', ⟨?_, ?_⟩, ?_⟩
  · intro heq
    have htail : bs = cs := (List.cons.inj heq).2
    exact (hread [] ((List.append_nil bs).trans htail)).1
  · intro hnormal
    have hbytes : some bs = some cs := by
      rw [← hbs, ← hcs, flatBytes?_eq_of_normal_eq hnormal]
    rw [Option.some.inj hbytes]
  · rintro ⟨rest, hrest⟩
    have htail : bs ++ rest = cs := (List.cons.inj hrest).2
    obtain ⟨-, rfl⟩ := hread rest htail
    rw [← htail, List.append_nil]

/-- A flat call that differs from a nested one in the names of its parameter and of a quoted local
    has the same bytes. -/
theorem serialize?_curried : curried ≠ uncurried ∧ serialize? curried = serialize? uncurried := by
  obtain ⟨bs, cs, hbs, hcs, hiff, -⟩ := @serialize?_eq_iff_collapsed curried uncurried
    (by decide +kernel) (by decide +kernel) (by decide +kernel) (by decide +kernel)
  refine ⟨by decide +kernel, ?_⟩
  rw [hbs, hcs, hiff.mpr (by decide +kernel)]

end Fingerprint

end TermVM
