/-
  TermVM.Proofs.Fingerprint.Key

  Which terms have a key, and what it depends on.

  A term has a key unless a part of it is absent.  The key depends on the normal
  form of the term and on nothing else of it, and it is the digest of its bytes
  in another notation: keys that agree are digests that agree.
-/
import TermVM.Proofs.Fingerprint.Soundness

namespace TermVM

/-! ## Hexadecimal text -/

theorem Text.hexDigit_inj {m n : Nat} (h : hexDigit m = hexDigit n) : m % 16 = n % 16 := by
  have hdigits : ∀ m < 16, ∀ n < 16, Nat.digitChar m = Nat.digitChar n → m = n := by decide
  exact hdigits _ (Nat.mod_lt m (by decide)) _ (Nat.mod_lt n (by decide)) h

theorem Text.hex_injective {bs cs : Bytes} (h : hex bs = hex cs) : bs = cs := by
  have hlist := String.ofList_injective h
  clear h
  induction bs generalizing cs with
  | nil =>
    cases cs with
    | nil => rfl
    | cons c cs => simp at hlist
  | cons b bs ih =>
    cases cs with
    | nil => simp at hlist
    | cons c cs =>
      simp only [List.flatMap_cons, List.cons_append, List.nil_append, List.cons.injEq] at hlist
      obtain ⟨hhigh, hlow, hrest⟩ := hlist
      have hb := b.toNat_lt
      have hc := c.toNat_lt
      have hhigh := hexDigit_inj hhigh
      have hlow := hexDigit_inj hlow
      have hbyte : b = c := UInt8.toNat_inj.mp (by omega)
      rw [hbyte, ih hrest]

namespace Fingerprint

/-! ## Absent parts -/

theorem isSome_flatBytesOfArgs? {as : List Term}
    (h : ∀ a ∈ as, ∀ quoted, (flatBytes? quoted a).isSome = a.isComplete) (quoted : Bool) :
    (flatBytesOfArgs? quoted as).isSome = Term.isCompleteArgs as := by
  induction as with
  | nil => rfl
  | cons a as ih =>
    rw [List.forall_mem_cons] at h
    rw [Term.isCompleteArgs, ← h.1 quoted, ← ih h.2, flatBytesOfArgs?]
    cases flatBytes? quoted a <;> cases flatBytesOfArgs? quoted as <;> rfl

theorem isSome_flatBytesOfBindings? {bs : List (String × Term)}
    (h : ∀ b ∈ bs, ∀ quoted, (flatBytes? quoted b.2).isSome = b.2.isComplete) (quoted : Bool) :
    (flatBytesOfBindings? quoted bs).isSome = Term.isCompleteBindings bs := by
  induction bs with
  | nil => rfl
  | cons b bs ih =>
    rw [List.forall_mem_cons] at h
    rw [Term.isCompleteBindings, ← h.1 quoted, ← ih h.2, flatBytesOfBindings?]
    cases flatBytes? quoted b.2 <;> cases flatBytesOfBindings? quoted bs <;> rfl

/-- A term has bytes exactly when no part of it is absent. -/
theorem isSome_flatBytes? (t : Term) (quoted : Bool) :
    (flatBytes? quoted t).isSome = t.isComplete := by
  induction t using Term.ind generalizing quoted with
  | app fn args ihfn ihargs =>
    rw [Term.isComplete, ← ihfn quoted, ← isSome_flatBytesOfArgs? ihargs quoted, flatBytes?]
    cases flatBytes? quoted fn <;> cases flatBytesOfArgs? quoted args <;> rfl
  | lam binder body ih =>
    rw [Term.isComplete, ← ih quoted, flatBytes?]
    cases flatBytes? quoted body <;> rfl
  | pi binder domain body ihdomain ihbody =>
    rw [Term.isComplete, ← ihdomain quoted, ← ihbody quoted, flatBytes?]
    cases flatBytes? quoted domain <;> cases flatBytes? quoted body <;> rfl
  | letIn bindings body ihbindings ihbody =>
    rw [Term.isComplete, ← isSome_flatBytesOfBindings? ihbindings quoted, ← ihbody quoted,
      flatBytes?]
    cases flatBytesOfBindings? quoted bindings <;> cases flatBytes? quoted body <;> rfl
  | quote body ih =>
    rw [Term.isComplete, ← ih true, flatBytes?]
    cases flatBytes? true body <;> rfl
  | ann name body ih =>
    rw [Term.isComplete, ← ih quoted, flatBytes?]
    cases flatBytes? quoted body <;> rfl
  | foreign name args ih =>
    rw [Term.isComplete, ← isSome_flatBytesOfArgs? ih quoted, flatBytes?]
    cases flatBytesOfArgs? quoted args <;> rfl
  | _ => rfl

theorem isSome_keyBytes? (t : Term) (table : DeclTable) (analyzers : Option Analyzers) :
    (keyBytes? t table analyzers).isSome = t.isComplete := by
  rw [← Term.isComplete_flattenDeep, ← isSome_flatBytes? t.flattenDeep false, keyBytes?]
  cases flatBytes? false t.flattenDeep <;> rfl

/-! ## Normal forms -/

theorem flatBytesOfArgs?_withoutNames {as : List Term}
    (h : ∀ a ∈ as, ∀ quoted, flatBytes? quoted (a.withoutNames quoted) = flatBytes? quoted a)
    (quoted : Bool) :
    flatBytesOfArgs? quoted (Term.withoutNamesInArgs quoted as) = flatBytesOfArgs? quoted as := by
  induction as with
  | nil => rfl
  | cons a as ih =>
    rw [List.forall_mem_cons] at h
    rw [Term.withoutNamesInArgs, flatBytesOfArgs?, flatBytesOfArgs?, h.1, ih h.2]

theorem flatBytesOfBindings?_withoutNames {bs : List (String × Term)}
    (h : ∀ b ∈ bs, ∀ quoted, flatBytes? quoted (b.2.withoutNames quoted) = flatBytes? quoted b.2)
    (quoted : Bool) :
    flatBytesOfBindings? quoted (Term.withoutNamesInBindings quoted bs)
      = flatBytesOfBindings? quoted bs := by
  induction bs with
  | nil => rfl
  | cons b bs ih =>
    rw [List.forall_mem_cons] at h
    rw [Term.withoutNamesInBindings, flatBytesOfBindings?, flatBytesOfBindings?, h.1, ih h.2]
    cases quoted <;> rfl

/-- The names that are left out do not show in the bytes of a term. -/
theorem flatBytes?_withoutNames (t : Term) (quoted : Bool) :
    flatBytes? quoted (t.withoutNames quoted) = flatBytes? quoted t := by
  induction t using Term.ind generalizing quoted with
  | app fn args ihfn ihargs =>
    rw [Term.withoutNames, flatBytes?, flatBytes?, ihfn, flatBytesOfArgs?_withoutNames ihargs,
      Term.length_withoutNamesInArgs]
  | lam binder body ih =>
    rw [Term.withoutNames, flatBytes?, flatBytes?, ih]
    cases quoted <;> rfl
  | pi binder domain body ihdomain ihbody =>
    rw [Term.withoutNames, flatBytes?, flatBytes?, ihdomain, ihbody]
    cases quoted <;> rfl
  | letIn bindings body ihbindings ihbody =>
    rw [Term.withoutNames, flatBytes?, flatBytes?, ihbody,
      flatBytesOfBindings?_withoutNames ihbindings, Term.length_withoutNamesInBindings]
  | quote body ih => rw [Term.withoutNames, flatBytes?, flatBytes?, ih]
  | ann name body ih => rw [Term.withoutNames, flatBytes?, flatBytes?, ih]
  | foreign name args ih =>
    rw [Term.withoutNames, flatBytes?, flatBytes?, flatBytesOfArgs?_withoutNames ih,
      Term.length_withoutNamesInArgs]
  | _ => rfl

theorem fitsArgs_withoutNames {as : List Term}
    (h : ∀ a ∈ as, ∀ quoted, fits quoted (a.withoutNames quoted) = fits quoted a) (quoted : Bool) :
    fitsArgs quoted (Term.withoutNamesInArgs quoted as) = fitsArgs quoted as := by
  induction as with
  | nil => rfl
  | cons a as ih =>
    rw [List.forall_mem_cons] at h
    rw [Term.withoutNamesInArgs, fitsArgs, fitsArgs, h.1, ih h.2]

theorem fitsBindings_withoutNames {bs : List (String × Term)}
    (h : ∀ b ∈ bs, ∀ quoted, fits quoted (b.2.withoutNames quoted) = fits quoted b.2)
    (quoted : Bool) :
    fitsBindings quoted (Term.withoutNamesInBindings quoted bs) = fitsBindings quoted bs := by
  induction bs with
  | nil => rfl
  | cons b bs ih =>
    rw [List.forall_mem_cons] at h
    rw [Term.withoutNamesInBindings, fitsBindings, fitsBindings, h.1, ih h.2]
    cases quoted <;> rfl

/-- Only the lengths of names that are written matter. -/
theorem fits_withoutNames (t : Term) (quoted : Bool) :
    fits quoted (t.withoutNames quoted) = fits quoted t := by
  induction t using Term.ind generalizing quoted with
  | app fn args ihfn ihargs =>
    rw [Term.withoutNames, fits, fits, ihfn, fitsArgs_withoutNames ihargs,
      Term.length_withoutNamesInArgs]
  | lam binder body ih =>
    rw [Term.withoutNames, fits, fits, ih]
    cases quoted <;> rfl
  | pi binder domain body ihdomain ihbody =>
    rw [Term.withoutNames, fits, fits, ihdomain, ihbody]
    cases quoted <;> rfl
  | letIn bindings body ihbindings ihbody =>
    rw [Term.withoutNames, fits, fits, ihbody, fitsBindings_withoutNames ihbindings,
      Term.length_withoutNamesInBindings]
  | quote body ih => rw [Term.withoutNames, fits, fits, ih]
  | ann name body ih => rw [Term.withoutNames, fits, fits, ih]
  | foreign name args ih =>
    rw [Term.withoutNames, fits, fits, fitsArgs_withoutNames ih, Term.length_withoutNamesInArgs]
  | _ => rfl

theorem measured_eq_of_normal_eq {s t : Term} (h : s.normal = t.normal) :
    measured s = measured t := by
  unfold measured
  rw [← fits_withoutNames s.flattenDeep, ← fits_withoutNames t.flattenDeep]
  exact congrArg (fits false) h

theorem flatBytes?_eq_of_normal_eq {s t : Term} (h : s.normal = t.normal) :
    flatBytes? false s.flattenDeep = flatBytes? false t.flattenDeep := by
  rw [← flatBytes?_withoutNames s.flattenDeep, ← flatBytes?_withoutNames t.flattenDeep]
  exact congrArg (flatBytes? false) h

/-- A key depends on the normal form of a term and on nothing else of it. -/
theorem keyBytes?_eq_of_normal_eq {s t : Term} (h : s.normal = t.normal) (table : DeclTable)
    (analyzers : Option Analyzers) : keyBytes? s table analyzers = keyBytes? t table analyzers := by
  have hnames : globals s = globals t := by
    rw [← globals_normal s, h, globals_normal]
  unfold keyBytes?
  rw [flatBytes?_eq_of_normal_eq h, hnames]

end Fingerprint

end TermVM
