/-
  TermVM.Proofs.Result

  Computations that give a value or a failure: what it takes for a sequence of
  them to give a value.  These equations open the sequences of the model, so
  that no later proof unfolds `bind`.
-/
import Mathlib.Data.List.Forall2
import Mathlib.Data.List.Nodup
import Mathlib.Logic.Relation

namespace TermVM.Result

variable {ε α β : Type}

@[simp] theorem ok_bind (a : α) (f : α → Except ε β) : (Except.ok a >>= f) = f a := rfl

@[simp] theorem error_bind (e : ε) (f : α → Except ε β) :
    ((Except.error e : Except ε α) >>= f) = .error e := rfl

@[simp] theorem bind_ok (x : Except ε α) : (x >>= Except.ok) = x := by
  cases x <;> rfl

@[simp] theorem pure_eq (a : α) : (pure a : Except ε α) = .ok a := rfl

@[simp] theorem throw_eq (e : ε) : (throw e : Except ε α) = .error e := rfl

/-- A sequence gives a value when both of its parts do. -/
theorem bind_eq_ok {x : Except ε α} {f : α → Except ε β} {b : β} :
    (x >>= f) = .ok b ↔ ∃ a, x = .ok a ∧ f a = .ok b := by
  cases x with
  | error e => simp
  | ok a => simp

/-- A sequence fails when its first part does, or its second part after a value. -/
theorem bind_eq_error {x : Except ε α} {f : α → Except ε β} {e : ε} :
    (x >>= f) = .error e ↔ x = .error e ∨ ∃ a, x = .ok a ∧ f a = .error e := by
  cases x with
  | error e' => simp
  | ok a => simp

theorem eq_ok_of_toOption {x : Except ε α} {a : α} (h : x.toOption = some a) : x = .ok a := by
  cases x with
  | error e => cases h
  | ok b => exact congrArg Except.ok (Option.some.inj h)

/-- Renaming a failure neither makes a value nor takes one away. -/
@[simp] theorem mapError_eq_ok {ε' : Type} {f : ε → ε'} {x : Except ε α} {a : α} :
    x.mapError f = .ok a ↔ x = .ok a := by
  cases x with
  | error e =>
    show Except.error (f e) = .ok a ↔ Except.error e = .ok a
    simp
  | ok b =>
    show (Except.ok b : Except ε' α) = .ok a ↔ (Except.ok b : Except ε α) = .ok a
    simp

theorem map_eq_ok {f : α → β} {x : Except ε α} {b : β} :
    x.map f = .ok b ↔ ∃ a, x = .ok a ∧ f a = b := by
  cases x <;> simp [Except.map]

/-- What every step of a fold preserves, the fold preserves. -/
theorem foldlM_invariant {ε α β : Type} {P : β → Prop} {f : β → α → Except ε β}
    (hstep : ∀ b a b', f b a = .ok b' → P b → P b') {l : List α} {b b' : β} (hb : P b)
    (h : l.foldlM f b = .ok b') : P b' := by
  induction l generalizing b with
  | nil =>
    cases h
    exact hb
  | cons a l ih =>
    rw [List.foldlM_cons] at h
    obtain ⟨b₁, h₁, h⟩ := bind_eq_ok.mp h
    exact ih (hstep b a b₁ h₁ hb) h

/-- A fold is a run of its steps. -/
theorem foldlM_steps {ε α β : Type} {R : β → β → Prop} {f : β → α → Except ε β}
    {l : List α} {b b' : β} (h : l.foldlM f b = .ok b')
    (hstep : ∀ b a b', f b a = .ok b' → R b b') : Relation.ReflTransGen R b b' :=
  foldlM_invariant (fun _ _ _ h₁ hrun => hrun.tail (hstep _ _ _ h₁)) .refl h

/-! ## Folds that take every key once -/

/-- A step that takes elements in one after the other, and refuses an element whose key it has
    seen.  `Holds as s` says that `s` is what comes of the elements `as`; only elements that fit are
    spoken of. -/
structure Collects {ε σ α κ : Type} (f : σ → α → Except ε σ) (key : α → κ) (refusal : α → ε)
    (Fits : α → Prop) (Holds : List α → σ → Prop) : Prop where
  add : ∀ {as : List α} {s : σ} {a : α}, Fits a → Holds as s → key a ∉ as.map key →
    ∃ s', f s a = .ok s' ∧ Holds (as ++ [a]) s'
  refuse : ∀ {as : List α} {s : σ} {a : α}, Fits a → Holds as s → key a ∈ as.map key →
    f s a = .error (refusal a)

namespace Collects

variable {ε σ α κ : Type} {f : σ → α → Except ε σ} {key : α → κ} {refusal : α → ε}
  {Fits : α → Prop} {Holds : List α → σ → Prop} {seen as : List α} {s : σ}

theorem nodup_map_concat {a : α} :
    ((as ++ [a]).map key).Nodup ↔ (as.map key).Nodup ∧ key a ∉ as.map key := by
  rw [List.map_append, List.map_singleton, ← List.concat_eq_append, List.nodup_concat, and_comm]

/-- Elements of distinct keys are all taken in. -/
theorem foldlM_of_nodup (h : Collects f key refusal Fits Holds) (hfits : ∀ a ∈ as, Fits a)
    (hs : Holds seen s) (hnodup : ((seen ++ as).map key).Nodup) :
    ∃ s', as.foldlM f s = .ok s' ∧ Holds (seen ++ as) s' := by
  induction as generalizing seen s with
  | nil => exact ⟨s, rfl, by rwa [List.append_nil]⟩
  | cons a as ih =>
    rw [List.append_cons] at hnodup
    obtain ⟨ha, hfits⟩ := List.forall_mem_cons.mp hfits
    have hnew : key a ∉ seen.map key := by
      rw [List.map_append] at hnodup
      exact (nodup_map_concat.mp (List.nodup_append.mp hnodup).1).2
    obtain ⟨s₁, hstep, hs₁⟩ := h.add ha hs hnew
    obtain ⟨s', hrest, hs'⟩ := ih hfits hs₁ hnodup
    rw [List.foldlM_cons, hstep, List.append_cons]
    exact ⟨s', hrest, hs'⟩

/-- The first element whose key has been seen is refused. -/
theorem foldlM_of_not_nodup (h : Collects f key refusal Fits Holds) (hfits : ∀ a ∈ as, Fits a)
    (hs : Holds seen s) (hseen : (seen.map key).Nodup) (hnodup : ¬((seen ++ as).map key).Nodup) :
    ∃ before a after, as = before ++ a :: after ∧ ((seen ++ before).map key).Nodup ∧
      key a ∈ (seen ++ before).map key ∧ as.foldlM f s = .error (refusal a) := by
  induction as generalizing seen s with
  | nil =>
    rw [List.append_nil] at hnodup
    exact absurd hseen hnodup
  | cons a as ih =>
    obtain ⟨ha, hfits⟩ := List.forall_mem_cons.mp hfits
    by_cases hmem : key a ∈ seen.map key
    · refine ⟨[], a, as, rfl, by rwa [List.append_nil], by rwa [List.append_nil], ?_⟩
      rw [List.foldlM_cons, h.refuse ha hs hmem, error_bind]
    · obtain ⟨s₁, hstep, hs₁⟩ := h.add ha hs hmem
      have hseen₁ : ((seen ++ [a]).map key).Nodup := nodup_map_concat.mpr ⟨hseen, hmem⟩
      rw [List.append_cons] at hnodup
      obtain ⟨before, b, after, rfl, hdistinct, hb, herror⟩ := ih hfits hs₁ hseen₁ hnodup
      refine ⟨a :: before, b, after, rfl, ?_, ?_, ?_⟩
      · rwa [List.append_cons]
      · rwa [List.append_cons]
      · rw [List.foldlM_cons, hstep, ok_bind, herror]

end Collects

/-! ## Lists of computations -/

section Lists

variable {as : List α} {bs : List β}

theorem exists_forall₂ {R : α → β → Prop} (h : ∀ a ∈ as, ∃ b, R a b) :
    ∃ bs, List.Forall₂ R as bs := by
  induction as with
  | nil => exact ⟨[], .nil⟩
  | cons a as ih =>
    obtain ⟨⟨b, hb⟩, hrest⟩ := List.forall_mem_cons.mp h
    obtain ⟨bs, hbs⟩ := ih hrest
    exact ⟨b :: bs, .cons hb hbs⟩

/-- Every element of the second of two related lists has a partner in the first. -/
theorem exists_of_mem_right {R : α → β → Prop} {b : β} (h : List.Forall₂ R as bs) (hb : b ∈ bs) :
    ∃ a ∈ as, R a b := by
  induction h with
  | nil => cases hb
  | cons hfirst hrest ih =>
    rcases List.mem_cons.mp hb with rfl | hb
    · exact ⟨_, List.mem_cons_self, hfirst⟩
    · obtain ⟨a, ha, hr⟩ := ih hb
      exact ⟨a, List.mem_cons_of_mem _ ha, hr⟩

/-- A list of computations gives the values that they give one by one. -/
theorem mapM_eq_ok {f : α → Except ε β} :
    as.mapM f = .ok bs ↔ List.Forall₂ (fun a b => f a = .ok b) as bs := by
  induction as generalizing bs with
  | nil => cases bs <;> simp
  | cons a as ih =>
    rw [List.mapM_cons, bind_eq_ok]
    simp only [bind_eq_ok, pure_eq, Except.ok.injEq, ih, List.forall₂_cons_left_iff]
    simp only [eq_comm, exists_and_left]

theorem mapM_eq_some {f : α → Option β} :
    as.mapM f = some bs ↔ List.Forall₂ (fun a b => f a = some b) as bs := by
  induction as generalizing bs with
  | nil => cases bs <;> simp
  | cons a as ih =>
    simp only [List.mapM_cons, Option.pure_def, Option.bind_eq_bind, Option.bind_eq_some_iff,
      Option.some.injEq, ih, List.forall₂_cons_left_iff]
    simp only [eq_comm, exists_and_left]

end Lists

/-! ## Searches by key -/

/-- An element is found by its key if no other has that key. -/
theorem find?_of_nodup {α κ : Type} [BEq κ] [LawfulBEq κ] {key : α → κ} {as : List α}
    (hnodup : (as.map key).Nodup) {a : α} (ha : a ∈ as) :
    as.find? (fun x => key x == key a) = some a := by
  have hsome : as.find? (fun x => key x == key a) ≠ none := by
    intro hnone
    exact List.find?_eq_none.mp hnone a ha BEq.rfl
  obtain ⟨b, hb⟩ := Option.ne_none_iff_exists'.mp hsome
  have hkey : key b = key a := by simpa using List.find?_some hb
  rw [hb, List.inj_on_of_nodup_map hnodup (List.mem_of_find?_eq_some hb) ha hkey]

/-! ## Two computations side by side -/

/-- Both computations give a value or neither does, and `f` takes one value to the other.  What
    they fail with may differ. -/
def Parallel {ε α β : Type} (f : α → β) (x : Except ε α) (y : Except ε β) : Prop :=
  y.toOption = x.toOption.map f

theorem Parallel.bind {ε α α' β β' : Type} {f : α → α'} {g : β → β'} {x : Except ε α}
    {y : Except ε α'} {k : α → Except ε β} {k' : α' → Except ε β'} (h : Parallel f x y)
    (hk : ∀ a, Parallel g (k a) (k' (f a))) : Parallel g (x >>= k) (y >>= k') := by
  cases x with
  | error e =>
    cases y with
    | error e' => rfl
    | ok b => cases h
  | ok a =>
    cases y with
    | error e' => cases h
    | ok b =>
      obtain rfl : b = f a := Option.some.inj h
      exact hk a

theorem Parallel.eq_ok_iff {ε α β : Type} {f : α → β} {x : Except ε α} {y : Except ε β}
    (h : Parallel f x y) {b : β} : y = .ok b ↔ ∃ a, x = .ok a ∧ f a = b := by
  have hy : y = .ok b ↔ y.toOption = some b := by cases y <;> simp [Except.toOption]
  rw [hy, h]
  cases x <;> simp [Except.toOption]

end TermVM.Result
