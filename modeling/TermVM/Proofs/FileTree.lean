/-
  TermVM.Proofs.FileTree

  A file that was written is read back.

  Writing changes what stands at one place, which is no directory, so every
  path still leads where it led.  What cannot be read back is what was written
  to a device or a stream.
-/
import TermVM.FileTree
import TermVM.Proofs.Result

namespace TermVM.FileTree

open Result

variable {t t' : FileTree} {p q : Place} {e : Entry} {path : String} {content : Bytes}

theorem entry?_set (hp : p ≠ []) (q : Place) :
    entry? (t.set p e) q = if q = p then some e else t.entry? q := by
  by_cases hq : q = p
  · subst hq
    have hnone : (t.entries.filter fun x => x.1 != q).find? (fun x => x.1 == q) = none := by
      rw [List.find?_eq_none]
      intro x hx
      simpa using (List.mem_filter.mp hx).2
    rw [if_pos rfl, entry?, if_neg (by simpa using hp), set, erase, List.find?_append, hnone]
    simp
  · have hfilter : (t.entries.filter fun x => x.1 != p).find? (fun x => x.1 == q)
        = t.entries.find? fun x => x.1 == q := by
      rw [List.find?_filter]
      congr 1
      funext x
      by_cases hx : x.1 = q
      · simp [hx, hq]
      · simp [hx]
    have hlast : [(p, e)].find? (fun x => x.1 == q) = none := by
      simpa using Ne.symm hq
    rw [if_neg hq, entry?, entry?, set, erase, List.find?_append, hfilter, hlast, Option.or_none]

theorem ne_nil_of_not_directory (h : t.entry? p ≠ some .directory) : p ≠ [] := by
  rintro rfl
  exact h rfl

/-- A way through directories is not touched by what is put elsewhere than in place of one. -/
theorem follow_set (hp : t.entry? p ≠ some .directory) {here : Place} {parts : List String}
    (h : t.follow here parts = .ok q) : (t.set p e).follow here parts = .ok q := by
  induction parts generalizing here with
  | nil => exact h
  | cons part rest ih =>
    rw [follow] at h ⊢
    cases hhere : t.entry? here with
    | none =>
      rw [hhere] at h
      cases h
    | some entry =>
      cases entry with
      | directory =>
        have hne : here ≠ p := fun heq => hp (heq ▸ hhere)
        rw [entry?_set (ne_nil_of_not_directory hp), if_neg hne]
        rw [hhere] at h ⊢
        dsimp only at h ⊢
        split_ifs at h ⊢
        · exact ih h
        · exact ih h
        · exact ih h
      | _ =>
        rw [hhere] at h
        cases h

theorem place_set (hp : t.entry? p ≠ some .directory) (h : t.place path = .ok q) :
    (t.set p e).place path = .ok q := by
  obtain ⟨here, hhere, h⟩ := bind_eq_ok.mp h
  exact bind_eq_ok.mpr ⟨here, hhere, follow_set hp h⟩

/-- A file is made where its path leads. -/
theorem place_of_placeToWrite (h : t.placeToWrite path = .ok p) : t.place path = .ok p := by
  obtain ⟨here, -, h⟩ := bind_eq_ok.mp h
  split at h
  · split at h
    · split at h
      · exact h
      · obtain ⟨_, -, h⟩ := bind_eq_ok.mp h
        cases h
    · exact h
  · exact h

/-- What stands at a path after something was put there that is no directory. -/
theorem stat?_set (hp : t.entry? p ≠ some .directory) (h : t.place path = .ok p) :
    (t.set p e).stat? path = some e := by
  rw [stat?, place_set hp h]
  dsimp only
  rw [entry?_set (ne_nil_of_not_directory hp), if_pos rfl]

theorem read_of_stat? (h : t.stat? path = some (.file content)) : t.read path = .ok content := by
  rw [stat?] at h
  rw [read]
  split at h
  · next p hp =>
    rw [hp]
    dsimp only
    rw [h]
  · cases h

/-- What was written is read back, if a file is there afterwards. -/
theorem read_of_write (h : t.write path content = .ok t')
    (hfile : ∃ content', t'.stat? path = some (.file content')) : t'.read path = .ok content := by
  obtain ⟨content', hfile⟩ := hfile
  rw [write] at h
  cases hplace : t.placeToWrite path with
  | error trouble =>
    rw [hplace] at h
    cases h
  | ok p =>
    have hp := place_of_placeToWrite hplace
    rw [hplace] at h
    dsimp only at h
    cases hentry : t.entry? p with
    | none =>
      rw [hentry] at h
      cases h
      exact read_of_stat? (stat?_set (by simp [hentry]) hp)
    | some entry =>
      rw [hentry] at h
      cases entry with
      | directory => cases h
      | file old =>
        cases h
        exact read_of_stat? (stat?_set (by simp [hentry]) hp)
      | device kind =>
        cases kind with
        | full => cases h
        | null =>
          -- a device stays a device
          cases h
          rw [stat?, hp] at hfile
          cases hentry.symm.trans hfile
      | stream written =>
        cases h
        rw [stat?_set (by simp [hentry]) hp] at hfile
        cases hfile

end TermVM.FileTree
