/-
  TermVM.Proofs.Term.Node

  Terms and their nodes.

  A term without absent parts has a node, which holds the nodes of its children
  beside what the term holds itself.  Turning the node back gives the term or
  fails, and it fails exactly when some part of the term is of a shape that no
  node stands for: an application to nothing, a negative literal, a marker that
  has no meaning.
-/
import TermVM.Proofs.Codec
import TermVM.Proofs.Result
import TermVM.Proofs.Term.Parts
import TermVM.Term.Node

namespace TermVM

open Result

variable {ν : Type} [Spelling ν]

/-- What the node of a term holds besides the nodes of its children. -/
def Term.shell : Term ν → Node ν
  | absent => {}
  | var index => { kind := Kind.var.toByte, index := index }
  | sort level => { kind := Kind.sort.toByte, name := level }
  | mvar name => { kind := Kind.mvar.toByte, name := name }
  | const name marker =>
      { kind := Kind.const.toByte, name := name, marker := marker.kind.toByte,
        index := marker.index }
  | fvar id name => { kind := Kind.fvar.toByte, name := name, id := id }
  | app _ _ => { kind := Kind.app.toByte }
  | lam binder _ => { kind := Kind.lam.toByte, name := binder }
  | pi binder _ _ => { kind := Kind.pi.toByte, name := binder }
  | letIn bindings _ => { kind := Kind.letIn.toByte, names := bindings.map (·.1) }
  | nat value =>
      { kind := Kind.extension.toByte, extension := 1, num := Text.decimal value }
  | quote _ => { kind := Kind.extension.toByte, extension := 2 }
  | ann name _ => { kind := Kind.extension.toByte, extension := 3, name := name }
  | foreign name _ => { kind := Kind.extension.toByte, extension := 4, name := name }

/-- Whether the node of a term, with its children known, stands for the term: an application has an
    argument, a literal is not negative, and a marker has a meaning. -/
def Term.isRegular {ν : Type} : Term ν → Bool
  | absent => false
  | const _ marker => marker.kind.toByte ≤ 5
  | app _ args => !args.isEmpty
  | nat value => 0 ≤ value
  | _ => true

namespace Node

/-! ## From terms -/

theorem ofBindings?_eq (bs : List (ν × Term ν)) :
    ofBindings? bs = ofTerms? (bs.map (·.2)) := by
  induction bs with
  | nil => rfl
  | cons b bs ih => rw [ofBindings?, List.map_cons, ofTerms?, ih]

theorem ofTerms?_cons {t : Term ν} {ts : List (Term ν)} {ns : List (Node ν)} :
    ofTerms? (t :: ts) = some ns ↔
      ∃ n rest, ofTerm? t = some n ∧ ofTerms? ts = some rest ∧ n :: rest = ns := by
  simp [ofTerms?, Option.bind_eq_some_iff]

theorem ofTerms?_concat (ts : List (Term ν)) (u : Term ν) :
    ofTerms? (ts ++ [u]) = (do
      let ns ← ofTerms? ts
      let n ← ofTerm? u
      return ns ++ [n]) := by
  induction ts with
  | nil =>
    show (ofTerm? u >>= fun n => some [n]) = _
    cases ofTerm? u <;> rfl
  | cons t ts ih =>
    rw [List.cons_append, ofTerms?, ofTerms?, ih]
    cases ofTerm? t with
    | none => rfl
    | some n =>
      cases ofTerms? ts with
      | none => rfl
      | some ns => cases ofTerm? u <;> rfl

theorem exists_mem_of_ofTerms? {ts : List (Term ν)} {ns : List (Node ν)} (h : ofTerms? ts = some ns)
    {t : Term ν} (ht : t ∈ ts) : ∃ n ∈ ns, ofTerm? t = some n := by
  induction ts generalizing ns with
  | nil => exact absurd ht List.not_mem_nil
  | cons u us ih =>
    obtain ⟨n, rest, hn, hrest, rfl⟩ := ofTerms?_cons.mp h
    rcases List.mem_cons.mp ht with rfl | ht
    · exact ⟨n, List.mem_cons_self, hn⟩
    · obtain ⟨m, hm, ht⟩ := ih hrest ht
      exact ⟨m, List.mem_cons_of_mem n hm, ht⟩

theorem length_ofTerms? {ts : List (Term ν)} {ns : List (Node ν)} (h : ofTerms? ts = some ns) :
    ns.length = ts.length := by
  induction ts generalizing ns with
  | nil =>
    cases h
    rfl
  | cons t ts ih =>
    obtain ⟨n, rest, -, hrest, rfl⟩ := ofTerms?_cons.mp h
    rw [List.length_cons, List.length_cons, ih hrest]

/-- The node of a term is put together from what the term holds itself and the nodes of its
    children. -/
theorem ofTerm?_eq {t : Term ν} (h : t ≠ .absent) :
    ofTerm? t = (ofTerms? t.children).map fun ks => { t.shell with kids := ks } := by
  cases t with
  | absent => exact absurd rfl h
  | app fn args =>
    rw [ofTerm?, Term.children, ofTerms?]
    cases ofTerm? fn with
    | none => rfl
    | some f => cases ofTerms? args <;> rfl
  | pi binder domain body =>
    rw [ofTerm?, Term.children, ofTerms?, ofTerms?, ofTerms?]
    cases ofTerm? domain with
    | none => rfl
    | some d => cases ofTerm? body <;> rfl
  | letIn bindings body =>
    rw [ofTerm?, Term.children, ofTerms?_concat, ofBindings?_eq]
    cases ofTerms? (bindings.map (·.2)) with
    | none => rfl
    | some vs => cases ofTerm? body <;> rfl
  | lam binder body | quote body | ann name body =>
    rw [ofTerm?, Term.children, ofTerms?, ofTerms?]
    cases ofTerm? body <;> rfl
  | foreign name args =>
    rw [ofTerm?, Term.children]
    cases ofTerms? args <;> rfl
  | _ => rfl

theorem ofTerm?_eq_some {t : Term ν} {n : Node ν} (h : ofTerm? t = some n) :
    t ≠ .absent ∧ ∃ ks, ofTerms? t.children = some ks ∧ { t.shell with kids := ks } = n := by
  have hne : t ≠ .absent := by
    rintro rfl
    cases h
  rw [ofTerm?_eq hne] at h
  exact ⟨hne, Option.map_eq_some_iff.mp h⟩

/-- A term without absent parts has a node. -/
theorem exists_ofTerm? {t : Term ν} (h : t.isComplete = true) : ∃ n, ofTerm? t = some n := by
  induction t using Term.childInd with
  | step t ih =>
    obtain ⟨hne, hchildren⟩ := Term.isComplete_iff.mp h
    have hnodes : ∃ ks, ofTerms? t.children = some ks := by
      generalize t.children = us at ih hchildren
      induction us with
      | nil => exact ⟨[], rfl⟩
      | cons u us ihus =>
        obtain ⟨ihu, ihrest⟩ := List.forall_mem_cons.mp ih
        obtain ⟨hu, hrest⟩ := List.forall_mem_cons.mp hchildren
        obtain ⟨n, hn⟩ := ihu hu
        obtain ⟨rest, hrest⟩ := ihus ihrest hrest
        exact ⟨n :: rest, ofTerms?_cons.mpr ⟨n, rest, hn, hrest, rfl⟩⟩
    obtain ⟨ks, hks⟩ := hnodes
    rw [ofTerm?_eq hne, hks]
    exact ⟨_, rfl⟩

/-! ## Back to terms -/

/-- A node is turned back into the term it was made from, or into nothing; the latter if some part
    of the term is irregular. -/
def Rebuilds (t : Term ν) : Prop :=
  ∀ n, ofTerm? t = some n → ∀ t', n.toTerm = .ok t' ↔
    (∀ u ∈ t.parts, u.isRegular = true) ∧ t' = t

theorem toTerms_eq_ok {ts : List (Term ν)} {ns : List (Node ν)} (h : ofTerms? ts = some ns)
    (hts : ∀ t ∈ ts, Rebuilds t) {ts' : List (Term ν)} :
    toTerms ns = .ok ts' ↔ (∀ t ∈ ts, ∀ u ∈ t.parts, u.isRegular = true) ∧ ts' = ts := by
  induction ts generalizing ns ts' with
  | nil =>
    cases h
    rw [toTerms, Except.ok.injEq, eq_comm]
    simp
  | cons t ts ih =>
    obtain ⟨n, rest, hn, hrest, rfl⟩ := ofTerms?_cons.mp h
    obtain ⟨hfirst, hothers⟩ := List.forall_mem_cons.mp hts
    rw [toTerms, List.forall_mem_cons, bind_eq_ok]
    constructor
    · rintro ⟨u, hu, hrebuilt⟩
      obtain ⟨us, hus, hrebuilt⟩ := bind_eq_ok.mp hrebuilt
      obtain ⟨hregular, rfl⟩ := (hfirst n hn u).mp hu
      obtain ⟨hregulars, rfl⟩ := (ih hrest hothers).mp hus
      exact ⟨⟨hregular, hregulars⟩, (Except.ok.inj hrebuilt).symm⟩
    · rintro ⟨⟨hregular, hregulars⟩, rfl⟩
      refine ⟨t, (hfirst n hn t).mpr ⟨hregular, rfl⟩, bind_eq_ok.mpr ⟨ts, ?_, rfl⟩⟩
      exact (ih hrest hothers).mpr ⟨hregulars, rfl⟩

section

variable {ks : List (Node ν)} {us : List (Term ν)} {e : Malformed} {t t' : Term ν}

/-- The children of a term are rebuilt together. -/
abbrev ChildrenRebuilt (t : Term ν) (ks : List (Node ν)) : Prop :=
  ∀ {us}, toTerms ks = .ok us ↔
    (∀ c ∈ t.children, ∀ u ∈ c.parts, u.isRegular = true) ∧ us = t.children

omit [Spelling ν] in
/-- A term without children is rebuilt as it is. -/
theorem leaf_eq_ok (hregular : t.isRegular = true) (hleaf : t.children = []) :
    (.ok t : Except Malformed (Term ν)) = .ok t' ↔
      (t.isRegular = true ∧ ∀ c ∈ t.children, ∀ u ∈ c.parts, u.isRegular = true) ∧ t' = t := by
  rw [hleaf, Except.ok.injEq, eq_comm]
  simp [hregular]

/-- A term is rebuilt from its children when they are. -/
theorem bind_toTerms_eq_ok (hkids : ChildrenRebuilt t ks) (hregular : t.isRegular = true)
    {f : List (Term ν) → Term ν} (ht : f t.children = t) :
    (toTerms ks >>= fun ts => .ok (f ts)) = .ok t' ↔
      (t.isRegular = true ∧ ∀ c ∈ t.children, ∀ u ∈ c.parts, u.isRegular = true) ∧ t' = t := by
  rw [bind_eq_ok]
  constructor
  · rintro ⟨ts, hts, hbuilt⟩
    obtain ⟨hregulars, rfl⟩ := hkids.mp hts
    exact ⟨⟨hregular, hregulars⟩, (Except.ok.inj hbuilt).symm.trans ht⟩
  · rintro ⟨⟨-, hregulars⟩, ht'⟩
    exact ⟨t.children, hkids.mpr ⟨hregulars, rfl⟩, congrArg Except.ok (ht.trans ht'.symm)⟩

/-- The number of children is checked first, and it is right for the node of a term. -/
theorem checked_eq_ok (hkids : ChildrenRebuilt t ks) (hregular : t.isRegular = true) {count : Nat}
    (hlen : ks.length = count) {f : List (Term ν) → Term ν} (ht : f t.children = t) :
    (if ks.length ≠ count then .error e else toTerms ks >>= fun ts => .ok (f ts)) = .ok t' ↔
      (t.isRegular = true ∧ ∀ c ∈ t.children, ∀ u ∈ c.parts, u.isRegular = true) ∧ t' = t := by
  rw [if_neg (not_not_intro hlen)]
  exact bind_toTerms_eq_ok hkids hregular ht

theorem one_eq_ok (hkids : ChildrenRebuilt t ks) (hregular : t.isRegular = true)
    (hlen : ks.length = 1) {f : Term ν → Term ν} (ht : f (t.children.headD .absent) = t) :
    ((if ks.length ≠ 1 then .error e else toTerms ks >>= fun ts => .ok (ts.headD .absent)) >>=
      fun b => .ok (f b)) = .ok t' ↔
      (t.isRegular = true ∧ ∀ c ∈ t.children, ∀ u ∈ c.parts, u.isRegular = true) ∧ t' = t := by
  have hassoc : ((toTerms ks >>= fun ts => Except.ok (ts.headD .absent)) >>= fun b => .ok (f b))
      = toTerms ks >>= fun ts => .ok (f (ts.headD .absent)) := by
    cases toTerms ks <;> rfl
  rw [if_neg (not_not_intro hlen), hassoc]
  exact bind_toTerms_eq_ok hkids hregular ht

end

omit [Spelling ν] in
/-- The names and the values of bindings, with something behind the values, are the bindings. -/
theorem zip_map_append (bs : List (ν × Term ν)) (ts : List (Term ν)) :
    (bs.map (·.1)).zip (bs.map (·.2) ++ ts) = bs := by
  induction bs with
  | nil => rfl
  | cons b bs ih =>
    rw [List.map_cons, List.map_cons, List.cons_append, List.zip_cons_cons, ih]

theorem rebuilds (t : Term ν) : Rebuilds t := by
  induction t using Term.childInd with
  | step t ih =>
    intro n hn t'
    obtain ⟨hne, ks, hks, rfl⟩ := ofTerm?_eq_some hn
    have hkids : ChildrenRebuilt t ks := toTerms_eq_ok hks ih
    have hlen := length_ofTerms? hks
    rw [Term.forall_parts, toTerm]
    cases t with
    | absent => exact absurd rfl hne
    | var index => exact leaf_eq_ok rfl rfl
    | sort level => exact leaf_eq_ok rfl rfl
    | mvar name => exact leaf_eq_ok rfl rfl
    | fvar id name => exact leaf_eq_ok rfl rfl
    | const name marker =>
      show (if 5 < marker.kind.toByte then .error (Malformed.marker marker.kind.toByte) else
        Except.ok (Term.const name ⟨.ofByte marker.kind.toByte, marker.index⟩)) = .ok t' ↔ _
      rw [MarkerKind.ofByte_toByte]
      by_cases hmarker : 5 < marker.kind.toByte
      · rw [if_pos hmarker]
        simp [Term.isRegular, UInt8.not_le.mpr hmarker]
      · rw [if_neg hmarker]
        exact leaf_eq_ok (decide_eq_true (UInt8.not_lt.mp hmarker)) rfl
    | app fn args =>
      show (toTerms ks >>= _) = .ok t' ↔ _
      rw [bind_eq_ok]
      constructor
      · rintro ⟨ts, hts, hbuilt⟩
        obtain ⟨hregulars, rfl⟩ := hkids.mp hts
        cases args with
        | nil => cases hbuilt
        | cons arg args => exact ⟨⟨rfl, hregulars⟩, (Except.ok.inj hbuilt).symm⟩
      · rintro ⟨⟨hregular, hregulars⟩, rfl⟩
        refine ⟨fn :: args, hkids.mpr ⟨hregulars, rfl⟩, ?_⟩
        cases args with
        | nil => cases hregular
        | cons arg args => rfl
    | lam binder body => exact one_eq_ok hkids rfl hlen rfl
    | pi binder domain body => exact checked_eq_ok hkids rfl hlen rfl
    | letIn bindings body =>
      have hcount : ks.length = (bindings.map (·.1)).length + 1 := by
        rw [hlen]
        simp [Term.children]
      refine checked_eq_ok hkids rfl hcount ?_
      show Term.letIn ((bindings.map (·.1)).zip (bindings.map (·.2) ++ [body]))
        ((bindings.map (·.2) ++ [body]).getLastD .absent) = .letIn bindings body
      rw [zip_map_append, List.getLastD_concat]
    | nat value =>
      have hkind : Kind.ofByte? Kind.extension.toByte = some .extension := rfl
      have hliteral : Extension.ofByte? 1 = some .literal := rfl
      simp only [Term.shell, hkind, hliteral, Text.readInt?_decimal, Option.filter_some]
      by_cases hvalue : 0 ≤ value
      · rw [if_pos (decide_eq_true hvalue)]
        exact leaf_eq_ok (decide_eq_true hvalue) rfl
      · rw [if_neg (by simpa using hvalue)]
        simp [Term.isRegular, hvalue]
    | quote body => exact one_eq_ok hkids rfl hlen rfl
    | ann name body => exact one_eq_ok hkids rfl hlen rfl
    | foreign name args => exact bind_toTerms_eq_ok hkids rfl rfl

end Node

end TermVM
