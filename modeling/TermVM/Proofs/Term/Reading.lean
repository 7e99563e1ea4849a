/-
  TermVM.Proofs.Term.Reading

  Terms that were read.

  A node may be spelled in many ways, and it may hold what the term it stands
  for has no use for.  `Node.Within` says what the bounds of a reader leave for
  a node that was read: short texts, short lists, and children two levels
  further down.  Null is read as a node too, without taking up a level, but no
  term comes from it.

  A term that came from such a node has a node of its own, and that one keeps to
  the same bounds: `Term.writable_of_toTerm`.
-/
import TermVM.Proofs.Cbor.Bounds
import TermVM.Proofs.Term.Wire

namespace TermVM

open Cbor Result

/-! ## Numerals and markers -/

namespace Text

theorem utf8_ofList (cs : List Char) :
    utf8 (String.ofList cs) = cs.flatMap String.utf8EncodeChar := by
  simp [utf8, String.toByteArray_ofList, List.utf8Encode]

/-- A character takes up a byte at least. -/
theorem length_le_length_utf8 (s : String) : s.toList.length ≤ (utf8 s).length := by
  rw [← String.ofList_toList (s := s), utf8_ofList, String.toList_ofList]
  induction s.toList with
  | nil => exact Nat.le_refl 0
  | cons c cs ih =>
    have hpos := c.utf8Size_pos
    rw [List.flatMap_cons, List.length_append, String.length_utf8EncodeChar, List.length_cons]
    omega

/-- A digit takes up one byte. -/
theorem length_utf8_digits (n : Nat) :
    (utf8 (String.ofList (digits n))).length = (digits n).length := by
  have hdigit : ∀ c ∈ digits n, c.utf8Size = 1 := by
    intro c hc
    have hdigit : c.isDigit = true := Nat.isDigit_of_mem_toDigits (by decide) (by decide) hc
    simp only [Char.isDigit, Bool.and_eq_true, decide_eq_true_eq] at hdigit
    exact Char.utf8Size_eq_one_iff.mpr (UInt32.le_trans hdigit.2 (by decide))
  rw [utf8_ofList]
  generalize digits n = cs at hdigit
  induction cs with
  | nil => rfl
  | cons c cs ih =>
    obtain ⟨hc, hcs⟩ := List.forall_mem_cons.mp hdigit
    rw [List.flatMap_cons, List.length_append, String.length_utf8EncodeChar, hc, ih hcs,
      List.length_cons, Nat.add_comm]

theorem ofDigitChars_lt {cs : List Char} (h : ∀ c ∈ cs, c.isDigit = true) (start : Nat) :
    Nat.ofDigitChars 10 cs start < (start + 1) * 10 ^ cs.length := by
  induction cs generalizing start with
  | nil => simp [Nat.ofDigitChars]
  | cons c cs ih =>
    obtain ⟨hc, hcs⟩ := List.forall_mem_cons.mp h
    have hdigit : c.toNat - '0'.toNat ≤ 9 := by
      simp only [Char.isDigit, Bool.and_eq_true, decide_eq_true_eq] at hc
      have hnine : c.toNat ≤ '9'.toNat := UInt32.le_iff_toNat_le.mp hc.2
      exact Nat.sub_le_sub_right hnine '0'.toNat
    have hrest := ih hcs (10 * start + (c.toNat - '0'.toNat))
    rw [Nat.ofDigitChars_cons, List.length_cons, Nat.pow_succ]
    calc Nat.ofDigitChars 10 cs (10 * start + (c.toNat - '0'.toNat))
      _ < (10 * start + (c.toNat - '0'.toNat) + 1) * 10 ^ cs.length := hrest
      _ ≤ ((start + 1) * 10) * 10 ^ cs.length := Nat.mul_le_mul_right _ (by omega)
      _ = (start + 1) * (10 ^ cs.length * 10) := by
        rw [Nat.mul_assoc, Nat.mul_comm 10]

/-- The digits of a number are no more than those it was read from. -/
theorem length_digits_le {cs : List Char} {n : Nat} (h : readDigits? cs = some n) :
    (digits n).length ≤ cs.length := by
  unfold readDigits? at h
  split at h
  next hdigits =>
    obtain rfl := Option.some.inj h
    simp only [Bool.and_eq_true, Bool.not_eq_true', List.isEmpty_eq_false_iff, List.all_eq_true]
      at hdigits
    have hlt := ofDigitChars_lt hdigits.2 0
    rw [Nat.zero_add, Nat.one_mul] at hlt
    exact (Nat.length_toDigits_le_iff (by decide) (List.length_pos_iff.mpr hdigits.1)).mpr hlt
  next => cases h

theorem readInt?_eq_some {cs : List Char} {v : Int} (h : readInt? cs = some v) :
    ∃ ds n, readDigits? ds = some n ∧ ds.length ≤ cs.length ∧ v.natAbs = n := by
  have hvalue : ∀ {ds : List Char} {f : Int → Int} {v : Int},
      ((readDigits? ds).bind fun n => some (n : Int)).map f = some v →
      ∃ n : Nat, readDigits? ds = some n ∧ f n = v := by
    intro ds f v h
    obtain ⟨m, hm, rfl⟩ := Option.map_eq_some_iff.mp h
    obtain ⟨n, hn, hcast⟩ := Option.bind_eq_some_iff.mp hm
    obtain rfl := Option.some.inj hcast
    exact ⟨n, hn, rfl⟩
  unfold readInt? at h
  split at h
  next ds =>
    obtain ⟨n, hn, rfl⟩ := hvalue h
    exact ⟨ds, n, hn, Nat.le_succ _, by simp⟩
  next ds =>
    obtain ⟨n, hn, rfl⟩ := hvalue h
    exact ⟨ds, n, hn, Nat.le_succ _, rfl⟩
  next =>
    obtain ⟨n, hn, rfl⟩ := hvalue h
    exact ⟨cs, n, hn, Nat.le_refl _, rfl⟩

/-- A literal is not longer in its own spelling than in the one it was read from. -/
theorem length_decimal_le {s : String} {v : Int} (h : readInt? s.toList = some v) (hv : 0 ≤ v) :
    (utf8 (decimal v)).length ≤ (utf8 s).length := by
  obtain ⟨ds, n, hn, hlength, habs⟩ := readInt?_eq_some h
  obtain rfl : v = Int.ofNat n := by
    rw [← habs]
    exact (Int.natAbs_of_nonneg hv).symm
  calc (utf8 (String.ofList (digits n))).length
    _ = (digits n).length := length_utf8_digits n
    _ ≤ ds.length := length_digits_le hn
    _ ≤ s.toList.length := hlength
    _ ≤ (utf8 s).length := length_le_length_utf8 s

end Text

/-- A marker that is not out of range has a meaning. -/
theorem MarkerKind.toByte_ofByte_le {b : UInt8} (h : ¬5 < b) : (ofByte b).toByte ≤ 5 := by
  rw [ofByte, dif_neg h]
  split <;> decide

/-! ## Nodes that were read -/

namespace Node

/-- A node that a reader found where it allowed `levels` more levels. -/
inductive Within (limits : Limits) : Node → (levels : Nat) → Prop where
  /-- Null has no fields and takes up no level. -/
  | null {levels : Nat} : Within limits {} levels
  | record {n : Node} {levels : Nat} (htexts : ∀ s ∈ n.texts, (utf8 s).length < UInt64.size)
      (hlevels : 0 < levels)
      (hkids : n.kids ≠ [] → n.kids.length ≤ limits.elements ∧ 1 < levels)
      (hbelow : ∀ k ∈ n.kids, Within limits k (levels - 2)) : Within limits n levels

/-- What the fields of a node have to be for the node to be within bounds. -/
structure FieldsWithin (limits : Limits) (n : Node) (levels : Nat) : Prop where
  texts : ∀ s ∈ n.texts, (utf8 s).length < UInt64.size
  kids : n.kids ≠ [] → n.kids.length ≤ limits.elements ∧ 0 < levels
  below : ∀ k ∈ n.kids, Within limits k (levels - 1)

variable {limits : Limits}

/-- A record is within the bounds of a level more than its fields. -/
theorem FieldsWithin.within {n : Node} {levels : Nat} (h : FieldsWithin limits n (levels - 1))
    (hlevels : 0 < levels) : Within limits n levels := by
  refine .record h.texts hlevels (fun hne => ⟨(h.kids hne).1, ?_⟩) fun k hk => ?_
  · have := (h.kids hne).2
    omega
  · have hbelow := h.below k hk
    rwa [Nat.sub_sub] at hbelow

/-- What an item can be read as, as a node or as a list of children, is within its bounds. -/
def ReadsWithin (limits : Limits) (x : Item) : Prop :=
  ∀ {tagged : Bool} {levels : Nat}, x.readable limits tagged levels = true →
    (∀ n, ofItem? x = some n → Within limits n levels) ∧
    ∀ ks, kidsOfItem? x = some ks →
      (ks ≠ [] → ks.length ≤ limits.elements ∧ 0 < levels) ∧ ∀ k ∈ ks, Within limits k (levels - 1)

theorem within_of_ofItems? {xs : List Item} {ns : List Node} {levels : Nat}
    (hxs : ∀ x ∈ xs, ReadsWithin limits x ∧ x.readable limits false levels = true)
    (h : ofItems? xs = some ns) : ns.length = xs.length ∧ ∀ n ∈ ns, Within limits n levels := by
  induction xs generalizing ns with
  | nil =>
    cases h
    simp
  | cons x xs ih =>
    obtain ⟨⟨hreads, hx⟩, hrest⟩ := List.forall_mem_cons.mp hxs
    simp only [ofItems?, Option.pure_def, Option.bind_eq_bind, Option.bind_eq_some_iff,
      Option.some.injEq] at h
    obtain ⟨n, hn, ns', hns, rfl⟩ := h
    obtain ⟨hlength, hall⟩ := ih hrest hns
    exact ⟨by rw [List.length_cons, List.length_cons, hlength],
      List.forall_mem_cons.mpr ⟨(hreads hx).1 n hn, hall⟩⟩

/-- Every entry of a node leaves its fields within bounds. -/
theorem within_of_ofEntries? {entries : List (Item × Item)} {levels : Nat}
    (hentries : ∀ e ∈ entries, ReadsWithin limits e.2 ∧ e.2.readable limits false levels = true)
    {seen : List Nat} {n n' : Node} (hn : FieldsWithin limits n levels)
    (h : ofEntries? entries seen n = some n') : FieldsWithin limits n' levels := by
  induction entries generalizing seen n with
  | nil =>
    cases h
    exact hn
  | cons e rest ih =>
    obtain ⟨k, v⟩ := e
    obtain ⟨⟨hreads, hv⟩, hrest⟩ := List.forall_mem_cons.mp hentries
    obtain ⟨hname, hnum, hnames⟩ : (utf8 n.name).length < UInt64.size ∧
        (utf8 n.num).length < UInt64.size ∧ ∀ s ∈ n.names, (utf8 s).length < UInt64.size := by
      simpa only [texts, List.forall_mem_cons] using hn.texts
    rw [ofEntries?] at h
    cases hkey : Key.ofItem k with
    | refused =>
      rw [hkey] at h
      cases h
    | unknown =>
      rw [hkey] at h
      exact ih hrest hn h
    | field number =>
      rw [hkey] at h
      dsimp only at h
      split at h
      · exact ih hrest hn h
      -- the fields with numbers and markers leave texts and children as they are
      split at h
      · obtain ⟨x, -, h⟩ := Option.bind_eq_some_iff.mp h
        refine ih hrest ?_ h
        exact ⟨hn.texts, hn.kids, hn.below⟩
      · obtain ⟨x, hx, h⟩ := Option.bind_eq_some_iff.mp h
        have hx := Item.length_toText? hv hx
        refine ih hrest ?_ h
        refine ⟨?_, hn.kids, hn.below⟩
        exact List.forall_mem_cons.mpr ⟨hx, List.forall_mem_cons.mpr ⟨hnum, hnames⟩⟩
      · obtain ⟨x, -, h⟩ := Option.bind_eq_some_iff.mp h
        refine ih hrest ?_ h
        exact ⟨hn.texts, hn.kids, hn.below⟩
      · obtain ⟨x, -, h⟩ := Option.bind_eq_some_iff.mp h
        refine ih hrest ?_ h
        exact ⟨hn.texts, hn.kids, hn.below⟩
      · obtain ⟨ks, hks, h⟩ := Option.bind_eq_some_iff.mp h
        obtain ⟨hcount, hbelow⟩ := (hreads hv).2 ks hks
        refine ih hrest ?_ h
        exact ⟨hn.texts, hcount, hbelow⟩
      · obtain ⟨ss, hss, h⟩ := Option.bind_eq_some_iff.mp h
        have hshort : ∀ s ∈ ss, (utf8 s).length < UInt64.size := by
          intro s hs
          obtain ⟨-, -, hall⟩ := Item.readable_toListOf? hv hss (List.ne_nil_of_mem hs)
          obtain ⟨y, hy, htext⟩ := hall s hs
          exact Item.length_toText? hy htext
        refine ih hrest ?_ h
        refine ⟨?_, hn.kids, hn.below⟩
        exact List.forall_mem_cons.mpr ⟨hname, List.forall_mem_cons.mpr ⟨hnum, hshort⟩⟩
      · obtain ⟨x, -, h⟩ := Option.bind_eq_some_iff.mp h
        refine ih hrest ?_ h
        exact ⟨hn.texts, hn.kids, hn.below⟩
      · obtain ⟨x, hx, h⟩ := Option.bind_eq_some_iff.mp h
        have hx := Item.length_toText? hv hx
        refine ih hrest ?_ h
        refine ⟨?_, hn.kids, hn.below⟩
        exact List.forall_mem_cons.mpr ⟨hname, List.forall_mem_cons.mpr ⟨hx, hnames⟩⟩
      · obtain ⟨x, -, h⟩ := Option.bind_eq_some_iff.mp h
        refine ih hrest ?_ h
        exact ⟨hn.texts, hn.kids, hn.below⟩
      · exact ih hrest hn h

theorem fieldsWithin_zero (levels : Nat) : FieldsWithin limits {} levels where
  texts := by decide
  kids h := absurd rfl h
  below k hk := absurd hk List.not_mem_nil

/-- Whatever an item is read as, it is within the bounds of the item. -/
theorem readsWithin (limits : Limits) (x : Item) : ReadsWithin limits x := by
  induction x using Item.ind with
  | array items ih =>
    intro tagged levels hx
    refine ⟨by rintro n ⟨⟩, fun ks hks => ?_⟩
    simp only [Item.readable, Item.readableItems_eq_all, Bool.and_eq_true, decide_eq_true_eq,
      List.all_eq_true] at hx
    obtain ⟨⟨⟨-, hcount⟩, hlevels⟩, hitems⟩ := hx
    obtain ⟨hlength, hall⟩ := within_of_ofItems? (fun y hy => ⟨ih y hy, hitems y hy⟩) hks
    exact ⟨fun _ => ⟨hlength ▸ hcount, hlevels⟩, hall⟩
  | map entries ih =>
    intro tagged levels hx
    refine ⟨fun n hn => ?_, by rintro ks ⟨⟩⟩
    simp only [Item.readable, Item.readableEntries_eq_all, Bool.and_eq_true, decide_eq_true_eq,
      List.all_eq_true] at hx
    obtain ⟨⟨-, hlevels⟩, hentries⟩ := hx
    refine (within_of_ofEntries? (fun e he => ⟨(ih e he).2, ?_⟩) (fieldsWithin_zero _) hn).within
      hlevels
    exact hentries e.2 (List.mem_flatMap.mpr ⟨e, he, by simp⟩)
  | tag number content ih =>
    intro tagged levels hx
    have hcontent := ih (Item.readable_content hx)
    constructor
    · intro n hn
      rw [ofItem?] at hn
      split at hn
      · cases hn
      · exact hcontent.1 n hn
    · intro ks hks
      rw [kidsOfItem?] at hks
      split at hks
      · cases hks
      · exact hcontent.2 ks hks
  | simple m =>
    intro tagged levels hx
    constructor
    · intro n hn
      rw [ofItem?] at hn
      split at hn
      · obtain rfl := Option.some.inj hn
        exact .null
      · cases hn
    · intro ks hks
      rw [kidsOfItem?] at hks
      split at hks
      · obtain rfl := Option.some.inj hks
        exact ⟨fun hne => absurd rfl hne, fun k hk => absurd hk List.not_mem_nil⟩
      · cases hks
  | _ => exact fun hx => ⟨by rintro n ⟨⟩, by rintro ks ⟨⟩⟩

/-! ## Terms of nodes -/

theorem forall_mem_of_toTerms {ns : List Node} {ts : List Term} (h : toTerms ns = .ok ts) :
    ts.length = ns.length ∧ ∀ t ∈ ts, ∃ n ∈ ns, n.toTerm = .ok t := by
  induction ns generalizing ts with
  | nil =>
    cases h
    simp
  | cons n ns ih =>
    obtain ⟨t, ht, h⟩ := bind_eq_ok.mp h
    obtain ⟨us, hus, h⟩ := bind_eq_ok.mp h
    obtain rfl := Except.ok.inj h
    obtain ⟨hlength, hall⟩ := ih hus
    refine ⟨by rw [List.length_cons, List.length_cons, hlength], List.forall_mem_cons.mpr ⟨?_, ?_⟩⟩
    · exact ⟨n, List.mem_cons_self, ht⟩
    · intro u hu
      obtain ⟨m, hm, hu⟩ := hall u hu
      exact ⟨m, List.mem_cons_of_mem n hm, hu⟩

/-- A term comes from a node that is not null.  It is of a shape that nodes stand for, its children
    come from the children of the node if it has any, and its texts are no longer than those of the
    node. -/
structure Yields (n : Node) (t : Term) : Prop where
  kind : n.kind ≠ 0
  regular : t.isRegular = true
  children : t.children ≠ [] → toTerms n.kids = .ok t.children
  texts : ∀ s ∈ t.shell.texts, ∃ s' ∈ n.texts, (utf8 s).length ≤ (utf8 s').length

/-- All terms but literals take their texts over from the node. -/
theorem Yields.of_texts {n : Node} {t : Term} (hkind : n.kind ≠ 0) (hregular : t.isRegular = true)
    (hchildren : t.children ≠ [] → toTerms n.kids = .ok t.children)
    (htexts : ∀ s ∈ t.shell.texts, s = "" ∨ s ∈ n.texts) : Yields n t := by
  refine ⟨hkind, hregular, hchildren, fun s hs => ?_⟩
  rcases htexts s hs with rfl | hs
  · exact ⟨n.name, List.mem_cons_self, Nat.zero_le _⟩
  · exact ⟨s, hs, Nat.le_refl _⟩

/-- A single child is checked for before it is rebuilt. -/
theorem toTerms_of_one {ks : List Node} {e : Malformed} {t : Term}
    (h : (if ks.length ≠ 1 then .error e else toTerms ks >>= fun ts => .ok (ts.headD .absent))
      = .ok t) : toTerms ks = .ok [t] := by
  split at h
  · cases h
  next hone =>
    obtain ⟨ts, hts, h⟩ := bind_eq_ok.mp h
    have hlength := (forall_mem_of_toTerms hts).1
    obtain ⟨u, rfl⟩ := List.length_eq_one_iff.mp (hlength.trans (Decidable.not_not.mp hone))
    obtain rfl := Except.ok.inj h
    exact hts

theorem yields {n : Node} {t : Term} (h : n.toTerm = .ok t) : Yields n t := by
  obtain ⟨kind, name, index, marker, kids, names, extension, num, id⟩ := n
  rw [toTerm] at h
  have hkind : kind ≠ 0 := by
    rintro rfl
    cases h
  dsimp only at h
  cases hshape : Kind.ofByte? kind with
  | none =>
    rw [hshape] at h
    cases h
  | some shape =>
    rw [hshape] at h
    cases shape with
    | var =>
      cases h
      exact .of_texts hkind rfl (fun hne => absurd rfl hne) (by simp [Term.shell, texts])
    | sort =>
      cases h
      exact .of_texts hkind rfl (fun hne => absurd rfl hne) (by simp [Term.shell, texts])
    | mvar =>
      cases h
      exact .of_texts hkind rfl (fun hne => absurd rfl hne) (by simp [Term.shell, texts])
    | fvar =>
      cases h
      exact .of_texts hkind rfl (fun hne => absurd rfl hne) (by simp [Term.shell, texts])
    | const =>
      dsimp only at h
      split at h
      · cases h
      next hmarker =>
        cases h
        refine .of_texts hkind ?_ (fun hne => absurd rfl hne) (by simp [Term.shell, texts])
        exact decide_eq_true (MarkerKind.toByte_ofByte_le hmarker)
    | app =>
      obtain ⟨ts, hts, h⟩ := bind_eq_ok.mp h
      cases ts with
      | nil => cases h
      | cons fn ts =>
        cases ts with
        | nil => cases h
        | cons arg args =>
          cases h
          exact .of_texts hkind rfl (fun _ => hts) (by simp [Term.shell, texts])
    | lam =>
      obtain ⟨b, hb, h⟩ := bind_eq_ok.mp h
      cases h
      exact .of_texts hkind rfl (fun _ => toTerms_of_one hb) (by simp [Term.shell, texts])
    | pi =>
      dsimp only at h
      split at h
      · cases h
      next htwo =>
        obtain ⟨ts, hts, h⟩ := bind_eq_ok.mp h
        have hlength := (forall_mem_of_toTerms hts).1
        rw [Decidable.not_not.mp htwo] at hlength
        obtain ⟨d, b, rfl⟩ : ∃ d b, ts = [d, b] := by
          rcases ts with _ | ⟨d, _ | ⟨b, _ | ⟨c, ts⟩⟩⟩
          · cases hlength
          · cases hlength
          · exact ⟨d, b, rfl⟩
          · simp at hlength
        cases h
        exact .of_texts hkind rfl (fun _ => hts) (by simp [Term.shell, texts])
    | letIn =>
      dsimp only at h
      split at h
      · cases h
      next hcount =>
        obtain ⟨ts, hts, h⟩ := bind_eq_ok.mp h
        have hlength := (forall_mem_of_toTerms hts).1
        rw [Decidable.not_not.mp hcount] at hlength
        cases h
        -- the last child is the body, and there is a name for each of the others
        obtain rfl | ⟨values, body, rfl⟩ := List.eq_nil_or_concat ts
        · cases hlength
        · rw [List.concat_eq_append] at hts hlength ⊢
          rw [List.length_append, List.length_singleton, Nat.add_right_cancel_iff] at hlength
          have hzip : names.zip (values ++ [body]) = names.zip values := by
            have happend : (names ++ []).zip (values ++ [body])
                = names.zip values ++ [].zip [body] := List.zip_append hlength.symm
            rwa [List.append_nil, List.zip_nil_left, List.append_nil] at happend
          rw [hzip, List.getLastD_concat]
          refine .of_texts hkind rfl (fun _ => ?_) ?_
          · rw [Term.children, List.map_snd_zip (Nat.le_of_eq hlength)]
            exact hts
          · rw [Term.shell, List.map_fst_zip (Nat.le_of_eq hlength.symm)]
            simp only [texts, List.mem_cons]
            rintro s (rfl | rfl | hs)
            · exact .inl rfl
            · exact .inl rfl
            · exact .inr (.inr (.inr hs))
    | extension =>
      cases hextension : Extension.ofByte? extension with
      | none =>
        rw [hextension] at h
        cases h
      | some which =>
        rw [hextension] at h
        cases which with
        | literal =>
          dsimp only at h
          split at h
          next v hv =>
            cases h
            obtain ⟨hread, hnonneg⟩ := Option.filter_eq_some_iff.mp hv
            rw [decide_eq_true_eq] at hnonneg
            refine ⟨hkind, decide_eq_true hnonneg, fun hne => absurd rfl hne, ?_⟩
            have hnum := Text.length_decimal_le hread hnonneg
            simp only [Term.shell, texts, List.mem_cons, List.not_mem_nil, or_false]
            rintro s (rfl | rfl)
            · exact ⟨name, .inl rfl, Nat.zero_le _⟩
            · exact ⟨num, .inr (.inl rfl), hnum⟩
          next => cases h
        | quotation =>
          obtain ⟨b, hb, h⟩ := bind_eq_ok.mp h
          cases h
          exact .of_texts hkind rfl (fun _ => toTerms_of_one hb) (by simp [Term.shell, texts])
        | annotated =>
          obtain ⟨b, hb, h⟩ := bind_eq_ok.mp h
          cases h
          exact .of_texts hkind rfl (fun _ => toTerms_of_one hb) (by simp [Term.shell, texts])
        | foreign =>
          obtain ⟨ts, hts, h⟩ := bind_eq_ok.mp h
          cases h
          exact .of_texts hkind rfl (fun _ => hts) (by simp [Term.shell, texts])

end Node

namespace Term

/-- What was read as a term fits the bounds it was read within, in its own node. -/
theorem fits_of_toTerm {limits : Limits} (n : Node) : ∀ {t : Term} {levels : Nat},
    n.toTerm = .ok t → n.Within limits levels →
    (∀ u ∈ t.parts, u.isRegular = true) ∧ 2 * t.height ≤ levels + 1 ∧
      ∀ u ∈ t.parts, u.Fits limits := by
  induction n using Node.kidInd with
  | step n ih =>
    intro t levels ht hwithin
    obtain ⟨hkind, hregular, hchildren, htexts⟩ := Node.yields ht
    cases hwithin with
    | null => exact absurd rfl hkind
    | record hshort hlevels hkids hbelow =>
      have hchild : ∀ c ∈ t.children, (∀ u ∈ c.parts, u.isRegular = true) ∧
          2 * c.height ≤ levels - 2 + 1 ∧ ∀ u ∈ c.parts, u.Fits limits := by
        intro c hc
        obtain ⟨-, hall⟩ := Node.forall_mem_of_toTerms (hchildren (List.ne_nil_of_mem hc))
        obtain ⟨k, hk, hc⟩ := hall c hc
        exact ih k hk hc (hbelow k hk)
      have hcount : t.children ≠ [] → t.children.length ≤ limits.elements ∧ 1 < levels := by
        intro hne
        obtain ⟨hlength, -⟩ := Node.forall_mem_of_toTerms (hchildren hne)
        rw [hlength]
        exact hkids fun hnil => hne (List.eq_nil_of_length_eq_zero (by rw [hlength, hnil]; rfl))
      refine ⟨forall_parts.mpr ⟨hregular, fun c hc => (hchild c hc).1⟩, ?_,
        forall_parts.mpr ⟨⟨?_, ?_⟩, fun c hc => (hchild c hc).2.2⟩⟩
      · exact two_mul_height_le_iff.mpr
          ⟨hlevels, fun hne => (hcount hne).2, fun c hc => (hchild c hc).2.1⟩
      · by_cases hleaf : t.children = []
        · simp [hleaf]
        · exact (hcount hleaf).1
      · intro s hs
        obtain ⟨s', hs', hle⟩ := htexts s hs
        exact Nat.lt_of_le_of_lt hle (hshort s' hs')

theorem isComplete_of_isRegular {t : Term} (h : ∀ u ∈ t.parts, u.isRegular = true) :
    t.isComplete = true := by
  induction t using childInd with
  | step t ih =>
    obtain ⟨hregular, hchildren⟩ := forall_parts.mp h
    refine isComplete_iff.mpr ⟨?_, fun c hc => ih c hc (hchildren c hc)⟩
    rintro rfl
    cases hregular

/-- A term has a node that is written within the bounds of a reader and read back as the term. -/
def Writable (limits : Limits) (levels : Nat) (t : Term) : Prop :=
  ∃ n, Node.ofTerm? t = some n ∧ n.toItem.readable limits false levels = true ∧ n.toTerm = .ok t

section

variable {limits : Limits} (hlow : 9 ≤ limits.elements) (hhigh : limits.elements < UInt64.size)

include hlow hhigh

theorem writable_iff {t : Term} {levels : Nat} :
    t.Writable limits levels ↔
      (∀ u ∈ t.parts, u.isRegular = true) ∧ 2 * t.height ≤ levels + 1 ∧
        ∀ u ∈ t.parts, u.Fits limits := by
  constructor
  · rintro ⟨n, hn, hreadable, hterm⟩
    exact ⟨((Node.rebuilds t n hn t).mp hterm).1,
      (readable_toItem_iff hlow hhigh t n hn levels).mp hreadable⟩
  · rintro ⟨hregular, hbounds⟩
    obtain ⟨n, hn⟩ := Node.exists_ofTerm? (isComplete_of_isRegular hregular)
    exact ⟨n, hn, (readable_toItem_iff hlow hhigh t n hn levels).mpr hbounds,
      (Node.rebuilds t n hn t).mpr ⟨hregular, rfl⟩⟩

/-- A term that was read from an item can be written within the bounds of the item. -/
theorem writable_of_toTerm {x : Item} {levels : Nat} (hx : x.readable limits false levels = true)
    {n : Node} (hn : Node.ofItem? x = some n) {t : Term} (ht : n.toTerm = .ok t) :
    t.Writable limits levels :=
  (writable_iff hlow hhigh).mpr (fits_of_toTerm n ht ((Node.readsWithin limits x hx).1 n hn))

/-- A part of a term can be written at its own depth. -/
theorem Writable.of_mem_parts {t u : Term} {levels levels' : Nat} (h : t.Writable limits levels)
    (hu : u ∈ t.parts) (hheight : 2 * u.height ≤ levels' + 1) : u.Writable limits levels' := by
  obtain ⟨hregular, -, hfits⟩ := (writable_iff hlow hhigh).mp h
  have hparts := parts_subset_of_mem hu
  exact (writable_iff hlow hhigh).mpr
    ⟨fun v hv => hregular v (hparts hv), hheight, fun v hv => hfits v (hparts hv)⟩

end

end Term

end TermVM
