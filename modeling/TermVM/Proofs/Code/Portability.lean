/-
  TermVM.Proofs.Code.Portability

  Which code comes back from its bytes, said of the code alone.

  A text is no longer than the bytes it is written among, so bytes whose number
  64 bits can hold have no text that is too long for a head.  What is left of
  the bounds of a reader is about the code: how many instructions and operands
  there are, and how high and of what shape the quoted terms are.  Beyond these
  bounds a reader asks that the names in quoted terms are text; code whose names
  are is written as the code of these texts.
-/
import TermVM.Proofs.Code.Exactness
import TermVM.Proofs.Term.Spelling

namespace TermVM

open Cbor Result

/-! ## Lengths of encodings -/

namespace Cbor.Item

theorem length_utf8_le (s : String) : (utf8 s).length ≤ (text s).encode.length := by
  rw [encode, List.length_append]
  exact Nat.le_add_left _ _

theorem length_encode_le_items {x : Item} {xs : List Item} (h : x ∈ xs) :
    x.encode.length ≤ (encodeItems xs).length := by
  induction xs with
  | nil => exact absurd h List.not_mem_nil
  | cons y ys ih =>
    rw [encodeItems, List.length_append]
    rcases List.mem_cons.mp h with rfl | h
    · exact Nat.le_add_right _ _
    · exact Nat.le_trans (ih h) (Nat.le_add_left _ _)

theorem length_encode_le_array {x : Item} {xs : List Item} (h : x ∈ xs) :
    x.encode.length ≤ (array xs).encode.length := by
  rw [encode, List.length_append]
  exact Nat.le_trans (length_encode_le_items h) (Nat.le_add_left _ _)

theorem length_encode_le_map {k v : Item} {entries : List (Item × Item)} (h : (k, v) ∈ entries) :
    v.encode.length ≤ (map entries).encode.length := by
  have hmem : v ∈ interleave entries := List.mem_flatMap.mpr ⟨(k, v), h, by simp⟩
  rw [encode, List.length_append, encodeEntries_eq]
  exact Nat.le_trans (length_encode_le_items hmem) (Nat.le_add_left _ _)

end Cbor.Item

namespace Node

variable {fields : List Field} (number : UInt64)

theorem length_field_le {v : Item} (h : (true, number, v) ∈ fields) :
    v.encode.length ≤ (Item.map (written fields)).encode.length :=
  Item.length_encode_le_map (List.mem_flatMap.mpr ⟨_, h, List.mem_singleton.mpr rfl⟩)

/-- A text that is left out is empty. -/
theorem length_text_field_le {s : String} (h : (s != "", number, .text s) ∈ fields) :
    (utf8 s).length ≤ (Item.map (written fields)).encode.length := by
  by_cases hs : s = ""
  · subst hs
    exact Nat.zero_le _
  · rw [bne_iff_ne.mpr hs] at h
    exact Nat.le_trans (Item.length_utf8_le s) (length_field_le number h)

/-- A list that is left out has no elements. -/
theorem length_list_field_le {α : Type} {toItem : α → Item} {xs : List α}
    (h : (!xs.isEmpty, number, .array (xs.map toItem)) ∈ fields) {x : α} (hx : x ∈ xs) :
    (toItem x).encode.length ≤ (Item.map (written fields)).encode.length := by
  have hne : (!xs.isEmpty) = true := by simp [List.ne_nil_of_mem hx]
  rw [hne] at h
  exact Nat.le_trans (Item.length_encode_le_array (List.mem_map_of_mem hx)) (length_field_le number h)

theorem length_texts_le {n : Node} {s : String} (h : s ∈ n.texts) :
    (utf8 s).length ≤ n.toItem.encode.length := by
  rw [toItem_eq]
  rcases List.mem_cons.mp h with rfl | h
  · exact length_text_field_le 2 (by simp [Node.fields])
  rcases List.mem_cons.mp h with rfl | h
  · exact length_text_field_le 8 (by simp [Node.fields])
  · refine Nat.le_trans (Item.length_utf8_le s) ?_
    exact length_list_field_le 6 (by simp [Node.fields]) h

theorem length_kid_le {n k : Node} (h : k ∈ n.kids) :
    k.toItem.encode.length ≤ n.toItem.encode.length := by
  rw [n.toItem_eq]
  exact length_list_field_le 5 (by simp [Node.fields, toItems_eq_map]) h

end Node

/-- No text of a term is longer than what the term is written as. -/
theorem Term.length_texts_le {t : Term} {n : Node} (h : Node.ofTerm? t = some n) {u : Term}
    (hu : u ∈ t.parts) {s : String} (hs : s ∈ u.shell.texts) :
    (utf8 s).length ≤ n.toItem.encode.length := by
  induction t using Term.childInd generalizing n with
  | step t ih =>
    obtain ⟨-, ks, hks, rfl⟩ := Node.ofTerm?_eq_some h
    rcases Term.mem_parts.mp hu with rfl | ⟨c, hc, hu⟩
    · exact Node.length_texts_le hs
    · obtain ⟨k, hk, hkc⟩ := Node.exists_mem_of_ofTerms? hks hc
      exact Nat.le_trans (ih c hc hkc hu) (Node.length_kid_le hk)

/-! ## Portable code -/

namespace Instr

/-- What the bytes of an instruction can stand for: an operation in use, operand lists of at most
    131072 elements, and a quoted term that is at most fifteen nodes high, of parts with at most
    131072 children, each of which is an application to something, a literal that is not negative, a
    constant with a known marker, or of another form. -/
structure Portable {ν : Type} (i : Instr ν) : Prop where
  named : ∃ m, i.op = .named m
  targets : i.targets.length ≤ 131072
  fields : i.fields.length ≤ 131072
  term : i.op = .named .expr → i.expr.height ≤ 15 ∧
    ∀ u ∈ i.expr.parts, u.isRegular = true ∧ u.children.length ≤ 131072

theorem Writable.portable {i : Instr} (h : i.Writable .standard 30) : i.Portable where
  named := h.named
  targets := h.targets
  fields := h.fields
  term hop := by
    rcases h.expr with ⟨-, hexpr⟩ | ⟨hne, -⟩
    · obtain ⟨hhigh, hparts⟩ := Term.writable_standard_iff.mp hexpr
      exact ⟨hhigh, fun u hu => ⟨(hparts u hu).1, (hparts u hu).2.1⟩⟩
    · exact absurd hop hne

/-- With bytes that 64 bits can count, nothing but what makes an instruction portable is in the way
    of a reader. -/
theorem Portable.writable {i : Instr} (h : i.Portable) (htidy : i.Tidy) {r : Raw}
    (hr : i.toRaw? = some r) (hlength : r.toItem.encode.length < UInt64.size) :
    i.Writable .standard 30 := by
  rw [Raw.toItem_eq] at hlength
  refine ⟨h.named, ?_, ?_, h.targets, h.fields⟩
  · by_cases hop : i.op = .named .num
    · -- the numeral is among the bytes of the record
      obtain ⟨v, hv⟩ := Option.isSome_iff_exists.mp (htidy.num.mpr hop)
      have hnum : r.num = Text.decimal v := by
        rcases toRaw?_eq_some.mp hr with ⟨-, rfl⟩ | ⟨n, -, rfl⟩ <;> simp [rawWith, hv]
      refine .inl ⟨hop, v, hv, Nat.lt_of_le_of_lt ?_ hlength⟩
      rw [← hnum]
      exact Node.length_text_field_le 4 (by simp [Raw.record])
    · exact .inr ⟨hop, htidy.num_eq_none hop⟩
  · by_cases hop : i.op = .named .expr
    · obtain ⟨hhigh, hparts⟩ := h.term hop
      -- the term has a node, for it has no absent part
      have hregular : ∀ u ∈ i.expr.parts, u.isRegular = true := fun u hu => (hparts u hu).1
      obtain ⟨n, hn⟩ := Node.exists_ofTerm? (Term.isComplete_of_isRegular hregular)
      obtain rfl : i.rawWith (some n) = r := Option.some.inj ((toRaw?_of_node hn).symm.trans hr)
      have hfield : (true, 5, n.toItem) ∈ (i.rawWith (some n)).record := by
        simp [Raw.record, rawWith]
      refine .inl ⟨hop, Term.writable_standard_iff.mpr ⟨hhigh, fun u hu =>
        ⟨hregular u hu, (hparts u hu).2, fun s hs => ?_⟩⟩⟩
      exact Nat.lt_of_le_of_lt (Nat.le_trans (Term.length_texts_le hn hu hs)
        (Node.length_field_le 5 hfield)) hlength
    · exact .inr ⟨hop, htidy.expr_eq_absent hop⟩

end Instr

namespace Code

/-- There are at most 131072 instructions, and each of them is portable. -/
structure Portable {ν : Type} (code : Code ν) : Prop where
  count : code.length ≤ 131072
  instr : ∀ i ∈ code, i.Portable

theorem Writable.portable {code : Code} (h : code.Writable .standard 30) : code.Portable :=
  ⟨h.count, fun i hi => (h.code i hi).portable⟩

theorem Portable.writable {code : Code} (h : code.Portable) (htidy : ∀ i ∈ code, i.Tidy)
    {bytes : Bytes} (hbytes : encode? code = some bytes) (hlength : bytes.length < UInt64.size) :
    code.Writable .standard 30 := by
  obtain ⟨rs, hrs, rfl⟩ := encode?_eq_some.mp hbytes
  refine ⟨h.count, fun i hi => ?_⟩
  obtain ⟨r, hr, hraw⟩ := exists_of_mem_right hrs.flip hi
  refine (h.instr i hi).writable (htidy i hi) hraw (Nat.lt_of_le_of_lt ?_ hlength)
  exact Item.length_encode_le_array (List.mem_map_of_mem hr)

end Code

/-! ## Names -/

namespace Instr

/-- An instruction with the names of its term spelled out. -/
def bytes (i : Instr) : Instr Bytes :=
  ⟨i.op, i.a, i.b, i.num, i.expr.bytes, i.targets, i.fields⟩

/-- An instruction with the names of its term read as text. -/
def text (i : Instr Bytes) : Instr :=
  ⟨i.op, i.a, i.b, i.num, i.expr.text, i.targets, i.fields⟩

theorem bytes_text {i : Instr Bytes} (h : i.expr.IsText) : i.text.bytes = i := by
  obtain ⟨op, a, b, num, expr, targets, fields⟩ := i
  simp only [bytes, text, Term.bytes_text h]

theorem tidy_bytes {i : Instr} : i.bytes.Tidy ↔ i.Tidy := by
  have habsent : i.bytes.expr = .absent ↔ i.expr = .absent := Term.map_eq_absent
  exact ⟨fun h => ⟨h.num, fun hne => h.expr (mt habsent.mp hne)⟩,
    fun h => ⟨h.num, fun hne => h.expr (mt habsent.mpr hne)⟩⟩

theorem portable_bytes {i : Instr} : i.bytes.Portable ↔ i.Portable := by
  have hterm : (i.bytes.expr.height ≤ 15 ∧ ∀ u ∈ i.bytes.expr.parts,
        u.isRegular = true ∧ u.children.length ≤ 131072) ↔
      i.expr.height ≤ 15 ∧ ∀ u ∈ i.expr.parts, u.isRegular = true ∧ u.children.length ≤ 131072 := by
    have hregular (u : Term) : u.bytes.isRegular = u.isRegular := Term.isRegular_map u
    refine and_congr Term.height_map_le_iff ?_
    rw [bytes, Term.forall_parts_bytes]
    simp only [hregular, Term.length_children_bytes]
  exact ⟨fun h => ⟨h.named, h.targets, h.fields, fun hop => hterm.mp (h.term hop)⟩,
    fun h => ⟨h.named, h.targets, h.fields, fun hop => hterm.mpr (h.term hop)⟩⟩

/-- An instruction is written as its spelled-out form is. -/
theorem toItem_toRaw?_bytes (i : Instr) :
    i.bytes.toRaw?.map Raw.toItem = i.toRaw?.map Raw.toItem := by
  have hitems := Node.toItem_ofTerm?_bytes i.expr
  have habsent : i.bytes.expr = .absent ↔ i.expr = .absent := Term.map_eq_absent
  by_cases hexpr : i.expr = .absent
  · rw [toRaw?_of_absent hexpr, toRaw?_of_absent (habsent.mpr hexpr)]
    rfl
  · cases hn : Node.ofTerm? i.expr with
    | none =>
      rw [hn] at hitems
      have hnone : Node.ofTerm? i.bytes.expr = none := Option.map_eq_none_iff.mp hitems
      rw [toRaw?_of_no_node hexpr hn, toRaw?_of_no_node (mt habsent.mp hexpr) hnone]
      rfl
    | some n =>
      rw [hn] at hitems
      obtain ⟨n', hn', hitem⟩ := Option.map_eq_some_iff.mp hitems
      rw [toRaw?_of_node hn, @toRaw?_of_node _ _ i.bytes n' hn']
      simp [Raw.toItem, rawWith, bytes, hitem]

end Instr

namespace Code

/-- Code with the names of its terms spelled out. -/
def bytes (code : Code) : Code Bytes :=
  code.map Instr.bytes

/-- Whether every name of a term in the code is text. -/
def IsText (code : Code Bytes) : Prop :=
  ∀ i ∈ code, i.expr.IsText

theorem exists_bytes_eq {code : Code Bytes} (h : code.IsText) :
    ∃ code₀ : Code, code₀.bytes = code := by
  refine ⟨code.map Instr.text, ?_⟩
  rw [bytes, List.map_map]
  exact (List.map_congr_left fun i hi => Instr.bytes_text (h i hi)).trans code.map_id

theorem map_toItem_mapM_toRaw? {ν : Type} [DecidableEq ν] [Spelling ν] (code : Code ν) :
    (code.mapM Instr.toRaw?).map (List.map Instr.Raw.toItem)
      = code.mapM fun i : Instr ν => i.toRaw?.map Instr.Raw.toItem := by
  induction code with
  | nil => rfl
  | cons i code ih =>
    rw [List.mapM_cons, List.mapM_cons, ← ih]
    cases i.toRaw? with
    | none => rfl
    | some r => cases code.mapM Instr.toRaw? <;> rfl

theorem encode?_eq_map {ν : Type} [DecidableEq ν] [Spelling ν] (code : Code ν) :
    code.encode? = (code.mapM fun i : Instr ν => i.toRaw?.map Instr.Raw.toItem).map
      fun xs => (Item.array xs).encode := by
  rw [← map_toItem_mapM_toRaw?, encode?, toItem?]
  cases code.mapM Instr.toRaw? <;> rfl

/-- Code is written with the bytes of its spelled-out form. -/
theorem encode?_bytes (code : Code) : code.bytes.encode? = code.encode? := by
  rw [encode?_eq_map, encode?_eq_map, bytes, List.mapM_map]
  exact congrArg _ (congrArg (code.mapM ·) (funext Instr.toItem_toRaw?_bytes))

/-- Only code in which every name is text is read from what it is written as. -/
theorem isText_of_decode {code : Code Bytes} {bytes : Bytes} (h : encode? code = some bytes)
    {code' : Code} (hread : decode bytes = .ok code') : code.IsText := by
  obtain ⟨rs, hrs, rfl⟩ := encode?_eq_some.mp h
  obtain ⟨rs', hrs', -⟩ := bind_eq_ok.mp hread
  rw [show Cbor.decode? (Item.array _).encode = _ from decodeWithin_encode .standard _] at hrs'
  split at hrs'
  next =>
    rw [Option.bind_some] at hrs'
    show ∀ i ∈ code, i.expr.IsText
    have hlist : (rs.map Instr.Raw.toItem).mapM Instr.Raw.ofItem? = some rs' := by
      cases hraws : (Item.array (rs.map Instr.Raw.toItem)).toListOf? Instr.Raw.ofItem? with
      | some raws =>
        rw [hraws] at hrs'
        exact hraws.trans (congrArg some (Except.ok.inj hrs'))
      | none =>
        rw [hraws] at hrs'
        cases hrs'
    -- every record was read back, so its term was
    intro i hi
    obtain ⟨r, hr, hraw⟩ := exists_of_mem_right hrs.flip hi
    obtain ⟨r', -, hr'⟩ :=
      exists_of_mem_right (mapM_eq_some.mp hlist).flip (List.mem_map_of_mem hr)
    rw [Instr.Raw.ofItem?_toItem] at hr'
    rcases Instr.toRaw?_eq_some.mp hraw with ⟨habsent, -⟩ | ⟨n, hn, rfl⟩
    · rw [habsent]
      exact Term.isText_bytes .absent
    · obtain ⟨m, hm, -⟩ := Option.bind_eq_some_iff.mp hr'
      obtain ⟨m, hm, -⟩ := Option.map_eq_some_iff.mp hm
      exact Term.isText_of_text? hn hm
  next => cases hrs'

theorem portable_bytes {code : Code} : code.bytes.Portable ↔ code.Portable := by
  have hinstr : (∀ i ∈ code.bytes, i.Portable) ↔ ∀ i ∈ code, i.Portable := by
    rw [bytes, List.forall_mem_map]
    exact forall₂_congr fun i _ => Instr.portable_bytes
  have hlength : code.bytes.length = code.length := List.length_map _
  exact ⟨fun h => ⟨hlength ▸ h.count, hinstr.mp h.instr⟩,
    fun h => ⟨hlength.symm ▸ h.count, hinstr.mpr h.instr⟩⟩

/-- The exact round trip of code in which literals and nothing else have numbers, and quotations and
    nothing else have terms, which have no absent part: it has bytes, and from these it is read again
    if it is portable and its names are text, and nothing is if not.  There are fewer than `2 ^ 64`
    bytes in anything that has a length. -/
theorem decode_eq_ok_iff_portable {code : Code Bytes} (htidy : ∀ i ∈ code, i.Tidy)
    (hwhole : ∀ i ∈ code, i.op = .named .expr → i.expr.isComplete = true) :
    ∃ bytes, encode? code = some bytes ∧
      (code.Portable ∧ code.IsText → bytes.length < UInt64.size →
        ∃ code' : Code, decode bytes = .ok code' ∧ code'.bytes = code) ∧
      (¬(code.Portable ∧ code.IsText) → ∃ e, decode bytes = .error e) ∧
      ∀ code', decode bytes = .ok code' → code'.bytes = code := by
  have hwritten : ∀ i ∈ code, i.expr = .absent ∨ i.expr.isComplete = true := by
    intro i hi
    by_cases hop : i.op = .named .expr
    · exact .inr (hwhole i hi hop)
    · exact .inl ((htidy i hi).expr_eq_absent hop)
  obtain ⟨bytes, hbytes⟩ := Option.isSome_iff_exists.mp (isSome_encode?.mpr hwritten)
  refine ⟨bytes, hbytes, ?_⟩
  by_cases htext : code.IsText
  · -- the code of the texts has the same bytes
    obtain ⟨code₀, rfl⟩ := exists_bytes_eq htext
    have hbytes₀ : encode? code₀ = some bytes := (encode?_bytes code₀).symm.trans hbytes
    have htidy₀ : ∀ i ∈ code₀, i.Tidy := fun i hi =>
      Instr.tidy_bytes.mp (htidy i.bytes (List.mem_map_of_mem hi))
    have hread {code' : Code} := @decode_encode? code₀ htidy₀ bytes hbytes₀ code'
    refine ⟨fun h hlength => ?_, fun hnot => ?_, fun code' h => (hread.mp h).2 ▸ rfl⟩
    · have hwritable := (portable_bytes.mp h.1).writable htidy₀ hbytes₀ hlength
      exact ⟨code₀, hread.mpr ⟨hwritable, rfl⟩, rfl⟩
    · cases hcode : decode bytes with
      | error e => exact ⟨e, rfl⟩
      | ok code' =>
        exact absurd ⟨portable_bytes.mpr (hread.mp hcode).1.portable, htext⟩ hnot
  · have hrefused (code' : Code) : decode bytes ≠ .ok code' := fun h =>
      htext (isText_of_decode hbytes h)
    refine ⟨fun h => absurd h.2 htext, fun _ => ?_, fun code' h => absurd h (hrefused code')⟩
    cases hcode : decode bytes with
    | error e => exact ⟨e, rfl⟩
    | ok code' => exact absurd hcode (hrefused code')

/-- A literal, a jump that has no target, and a quoted term of height `n + 4`. -/
def quotedLams (n : Nat) : Code :=
  [⟨.named .num, 0, 0, some (-1000000000000000000000000), .absent, [], []⟩,
   ⟨.named .goto, 7, 0, none, .absent, [], [1, 2]⟩,
   ⟨.named .expr, 0, 0, none, Term.nestedLams n, [], []⟩]

theorem tidy_quotedLams (n : Nat) : ∀ i ∈ (quotedLams n).bytes, i.Tidy := by
  rw [bytes, List.forall_mem_map]
  simp only [Instr.tidy_bytes, quotedLams, List.forall_mem_cons]
  exact ⟨⟨by decide, fun h => absurd rfl h⟩, ⟨by decide, fun h => absurd rfl h⟩,
    ⟨by simp, fun _ => rfl⟩, fun _ h => absurd h List.not_mem_nil⟩

theorem quotedLams_come_back :
    (∀ i ∈ (quotedLams 11).bytes, i.op = .named .expr → i.expr.isComplete = true) ∧
    (∃ bytes code, encode? (quotedLams 11).bytes = some bytes ∧ decode bytes = .ok code ∧
      code.bytes = (quotedLams 11).bytes) ∧
    ∃ bytes e, encode? (quotedLams 12).bytes = some bytes ∧ decode bytes = .error e := by
  have hwhole : ∀ n ∈ [11, 12], ∀ i ∈ (quotedLams n).bytes,
      i.op = .named .expr → i.expr.isComplete = true := by
    decide
  refine ⟨hwhole 11 (by decide), ?_, ?_⟩
  · obtain ⟨bytes, hbytes, hback, -⟩ :=
      decode_eq_ok_iff_portable (tidy_quotedLams 11) (hwhole 11 (by decide))
    have hlength : ∀ bytes ∈ encode? (quotedLams 11).bytes, bytes.length < UInt64.size := by
      rw [encode?_bytes]
      decide +kernel
    have hportable : (quotedLams 11).Portable := by
      refine ⟨by decide, ?_⟩
      simp only [quotedLams, List.forall_mem_cons]
      refine ⟨⟨⟨_, rfl⟩, by decide, by decide, by decide⟩, ⟨⟨_, rfl⟩, by decide, by decide, by decide⟩,
        ⟨⟨_, rfl⟩, by decide, by decide, by decide⟩, fun _ h => absurd h List.not_mem_nil⟩
    have htext : (quotedLams 11).bytes.IsText :=
      List.forall_mem_map.mpr fun i _ => Term.isText_bytes i.expr
    obtain ⟨code, hcode, hsame⟩ :=
      hback ⟨portable_bytes.mpr hportable, htext⟩ (hlength bytes hbytes)
    exact ⟨bytes, code, hbytes, hcode, hsame⟩
  · obtain ⟨bytes, hbytes, -, hfail, -⟩ :=
      decode_eq_ok_iff_portable (tidy_quotedLams 12) (hwhole 12 (by decide))
    have hhigh : ∃ i ∈ (quotedLams 12).bytes, i.op = .named .expr ∧ ¬i.expr.height ≤ 15 := by decide
    obtain ⟨i, hi, hop, hhigh⟩ := hhigh
    obtain ⟨e, he⟩ := hfail fun h => hhigh ((h.1.instr i hi).term hop).1
    exact ⟨bytes, e, hbytes, he⟩

/-- The quotation of a constant whose name is a byte that no text has. -/
def quotedByte : Code Bytes :=
  [⟨.named .expr, 0, 0, none, Term.loneByte, [], []⟩]

/-- Such code is portable; it is written, and what was written is refused. -/
theorem decode_quotedByte :
    (∀ i ∈ quotedByte, i.Tidy) ∧
    (∀ i ∈ quotedByte, i.op = .named .expr → i.expr.isComplete = true) ∧ quotedByte.Portable ∧
    encode? quotedByte
      = some [0x81, 0xa2, 0x01, 0x13, 0x05, 0xa2, 0x01, 0x03, 0x02, 0x61, 0xff] ∧
    decode [0x81, 0xa2, 0x01, 0x13, 0x05, 0xa2, 0x01, 0x03, 0x02, 0x61, 0xff] = .error .refused := by
  refine ⟨?_, by decide, ⟨by decide, ?_⟩, ?_, ?_⟩
  · exact List.forall_mem_singleton.mpr ⟨by decide, fun _ => rfl⟩
  · exact List.forall_mem_singleton.mpr ⟨⟨_, rfl⟩, by decide, by decide, by decide⟩
  · rfl
  · rfl

end Code

end TermVM
