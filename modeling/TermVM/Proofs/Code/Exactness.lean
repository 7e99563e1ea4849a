/-
  TermVM.Proofs.Code.Exactness

  The exact round trip of code.

  Code is tidy when its literals, and nothing else, have numbers, and nothing
  but a quotation has a term.  The bytes of tidy code are read as the code or
  not at all: `Code.decode_encode?`.  They are read when there are not too many
  instructions and each is `Instr.Writable`, which is enough for any code, and
  for tidy code also needed.
-/
import TermVM.Proofs.Code.Wire

namespace TermVM

open Cbor Result

/-- An array keeps to the bounds of a reader just when it is short enough and its elements do. -/
theorem Cbor.Item.readable_array_iff {limits : Limits} (hhigh : limits.elements < UInt64.size)
    {xs : List Item} {levels : Nat} :
    (array xs).readable limits false (levels + 1) = true ↔
      xs.length ≤ limits.elements ∧ ∀ x ∈ xs, x.readable limits false levels = true := by
  refine ⟨fun h => ?_, fun h => readable_array hhigh h.1 h.2⟩
  simp only [readable, readableItems_eq_all, Bool.and_eq_true, decide_eq_true_eq,
    List.all_eq_true] at h
  exact ⟨h.1.1.2, h.2⟩

/-! ## Terms -/

/-- Only a term without absent parts has a node. -/
theorem Node.isComplete_of_ofTerm? {ν : Type} [Spelling ν] {t : Term ν} {n : Node ν}
    (h : ofTerm? t = some n) :
    t.isComplete = true := by
  induction t using Term.childInd generalizing n with
  | step t ih =>
    obtain ⟨hne, ks, hks, -⟩ := ofTerm?_eq_some h
    refine Term.isComplete_iff.mpr ⟨hne, ?_⟩
    clear h
    -- the children have nodes one by one
    generalize t.children = us at ih hks
    induction us generalizing ks with
    | nil => exact fun c hc => absurd hc List.not_mem_nil
    | cons u us ihus =>
      obtain ⟨k, rest, hk, hrest, -⟩ := ofTerms?_cons.mp hks
      rw [List.forall_mem_cons] at ih
      exact List.forall_mem_cons.mpr ⟨ih.1 hk, ihus rest ih.2 hrest⟩

/-- A quoted term is written thirty levels above the bottom of the standard bounds.  A node takes two
    of them, for itself and for the list of its children. -/
theorem Term.writable_standard_iff {t : Term} :
    t.Writable .standard 30 ↔ t.height ≤ 15 ∧ ∀ u ∈ t.parts, u.isRegular = true ∧
      u.children.length ≤ 131072 ∧ ∀ s ∈ u.shell.texts, (utf8 s).length < UInt64.size := by
  have hheight : 2 * t.height ≤ 30 + 1 ↔ t.height ≤ 15 := by omega
  rw [writable_iff (by decide) (by decide), hheight]
  constructor
  · rintro ⟨hregular, hhigh, hfits⟩
    exact ⟨hhigh, fun u hu => ⟨hregular u hu, hfits u hu⟩⟩
  · rintro ⟨hhigh, hparts⟩
    exact ⟨fun u hu => (hparts u hu).1, hhigh, fun u hu => (hparts u hu).2⟩

theorem Opcode.ofByte_toByte_undefined (code : UInt8) (h : Mnemonic.ofByte? code = none) :
    ofByte (undefined code h).toByte = .undefined code h := by
  unfold ofByte toByte
  split
  next m hm => cases h.symm.trans hm
  next => rfl

/-! ## Instructions -/

namespace Instr

/-- A literal, and nothing else, has a number, and nothing but a quotation has a term. -/
structure Tidy {ν : Type} (i : Instr ν) : Prop where
  num : i.num.isSome = true ↔ i.op = .named .num
  expr : i.expr ≠ .absent → i.op = .named .expr

section

variable {ν : Type} [Spelling ν]

theorem toRaw?_of_no_node {i : Instr ν} (hne : i.expr ≠ .absent) (h : Node.ofTerm? i.expr = none) :
    i.toRaw? = none := by
  unfold toRaw?
  split
  next habsent => exact absurd habsent hne
  next =>
    rw [h]
    rfl

/-- What an instruction is written as: its operands, and the node of its term if it has one. -/
theorem toRaw?_eq_some {i : Instr ν} {r : Raw ν} :
    i.toRaw? = some r ↔ (i.expr = .absent ∧ r = i.rawWith none) ∨
      ∃ n, Node.ofTerm? i.expr = some n ∧ r = i.rawWith (some n) := by
  by_cases habsent : i.expr = .absent
  · rw [toRaw?_of_absent habsent, habsent]
    simp [Node.ofTerm?, eq_comm]
  · cases hnode : Node.ofTerm? i.expr with
    | some n =>
      rw [toRaw?_of_node hnode]
      simp [habsent, eq_comm]
    | none => simp [toRaw?_of_no_node habsent hnode, habsent]

/-- An instruction has a record unless some, but not all, of its term is absent. -/
theorem isSome_toRaw? {i : Instr ν} :
    i.toRaw?.isSome = true ↔ i.expr = .absent ∨ i.expr.isComplete = true := by
  rw [Option.isSome_iff_exists]
  constructor
  · rintro ⟨r, hr⟩
    rcases toRaw?_eq_some.mp hr with ⟨habsent, -⟩ | ⟨n, hn, -⟩
    · exact .inl habsent
    · exact .inr (Node.isComplete_of_ofTerm? hn)
  · rintro (habsent | hcomplete)
    · exact ⟨_, toRaw?_of_absent habsent⟩
    · obtain ⟨n, hn⟩ := Node.exists_ofTerm? hcomplete
      exact ⟨_, toRaw?_of_node hn⟩

end

/-- The operation is one in use, and a quotation has a term that nodes stand for. -/
def Legible (i : Instr) : Prop :=
  (∃ m, i.op = .named m) ∧ (i.op = .named .expr → ∀ u ∈ i.expr.parts, u.isRegular = true)

theorem Tidy.num_eq_none {ν : Type} {i : Instr ν} (h : i.Tidy) (hop : i.op ≠ .named .num) :
    i.num = none := by
  cases hnum : i.num with
  | none => rfl
  | some v => exact absurd (h.num.mp (by rw [hnum]; rfl)) hop

theorem Tidy.expr_eq_absent {ν : Type} {i : Instr ν} (h : i.Tidy) (hop : i.op ≠ .named .expr) :
    i.expr = .absent :=
  Classical.byContradiction fun hne => hop (h.expr hne)

/-- A quotation is turned back when its term is. -/
theorem toInstr_rawWith_expr {a b : UInt32} {t : Term} {targets fields : List UInt32} {r : Raw}
    (hr : toRaw? ⟨.named .expr, a, b, none, t, targets, fields⟩ = some r) {j : Instr} :
    r.toInstr = .ok j ↔ (∀ u ∈ t.parts, u.isRegular = true) ∧
      j = ⟨.named .expr, a, b, none, t, targets, fields⟩ := by
  rcases toRaw?_eq_some.mp hr with ⟨habsent, rfl⟩ | ⟨n, hn, rfl⟩
  · -- an absent term is written as none, which no quotation is read from
    obtain rfl : t = .absent := habsent
    have hirregular : ¬∀ u ∈ (Term.absent : Term).parts, u.isRegular = true := by decide
    exact iff_of_false (fun h => by cases h) fun h => hirregular h.1
  · have hterm : (rawWith ⟨.named .expr, a, b, none, t, targets, fields⟩ (some n)).toInstr
        = (n.toTerm.mapError Malformed.term).map
          fun t' => ⟨.named .expr, a, b, none, t', targets, fields⟩ := rfl
    rw [hterm, map_eq_ok]
    simp only [mapError_eq_ok, Node.rebuilds t n hn]
    constructor
    · rintro ⟨t', ⟨hregular, rfl⟩, rfl⟩
      exact ⟨hregular, rfl⟩
    · rintro ⟨hregular, rfl⟩
      exact ⟨t, ⟨hregular, rfl⟩, rfl⟩

/-- The record of a tidy instruction is the instruction or nothing. -/
theorem Tidy.toInstr_eq_ok {i : Instr} (h : i.Tidy) {r : Raw} (hr : i.toRaw? = some r) {j : Instr} :
    r.toInstr = .ok j ↔ i.Legible ∧ j = i := by
  cases hop : i.op with
  | undefined code hcode =>
    -- no instruction is read from an operation that is not in use
    have hbyte : Opcode.ofByte r.op = .undefined code hcode := by
      have hop' : r.op = i.op.toByte := by
        rcases toRaw?_eq_some.mp hr with ⟨-, rfl⟩ | ⟨n, -, rfl⟩ <;> rfl
      rw [hop', hop, Opcode.ofByte_toByte_undefined]
    refine iff_of_false (fun hj => ?_) fun hlegible => ?_
    · unfold Raw.toInstr at hj
      simp only [hbyte] at hj
      cases hj
    · obtain ⟨m, hm⟩ := hlegible.1.1
      cases hop.symm.trans hm
  | named m =>
    by_cases hexpr : m = .expr
    · subst hexpr
      -- a quotation: only its term can be refused
      have hnum := h.num_eq_none (by rw [hop]; decide)
      obtain ⟨op, a, b, num, expr, targets, fields⟩ := i
      obtain rfl : op = .named .expr := hop
      obtain rfl : num = none := hnum
      rw [toInstr_rawWith_expr hr]
      exact and_congr_left' ⟨fun hregular => ⟨⟨.expr, rfl⟩, fun _ => hregular⟩,
        fun hlegible => hlegible.2 rfl⟩
    · have hne : i.op ≠ .named .expr := fun h => hexpr (Opcode.named.inj (hop.symm.trans h))
      have habsent := h.expr_eq_absent hne
      obtain rfl : i.rawWith none = r := Option.some.inj ((toRaw?_of_absent habsent).symm.trans hr)
      have hlegible : i.Legible := ⟨⟨m, hop⟩, fun h => absurd h hne⟩
      -- any other instruction is turned back as it is, a literal through its numeral
      have hback : (i.rawWith none).toInstr = .ok i := by
        obtain ⟨op, a, b, num, expr, targets, fields⟩ := i
        obtain rfl : op = .named m := hop
        obtain rfl : expr = .absent := habsent
        by_cases hnum : m = .num
        · subst hnum
          obtain ⟨v, rfl⟩ := Option.isSome_iff_exists.mp (h.num.mpr rfl)
          exact Raw.toInstr_literal rfl (Text.readInt?_decimal v)
        · obtain rfl : num = none := h.num_eq_none fun hop => hnum (Opcode.named.inj hop)
          exact Raw.toInstr_plain rfl hnum hexpr
      rw [hback, and_iff_right hlegible, Except.ok.injEq, eq_comm]

/-- A record keeps to the bounds of a reader just when its operands do, one level further down. -/
theorem Raw.readable_toItem_iff {limits : Limits} (hlow : 7 ≤ limits.elements)
    (hhigh : limits.elements < UInt64.size) {r : Raw} {levels : Nat} (hlevels : 0 < levels) :
    r.toItem.readable limits false (levels + 1) = true ↔
      (utf8 r.num).length < UInt64.size ∧
        (∀ n ∈ r.expr, n.toItem.readable limits false levels = true) ∧
        r.targets.length ≤ limits.elements ∧ r.fields.length ≤ limits.elements := by
  constructor
  · intro h
    have hwords {ws : List UInt32}
        (hws : (!(!ws.isEmpty) || (wordsItem ws).readable limits false levels) = true) :
        ws.length ≤ limits.elements := by
      by_cases hne : ws = []
      · simp [hne]
      · exact ((Node.readable_list_field hhigh levels _ ws).mp hws hne).1
    rw [toItem_eq, Item.readable, Node.readableEntries_written] at h
    simp only [record, List.all_cons, List.all_nil, Bool.and_eq_true, Nat.add_sub_cancel] at h
    obtain ⟨-, -, -, -, hnum, hexpr, htargets, hfields, -⟩ := h
    refine ⟨(Node.readable_text_field limits levels r.num).mp hnum, fun n hn => ?_,
      hwords htargets, hwords hfields⟩
    obtain hn : r.expr = some n := hn
    simpa [hn] using hexpr
  · rintro ⟨hnum, hexpr, htargets, hfields⟩
    exact readable_toItem hlow hhigh hlevels hnum hexpr htargets hfields

/-- A tidy instruction can be written exactly when its record keeps to the bounds and is the
    instruction again. -/
theorem Tidy.writable_iff {limits : Limits} (hlow : 7 ≤ limits.elements)
    (hhigh : limits.elements < UInt64.size) {levels : Nat} (hlevels : 0 < levels) {i : Instr}
    (h : i.Tidy) {r : Raw} (hr : i.toRaw? = some r) :
    i.Writable limits levels ↔
      r.toItem.readable limits false (levels + 1) = true ∧ r.toInstr = .ok i := by
  constructor
  · intro hwritable
    obtain ⟨r', hr', hreadable, hback⟩ := hwritable.exists_toRaw? hlow hhigh hlevels
    obtain rfl : r' = r := Option.some.inj (hr'.symm.trans hr)
    exact ⟨hreadable, hback⟩
  · rintro ⟨hreadable, hback⟩
    obtain ⟨hnamed, hregular⟩ := ((h.toInstr_eq_ok hr).mp hback).1
    obtain ⟨hnum, hexpr, htargets, hfields⟩ :=
      (Raw.readable_toItem_iff hlow hhigh hlevels).mp hreadable
    have hraw := toRaw?_eq_some.mp hr
    have hoperands : r.num = (i.num.map Text.decimal).getD "" ∧ r.targets = i.targets ∧
        r.fields = i.fields := by
      rcases hraw with ⟨-, rfl⟩ | ⟨n, -, rfl⟩ <;> exact ⟨rfl, rfl, rfl⟩
    obtain ⟨hnum', htargets', hfields'⟩ := hoperands
    refine ⟨hnamed, ?_, ?_, htargets' ▸ htargets, hfields' ▸ hfields⟩
    · by_cases hop : i.op = .named .num
      · obtain ⟨v, hv⟩ := Option.isSome_iff_exists.mp (h.num.mpr hop)
        rw [hnum', hv] at hnum
        exact .inl ⟨hop, v, hv, hnum⟩
      · exact .inr ⟨hop, h.num_eq_none hop⟩
    · by_cases hop : i.op = .named .expr
      · rcases hraw with ⟨habsent, -⟩ | ⟨n, hn, rfl⟩
        · -- an absent term is no term that nodes stand for
          have hself := hregular hop _ i.expr.mem_parts_self
          rw [habsent] at hself
          cases hself
        · refine .inl ⟨hop, n, hn, hexpr n rfl, ?_⟩
          exact (Node.rebuilds i.expr n hn i.expr).mpr ⟨hregular hop, rfl⟩
      · exact .inr ⟨hop, h.expr_eq_absent hop⟩

end Instr

/-! ## Code -/

namespace Code

/-- There are few instructions, and each of them can be written. -/
structure Writable (limits : Limits) (levels : Nat) (code : Code) : Prop where
  count : code.length ≤ limits.elements
  code : ∀ i ∈ code, i.Writable limits levels

section

variable {ν : Type} [DecidableEq ν] [Spelling ν]

theorem encode?_eq_some {code : Code ν} {bytes : Bytes} :
    encode? code = some bytes ↔
      ∃ rs, List.Forall₂ (fun i r => Instr.toRaw? i = some r) code rs ∧
        (Item.array (rs.map Instr.Raw.toItem)).encode = bytes := by
  simp only [encode?, toItem?, Option.bind_eq_bind, Option.bind_eq_some_iff, Option.pure_def,
    Option.some.injEq, mapM_eq_some]
  constructor
  · rintro ⟨x, ⟨rs, hrs, rfl⟩, rfl⟩
    exact ⟨rs, hrs, rfl⟩
  · rintro ⟨rs, hrs, rfl⟩
    exact ⟨_, ⟨rs, hrs, rfl⟩, rfl⟩

/-- Code has bytes unless it quotes a term of which some, but not all, is absent. -/
theorem isSome_encode? {code : Code ν} :
    (encode? code).isSome = true ↔
      ∀ i ∈ code, i.expr = .absent ∨ i.expr.isComplete = true := by
  rw [Option.isSome_iff_exists]
  simp only [encode?_eq_some, ← Instr.isSome_toRaw?, Option.isSome_iff_exists]
  constructor
  · rintro ⟨-, rs, hrs, -⟩ i hi
    obtain ⟨r, -, hr⟩ := exists_of_mem_right hrs.flip hi
    exact ⟨r, hr⟩
  · intro h
    obtain ⟨rs, hrs⟩ := exists_forall₂ h
    exact ⟨_, rs, hrs, rfl⟩

end

theorem ofRawsFrom_eq_ok_iff {code : Code} {rs : List Instr.Raw} {index : Nat} :
    ofRawsFrom index rs = .ok code ↔ List.Forall₂ (fun i r => r.toInstr = .ok i) code rs := by
  refine ⟨fun h => ?_, fun h => ofRawsFrom_eq_ok h index⟩
  induction rs generalizing index code with
  | nil =>
    cases h
    exact .nil
  | cons r rs ih =>
    obtain ⟨i, hi, h⟩ := bind_eq_ok.mp h
    obtain ⟨is, his, h⟩ := bind_eq_ok.mp h
    cases h
    exact .cons (mapError_eq_ok.mp hi) (ih his)

section

variable {code : Code} {rs : List Instr.Raw} (htidy : ∀ i ∈ code, i.Tidy)
  (hrs : List.Forall₂ (fun i r => Instr.toRaw? i = some r) code rs)

include htidy hrs

/-- The records of tidy code are the code or nothing. -/
theorem eq_of_ofRaws {code' : Code} (h : ofRaws rs = .ok code') : code' = code := by
  have hback := ofRawsFrom_eq_ok_iff.mp h
  clear h
  induction hrs generalizing code' with
  | nil =>
    cases hback
    rfl
  | cons hr _ ih =>
    rw [List.forall_mem_cons] at htidy
    cases hback with
    | cons hfirst hrest =>
      rw [((htidy.1.toInstr_eq_ok hr).mp hfirst).2, ih htidy.2 hrest]

theorem forall_writable_iff :
    (∀ i ∈ code, i.Writable .standard 30) ↔
      (∀ r ∈ rs, r.toItem.readable .standard false 31 = true) ∧ ofRaws rs = .ok code := by
  rw [ofRaws, ofRawsFrom_eq_ok_iff]
  induction hrs with
  | nil => simp
  | cons hr _ ih =>
    rw [List.forall_mem_cons] at htidy
    rw [List.forall_mem_cons, List.forall_mem_cons, List.forall₂_cons, ih htidy.2,
      htidy.1.writable_iff (by decide) (by decide) (by decide) hr]
    exact and_and_and_comm

end

/-- The bytes of tidy code are read as the code or not at all, and they are read just when the code
    can be written. -/
theorem decode_encode? {code : Code} (htidy : ∀ i ∈ code, i.Tidy) {bytes : Bytes}
    (h : encode? code = some bytes) {code' : Code} :
    decode bytes = .ok code' ↔ code.Writable .standard 30 ∧ code' = code := by
  obtain ⟨rs, hrs, rfl⟩ := encode?_eq_some.mp h
  -- the bounds of the reader, record by record
  have hreadable : (Item.array (rs.map Instr.Raw.toItem)).readable .standard false 32 = true ↔
      code.length ≤ Limits.standard.elements ∧
        ∀ r ∈ rs, r.toItem.readable .standard false 31 = true := by
    rw [Item.readable_array_iff (by decide), List.length_map, hrs.length_eq]
    exact and_congr_right' List.forall_mem_map
  have hwritable : code.Writable .standard 30 ↔
      (Item.array (rs.map Instr.Raw.toItem)).readable .standard false 32 = true ∧
        ofRaws rs = .ok code := by
    rw [hreadable, and_assoc, ← forall_writable_iff htidy hrs]
    exact ⟨fun h => ⟨h.count, h.code⟩, fun h => ⟨h.1, h.2⟩⟩
  have hread : Cbor.decode? (Item.array (rs.map Instr.Raw.toItem)).encode
      = if (Item.array (rs.map Instr.Raw.toItem)).readable .standard false 32 then
          some (Item.array (rs.map Instr.Raw.toItem)) else none :=
    decodeWithin_encode .standard _
  rw [decode, hread, hwritable]
  -- within the bounds the same records come back; what they are turned into decides
  by_cases hok : (Item.array (rs.map Instr.Raw.toItem)).readable .standard false 32 = true
  · have hlist := Item.toListOf?_map Instr.Raw.ofItem?_toItem_self rs
    rw [if_pos hok, Option.bind_some, hlist]
    show (ofRaws rs).mapError WireError.malformed = .ok code' ↔ _
    rw [mapError_eq_ok, and_iff_right hok]
    constructor
    · intro hcode
      obtain rfl := eq_of_ofRaws htidy hrs hcode
      exact ⟨hcode, rfl⟩
    · rintro ⟨hcode, rfl⟩
      exact hcode
  · rw [if_neg hok]
    exact iff_of_false (fun h => by cases h) fun h => hok h.1.1

end Code

end TermVM
