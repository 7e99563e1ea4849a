/-
  TermVM.Proofs.Code.Wire

  Code and procedures and their bytes.

  An instruction is written as a record that leaves out what is zero or empty,
  and every record is read back as what it was.  A record is no instruction
  again unless only a literal has a number and only a quotation has a term;
  `Instr.Writable` asks for that, and for operands within the bounds of a
  reader.  A procedure of such instructions is written and read back:
  `Procedure.decodeList_encodeList?`.
-/
import TermVM.Code.Wire
import TermVM.Proofs.Term.Reading

namespace TermVM

open Cbor Result

/-! ## Records -/

namespace Cbor

variable {σ ε : Type} {refused : ε} {assign : Nat → Item → σ → Option (Except ε σ)}

/-- Reading fields into a record gives `result`, whichever of the fields before `number` have been
    read already. -/
def Takes (refused : ε) (assign : Nat → Item → σ → Option (Except ε σ)) (number : Nat)
    (fields : List Node.Field) (s : σ) (result : Except ε σ) : Prop :=
  ∀ seen, (∀ m ∈ seen, m < number) →
    readFields refused assign (Node.written fields) seen s = result

theorem takes_nil (number : Nat) (s : σ) : Takes refused assign number [] s (.ok s) :=
  fun _ _ => rfl

/-- A field that is written is taken into the record, and one that is left out is there already. -/
theorem takes_cons {present : Bool} {number : UInt64} {k : Nat} {v : Item}
    {fields : List Node.Field} {s : σ} {result : Except ε σ} (hk : number.toNat = k) (s' : σ)
    (htaken : assign k v s = some (.ok s')) (habsent : present = false → s' = s)
    (hrest : Takes refused assign (k + 1) fields s' result) :
    Takes refused assign k ((present, number, v) :: fields) s result := by
  intro seen hseen
  have hlater {m : Nat} (hm : m ∈ seen) : m < k + 1 := Nat.lt_succ_of_lt (hseen m hm)
  cases present with
  | false =>
    rw [← hrest seen fun m hm => hlater hm, habsent rfl]
    rfl
  | true =>
    have hnew : k ∉ seen := fun hm => Nat.lt_irrefl _ (hseen _ hm)
    rw [← hrest (k :: seen)
      (List.forall_mem_cons.mpr ⟨Nat.lt_succ_self _, fun m hm => hlater hm⟩)]
    show readFields refused assign (entry number v :: Node.written fields) seen s = _
    simp [entry, readFields, Key.ofItem, hk, hnew, htaken]

/-- A field that is written and cannot be taken ends the reading. -/
theorem takes_error {present : Bool} {number : UInt64} {k : Nat} {v : Item}
    {fields : List Node.Field} {s : σ} {e : ε} (hk : number.toNat = k) (hpresent : present = true)
    (hrefused : assign k v s = some (.error e)) :
    Takes refused assign k ((present, number, v) :: fields) s (.error e) := by
  intro seen hseen
  have hnew : k ∉ seen := fun hm => Nat.lt_irrefl _ (hseen _ hm)
  rw [hpresent]
  show readFields refused assign (entry number v :: Node.written fields) seen s = _
  simp [entry, readFields, Key.ofItem, hk, hnew, hrefused]

end Cbor

theorem Opcode.ofByte_toByte (m : Mnemonic) : ofByte m.toByte = .named m := by
  unfold ofByte
  split
  next m' h => rw [Option.some.inj (h.symm.trans (Mnemonic.ofByte?_toByte m))]
  next h => cases h.symm.trans (Mnemonic.ofByte?_toByte m)

namespace Instr

@[simp] theorem toListOf?_wordsItem (ws : List UInt32) :
    (wordsItem ws).toListOf? Item.toWord? = some ws :=
  Item.toListOf?_map Item.toWord?_uint ws

namespace Raw

section

variable {ν : Type} [DecidableEq ν] [Spelling ν]

/-- The fields of the record of an instruction. -/
def record (r : Raw ν) : List Node.Field :=
  [(true, 1, .uint r.op.toUInt64),
   (r.a != 0, 2, .uint r.a.toUInt64),
   (r.b != 0, 3, .uint r.b.toUInt64),
   (r.num != "", 4, .text r.num),
   (r.expr.isSome, 5, (r.expr.map Node.toItem).getD .null),
   (!r.targets.isEmpty, 6, wordsItem r.targets),
   (!r.fields.isEmpty, 7, wordsItem r.fields)]

theorem toItem_eq (r : Raw ν) : r.toItem = .map (Node.written r.record) := by
  obtain ⟨op, a, b, num, expr, targets, fields⟩ := r
  cases expr <;> simp [toItem, record, Node.written, entryIf]

/-- The record whose term has the texts that the names of a term are read back as. -/
def text? (r : Raw ν) : Option Raw := do
  let expr ← match r.expr with
    | none => some none
    | some n => n.text?.map some
  return { r with expr }

theorem optionalNode?_toItem (n : Node ν) : optionalNode? n.toItem = n.text?.map some := by
  have hmap : n.toItem.isNull = false := by rw [Node.toItem_eq]; rfl
  simp [optionalNode?, hmap, Node.ofItem?_toItem]

/-- The record of an instruction is read as what it was written from, if the names of its term are
    text, and refused otherwise. -/
theorem ofItem?_toItem (r : Raw ν) : ofItem? r.toItem = r.text? := by
  obtain ⟨op, a, b, num, expr, targets, fields⟩ := r
  have hafter (expr' : Option Node)
      (hexpr : optionalNode? ((expr.map Node.toItem).getD .null) = some expr')
      (habsent : expr.isSome = false → expr' = none) :
      Takes () assign 1 (record ⟨op, a, b, num, expr, targets, fields⟩) {}
        (.ok ⟨op, a, b, num, expr', targets, fields⟩) := by
    -- What has been read so far is the record up to the field that comes next.
    refine takes_cons rfl { op } ?_ (by simp) <|
      takes_cons rfl { op, a } ?_ (by simp) <|
      takes_cons rfl { op, a, b } ?_ (by simp) <|
      takes_cons rfl { op, a, b, num } ?_ (by simp) <|
      takes_cons rfl { op, a, b, num, expr := expr' } ?_ (fun h => by rw [habsent h]) <|
      takes_cons rfl { op, a, b, num, expr := expr', targets } ?_ (by simp) <|
      takes_cons rfl { op, a, b, num, expr := expr', targets, fields } ?_ (by simp) <|
      takes_nil _ _
    all_goals
      simp [assign, orRefuse, Except.map, hexpr]
  rw [toItem_eq, ofItem?]
  show (readFields () assign _ [] {}).toOption = _
  cases expr with
  | none =>
    rw [hafter none rfl (fun _ => rfl) [] (by simp)]
    rfl
  | some n =>
    have hnode := optionalNode?_toItem n
    cases htext : n.text? with
    | some m =>
      rw [htext] at hnode
      rw [hafter (some m) hnode (fun h => by cases h) [] (by simp), text?]
      simp [htext, Except.toOption]
    | none =>
      rw [htext] at hnode
      have hrefused : Takes () assign 1 (record ⟨op, a, b, num, some n, targets, fields⟩) {}
          (.error ()) := by
        refine takes_cons rfl { op } ?_ (by simp) <|
          takes_cons rfl { op, a } ?_ (by simp) <|
          takes_cons rfl { op, a, b } ?_ (by simp) <|
          takes_cons rfl { op, a, b, num } ?_ (by simp) <|
          takes_error rfl rfl ?_
        all_goals
          simp [assign, orRefuse, Except.map, hnode]
      rw [hrefused [] (by simp), text?]
      simp [htext, Except.toOption]

end

@[simp] theorem text?_self (r : Raw) : r.text? = some r := by
  obtain ⟨op, a, b, num, expr, targets, fields⟩ := r
  cases expr <;> simp [text?]

theorem ofItem?_toItem_self (r : Raw) : ofItem? r.toItem = some r := by
  rw [ofItem?_toItem, text?_self]

/-- A record keeps to the bounds of a reader when its operands do, one level further down. -/
theorem readable_toItem {limits : Limits} (hlow : 7 ≤ limits.elements)
    (hhigh : limits.elements < UInt64.size) {r : Raw} {levels : Nat} (hlevels : 0 < levels)
    (hnum : (utf8 r.num).length < UInt64.size)
    (hexpr : ∀ n ∈ r.expr, n.toItem.readable limits false levels = true)
    (htargets : r.targets.length ≤ limits.elements) (hfields : r.fields.length ≤ limits.elements) :
    r.toItem.readable limits false (levels + 1) = true := by
  have hcount : (Node.written r.record).length ≤ 7 := Node.length_written_le r.record
  have hsize : (Node.written r.record).length < UInt64.size := by omega
  have huint (x : UInt64) : (Item.uint x).readable limits false levels = true := rfl
  have htext := (Node.readable_text_field limits levels r.num).mpr hnum
  have hnode : (!r.expr.isSome ||
      ((r.expr.map Node.toItem).getD .null).readable limits false levels) = true := by
    cases hr : r.expr with
    | none => rfl
    | some n => exact hexpr n hr
  have hwords {ws : List UInt32} (hws : ws.length ≤ limits.elements) :
      (!(!ws.isEmpty) || (wordsItem ws).readable limits false levels) = true :=
    (Node.readable_list_field hhigh levels _ ws).mpr fun _ => ⟨hws, hlevels, fun _ _ => rfl⟩
  rw [toItem_eq, Item.readable, Node.readableEntries_written, decide_eq_true hsize,
    decide_eq_true (Nat.le_trans hcount hlow), decide_eq_true (Nat.succ_pos levels)]
  simp only [record, List.all_cons, List.all_nil, htext, hnode, hwords htargets, hwords hfields,
    huint, Nat.add_sub_cancel, Bool.or_true, Bool.and_true]

/-- Most operations keep neither a number nor a term. -/
theorem toInstr_plain {r : Raw} {m : Mnemonic} (hop : r.op = m.toByte) (hnum : m ≠ .num)
    (hexpr : m ≠ .expr) :
    r.toInstr = .ok ⟨.named m, r.a, r.b, none, .absent, r.targets, r.fields⟩ := by
  have hbyte : Opcode.ofByte r.op = .named m := hop ▸ Opcode.ofByte_toByte m
  unfold toInstr
  simp only [hbyte]

theorem toInstr_literal {r : Raw} {v : Int} (hop : r.op = Mnemonic.num.toByte)
    (hnum : Text.readInt? r.num.toList = some v) :
    r.toInstr = .ok ⟨.named .num, r.a, r.b, some v, .absent, r.targets, r.fields⟩ := by
  have hbyte : Opcode.ofByte r.op = .named .num := hop ▸ Opcode.ofByte_toByte .num
  unfold toInstr
  simp only [hbyte, hnum]

theorem toInstr_quotation {r : Raw} {n : Node} {t : Term} (hop : r.op = Mnemonic.expr.toByte)
    (hexpr : r.expr = some n) (ht : n.toTerm = .ok t) :
    r.toInstr = .ok ⟨.named .expr, r.a, r.b, none, t, r.targets, r.fields⟩ := by
  have hbyte : Opcode.ofByte r.op = .named .expr := hop ▸ Opcode.ofByte_toByte .expr
  unfold toInstr
  simp only [hbyte, hexpr, ht]
  rfl

end Raw

/-! ## Instructions -/

/-- Only a literal has a number, only a quotation has a term, and the operands keep to the bounds of
    a reader. -/
structure Writable (limits : Limits) (levels : Nat) (i : Instr) : Prop where
  named : ∃ m, i.op = .named m
  num : (i.op = .named .num ∧ ∃ v, i.num = some v ∧ (utf8 (Text.decimal v)).length < UInt64.size) ∨
    (i.op ≠ .named .num ∧ i.num = none)
  expr : (i.op = .named .expr ∧ i.expr.Writable limits levels) ∨
    (i.op ≠ .named .expr ∧ i.expr = .absent)
  targets : i.targets.length ≤ limits.elements
  fields : i.fields.length ≤ limits.elements

section

variable {ν : Type} [Spelling ν]

/-- The record of an instruction with the node of its term. -/
def rawWith (i : Instr ν) (expr : Option (Node ν)) : Raw ν :=
  ⟨i.op.toByte, i.a, i.b, (i.num.map Text.decimal).getD "", expr, i.targets, i.fields⟩

theorem toRaw?_of_absent {i : Instr ν} (h : i.expr = .absent) :
    i.toRaw? = some (i.rawWith none) := by
  simp [toRaw?, h, rawWith]

theorem toRaw?_of_node {i : Instr ν} {n : Node ν} (h : Node.ofTerm? i.expr = some n) :
    i.toRaw? = some (i.rawWith (some n)) := by
  unfold toRaw?
  split
  next habsent =>
    rw [habsent] at h
    cases h
  next =>
    rw [h]
    rfl

end

/-- What can be written is written within the bounds of a reader, and its record is the instruction
    again. -/
theorem Writable.exists_toRaw? {limits : Limits} (hlow : 7 ≤ limits.elements)
    (hhigh : limits.elements < UInt64.size) {levels : Nat} (hlevels : 0 < levels) {i : Instr}
    (h : i.Writable limits levels) :
    ∃ r, i.toRaw? = some r ∧ r.toItem.readable limits false (levels + 1) = true ∧
      r.toInstr = .ok i := by
  obtain ⟨op, a, b, num, expr, targets, fields⟩ := i
  obtain ⟨⟨m, rfl⟩, hnum, hexpr, htargets, hfields⟩ := h
  have htext : (utf8 ((num.map Text.decimal).getD "")).length < UInt64.size := by
    rcases hnum with ⟨-, v, rfl, hshort⟩ | ⟨-, rfl⟩
    · exact hshort
    · decide
  have hreadable {e : Option Node} (he : ∀ n ∈ e, n.toItem.readable limits false levels = true) :
      (rawWith ⟨.named m, a, b, num, expr, targets, fields⟩ e).toItem.readable limits false
        (levels + 1) = true :=
    Raw.readable_toItem hlow hhigh hlevels htext he htargets hfields
  rcases hexpr with ⟨hquotes, n, hn, hnode, hterm⟩ | ⟨hne, rfl⟩
  · -- a quotation has a term and no number
    obtain rfl : m = .expr := Opcode.named.inj hquotes
    obtain rfl : num = none := by
      rcases hnum with ⟨hliteral, -⟩ | ⟨-, hnone⟩
      · cases hliteral
      · exact hnone
    refine ⟨_, toRaw?_of_node hn, hreadable fun n' hn' => Option.some.inj hn' ▸ hnode, ?_⟩
    exact Raw.toInstr_quotation rfl rfl hterm
  · refine ⟨_, toRaw?_of_absent rfl, hreadable (fun n' hn' => by cases hn'), ?_⟩
    rcases hnum with ⟨hliteral, v, rfl, -⟩ | ⟨hplain, rfl⟩
    · obtain rfl : m = .num := Opcode.named.inj hliteral
      exact Raw.toInstr_literal rfl (Text.readInt?_decimal v)
    · exact Raw.toInstr_plain rfl (fun hm => hplain (hm ▸ rfl)) fun hm => hne (hm ▸ rfl)

end Instr

/-! ## Procedures -/

/-- Records are turned into instructions one by one, whatever position they start from. -/
theorem Code.ofRawsFrom_eq_ok {code : Code} {rs : List Instr.Raw}
    (h : List.Forall₂ (fun i r => r.toInstr = .ok i) code rs) (index : Nat) :
    ofRawsFrom index rs = .ok code := by
  induction h generalizing index with
  | nil => rfl
  | cons hfirst _ ih =>
    rw [ofRawsFrom, hfirst]
    show (ofRawsFrom (index + 1) _ >>= fun is => Except.ok (_ :: is)) = _
    rw [ih]
    rfl

namespace Procedure

/-- The name is short, there are few instructions, and each of them can be written. -/
structure Writable (limits : Limits) (levels : Nat) (p : Procedure) : Prop where
  name : (utf8 p.name).length < UInt64.size
  count : p.code.length ≤ limits.elements
  code : ∀ i ∈ p.code, i.Writable limits levels

/-- What can be written is written within the bounds of a reader, and read back. -/
theorem Writable.exists_toItem? {limits : Limits} (hlow : 7 ≤ limits.elements)
    (hhigh : limits.elements < UInt64.size) {levels : Nat} (hlevels : 0 < levels) {p : Procedure}
    (h : p.Writable limits levels) :
    ∃ x, p.toItem? = some x ∧ x.readable limits false (levels + 3) = true ∧
      optionalOfItem x = .ok (some p) := by
  obtain ⟨rs, hrs⟩ := exists_forall₂ fun i hi => (h.code i hi).exists_toRaw? hlow hhigh hlevels
  have hraws : p.code.mapM Instr.toRaw? = some rs := mapM_eq_some.mpr (hrs.imp fun _ _ hr => hr.1)
  have hcode : Code.ofRaws rs = .ok p.code := Code.ofRawsFrom_eq_ok (hrs.imp fun _ _ hr => hr.2.2) 0
  refine ⟨.map [entry 1 (.text p.name), entry 2 (.uint p.arity.toUInt64),
    entry 3 (.array (rs.map Instr.Raw.toItem))], ?_, ?_, ?_⟩
  · rw [toItem?, Code.toItem?, hraws]
    rfl
  · have hsize : 3 < UInt64.size := by decide
    have harray :
        (Item.array (rs.map Instr.Raw.toItem)).readable limits false (levels + 2) = true := by
      refine Item.readable_array hhigh ?_ (List.forall_mem_map.mpr fun r hr => ?_)
      · rw [List.length_map, ← hrs.length_eq]
        exact h.count
      · obtain ⟨i, -, -, hreadable, -⟩ := exists_of_mem_right hrs hr
        exact hreadable
    have hthree : 3 ≤ limits.elements := by omega
    simp [Item.readable, Item.readableEntries, entry, hsize, hthree, h.name, harray]
  · have hread : readRecord WireError.refused Raw.assign {}
        (.map [entry 1 (.text p.name), entry 2 (.uint p.arity.toUInt64),
          entry 3 (.array (rs.map Instr.Raw.toItem))]) = .ok ⟨p.name, p.arity, rs⟩ := by
      simp [readRecord, Item.toEntries?, Item.untag, readFields, entry, Key.ofItem, Raw.assign,
        orRefuse, Except.map, Item.toListOf?_map Instr.Raw.ofItem?_toItem_self]
    -- a record is not null
    show (ofItem _).map some = .ok (some p)
    rw [ofItem, hread]
    show ((Code.ofRaws rs).mapError (WireError.malformed p.name) >>= fun code =>
      Except.ok (Procedure.mk p.name p.arity code)).map some = .ok (some p)
    rw [hcode]
    rfl

theorem listToItem?_eq_some {ps : List Procedure} {xs : List Item}
    (h : List.Forall₂ (fun p x => p.toItem? = some x) ps xs) :
    listToItem? (some (ps.map some)) = some (.array xs) := by
  rw [listToItem?]
  refine Option.bind_eq_some_iff.mpr ⟨xs, mapM_eq_some.mpr ?_, rfl⟩
  rw [List.forall₂_map_left_iff]
  exact h

theorem listOfItem_eq_ok {ps : List Procedure} {xs : List Item}
    (h : List.Forall₂ (fun p x => optionalOfItem x = .ok (some p)) ps xs) :
    listOfItem (.array xs) = .ok (some (ps.map some)) := by
  have hback : xs.mapM optionalOfItem = .ok (ps.map some) := by
    rw [mapM_eq_ok, List.forall₂_map_right_iff]
    exact h.flip
  show (xs.mapM optionalOfItem >>= fun ps => Except.ok (some ps)) = _
  rw [hback]
  rfl

/-- A list of procedures that can be written is written within the bounds of a reader, and read
    back. -/
theorem exists_listToItem? {limits : Limits} (hlow : 7 ≤ limits.elements)
    (hhigh : limits.elements < UInt64.size) {levels : Nat} (hlevels : 0 < levels)
    {ps : List Procedure} (hcount : ps.length ≤ limits.elements)
    (h : ∀ p ∈ ps, p.Writable limits levels) :
    ∃ x, listToItem? (some (ps.map some)) = some x ∧
      x.readable limits false (levels + 4) = true ∧ listOfItem x = .ok (some (ps.map some)) := by
  obtain ⟨xs, hxs⟩ := exists_forall₂ fun p hp => (h p hp).exists_toItem? hlow hhigh hlevels
  refine ⟨.array xs, listToItem?_eq_some (hxs.imp fun _ _ hx => hx.1), ?_,
    listOfItem_eq_ok (hxs.imp fun _ _ hx => hx.2.2)⟩
  refine Item.readable_array hhigh (hxs.length_eq ▸ hcount) fun x hx => ?_
  obtain ⟨p, -, -, hreadable, -⟩ := exists_of_mem_right hxs hx
  exact hreadable

/-- A list of procedures that can be written is written, and read back from what was written. -/
theorem decodeList_encodeList? {ps : List Procedure} (hcount : ps.length ≤ 131072)
    (h : ∀ p ∈ ps, p.Writable .standard 28) :
    ∃ bytes, encodeList? (some (ps.map some)) = some bytes ∧
      decodeList bytes = .ok (some (ps.map some)) := by
  have hcount : ps.length ≤ Limits.standard.elements := hcount
  obtain ⟨x, hx, hreadable, hback⟩ :=
    exists_listToItem? (by decide) (by decide) (by decide) hcount h
  refine ⟨x.encode, ?_, ?_⟩
  · rw [encodeList?, hx]
    rfl
  · rw [decodeList, Cbor.decode?_encode hreadable]
    exact hback

end Procedure

end TermVM
