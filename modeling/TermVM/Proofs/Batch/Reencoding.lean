/-
  TermVM.Proofs.Batch.Reencoding

  Batches that were read can be written, and are read again as what they are.

  A batch is a record with a list of records, so a term of a declaration is
  three levels down.  Reading takes many spellings, writing has one; what was
  read within the bounds is written within them, so that reading and writing a
  batch is a normal form of its bytes: `reencode_of_decode`.
-/
import TermVM.Batch
import TermVM.Proofs.Term.Reading

namespace TermVM

open Cbor Result

theorem Cbor.orRefuse_eq_ok {α ε : Type} {e : ε} {x : Option α} {a : α} :
    orRefuse e x = .ok a ↔ x = some a := by
  cases x <;> simp [orRefuse]

/-! ## Declarations -/

namespace Declaration

/-- The name is short, and the value can be written. -/
structure Writable (limits : Limits) (levels : Nat) (d : Declaration) : Prop where
  name : (utf8 d.name).length < UInt64.size
  value : d.value.Writable limits levels

section

variable {limits : Limits} (hlow : 9 ≤ limits.elements) (hhigh : limits.elements < UInt64.size)

include hlow hhigh

/-- A declaration that was read can be written a level further down. -/
theorem writable_of_ofItem {x : Item} {tagged : Bool} {levels : Nat}
    (hx : x.readable limits tagged levels = true) {d : Declaration} (h : ofItem x = .ok d) :
    d.Writable limits (levels - 1) := by
  obtain ⟨⟨name, node⟩, hrecord, h⟩ := bind_eq_ok.mp h
  obtain ⟨value, hvalue, h⟩ := bind_eq_ok.mp h
  obtain rfl := Except.ok.inj h
  rw [mapError_eq_ok] at hvalue
  -- the node is the one of the field that was taken, or there was none
  have hfields : (utf8 name).length < UInt64.size ∧ (node.kind ≠ 0 →
      ∃ v, v.readable limits false (levels - 1) = true ∧ Node.ofItem? v = some node) := by
    refine readRecord_invariant (P := fun s : String × Node => (utf8 s.1).length < UInt64.size ∧
      (s.2.kind ≠ 0 → ∃ v, v.readable limits false (levels - 1) = true ∧
        Node.ofItem? v = some s.2)) hx ?_ ⟨by decide, fun hne => absurd rfl hne⟩ hrecord
    intro n v s s' _ hv htaken hs
    unfold assign at htaken
    split at htaken
    · obtain ⟨name', hname, rfl⟩ := map_eq_ok.mp (Option.some.inj htaken)
      exact ⟨Item.length_toText? hv (orRefuse_eq_ok.mp hname), hs.2⟩
    · obtain ⟨node', hnode, rfl⟩ := map_eq_ok.mp (Option.some.inj htaken)
      exact ⟨hs.1, fun _ => ⟨v, hv, orRefuse_eq_ok.mp hnode⟩⟩
    · cases htaken
  obtain ⟨hname, hnode⟩ := hfields
  obtain ⟨v, hv, hnode⟩ := hnode (Node.yields hvalue).kind
  exact ⟨hname, Term.writable_of_toTerm hlow hhigh hv hnode hvalue⟩

/-- The declarations of a list are two levels further down. -/
theorem writable_of_listOfItem {x : Item} {tagged : Bool} {levels : Nat}
    (hx : x.readable limits tagged levels = true) {ds : List Declaration}
    (h : listOfItem x = .ok (some ds)) :
    ds.length ≤ limits.elements ∧ ∀ d ∈ ds, d.Writable limits (levels - 2) := by
  obtain ⟨items, hitems, h⟩ := bind_eq_ok.mp h
  rw [orRefuse_eq_ok] at hitems
  cases items with
  | none => cases h
  | some items =>
    obtain ⟨hcount, -, hreadable⟩ := Item.readable_toList? hx hitems
    obtain ⟨ds', hds, h⟩ := bind_eq_ok.mp h
    obtain rfl := Option.some.inj (Except.ok.inj h)
    have hall := mapM_eq_ok.mp hds
    refine ⟨hall.length_eq ▸ hcount, fun d hd => ?_⟩
    obtain ⟨y, hy, hd⟩ := exists_of_mem_right hall hd
    exact writable_of_ofItem hlow hhigh (hreadable y hy) hd

end

/-- What can be written is written within the bounds, and read back. -/
theorem Writable.exists_toItem {limits : Limits} (hlow : 2 ≤ limits.elements) {d : Declaration}
    {levels : Nat} (h : d.Writable limits levels) :
    ∃ x, d.toItem = .ok x ∧ x.readable limits false (levels + 1) = true ∧ ofItem x = .ok d := by
  obtain ⟨n, hn, hreadable, hterm⟩ := h.value
  refine ⟨.map [entry 1 (.text d.name), entry 2 n.toItem], ?_, ?_, ?_⟩
  · unfold toItem
    split
    next habsent =>
      rw [habsent] at hn
      cases hn
    next => rw [hn]
  · have hsize : 2 < UInt64.size := by decide
    simp [Item.readable, Item.readableEntries, entry, hlow, hsize, h.name, hreadable]
  · have hread : readRecord WireError.refused assign ("", {})
        (.map [entry 1 (.text d.name), entry 2 n.toItem]) = .ok (d.name, n) := by
      simp [readRecord, Item.toEntries?, Item.untag, readFields, entry, Key.ofItem, assign,
        orRefuse, Except.map, Node.ofItem?_toItem_self]
    rw [ofItem, hread]
    show (n.toTerm.mapError (WireError.malformed d.name) >>= fun value =>
      Except.ok (Declaration.mk d.name value)) = .ok d
    rw [hterm]
    rfl

end Declaration

/-! ## Batches -/

namespace Batch

/-- A list that was never made is fine; of one that was made, the declarations can be written. -/
def Writable (ds : Option (List Declaration)) : Prop :=
  ∀ l ∈ ds, l.length ≤ 131072 ∧ ∀ d ∈ l, d.Writable .standard 29

theorem writable_of_decode {bs : Bytes} (hbs : bs.length < UInt64.size)
    {ds : Option (List Declaration)} (h : decode bs = .ok ds) : Writable ds := by
  obtain ⟨x, hx, h⟩ := bind_eq_ok.mp h
  obtain ⟨raw, hraw, h⟩ := bind_eq_ok.mp h
  rw [orRefuse_eq_ok] at hx
  rw [mapError_eq_ok] at hraw
  have hreadable : x.readable .standard false 32 = true :=
    readable_of_decodeWithin (by decide) hbs hx
  have hdecls : Writable raw.decls := by
    refine readRecord_invariant (P := fun s : Raw => Writable s.decls) hreadable ?_
      (fun l hl => by cases hl) hraw
    intro n v s s' _ hv htaken hs
    unfold assign at htaken
    split at htaken
    · obtain ⟨version, -, rfl⟩ := map_eq_ok.mp (Option.some.inj htaken)
      exact hs
    · obtain ⟨decls, hdecls, rfl⟩ := map_eq_ok.mp (Option.some.inj htaken)
      rintro l rfl
      exact Declaration.writable_of_listOfItem (by decide) (by decide) hv hdecls
    · cases htaken
  dsimp only at h
  split at h
  · cases h
  · obtain rfl := Except.ok.inj h
    exact hdecls

/-- The declarations of a batch that can be written are written within the bounds, and read back. -/
theorem Writable.exists_listToItem {ds : Option (List Declaration)} (h : Writable ds) :
    ∃ x, Declaration.listToItem ds = .ok x ∧ x.readable .standard false 31 = true ∧
      Declaration.listOfItem x = .ok ds := by
  cases ds with
  | none => exact ⟨.null, rfl, by decide, rfl⟩
  | some l =>
    obtain ⟨hcount, hall⟩ := h l rfl
    obtain ⟨xs, hxs⟩ := exists_forall₂ fun d hd => (hall d hd).exists_toItem (by decide)
    refine ⟨.array xs, ?_, ?_, ?_⟩
    · rw [Declaration.listToItem, mapM_eq_ok.mpr (hxs.imp fun _ _ hx => hx.1)]
      rfl
    · refine Item.readable_array (by decide) (hxs.length_eq ▸ hcount) fun x hx => ?_
      obtain ⟨d, -, -, hreadable, -⟩ := exists_of_mem_right hxs hx
      exact hreadable
    · have hback : xs.mapM Declaration.ofItem = .ok l :=
        mapM_eq_ok.mpr (hxs.imp fun _ _ hx => hx.2.2).flip
      show (xs.mapM Declaration.ofItem >>= fun ds => Except.ok (some ds)) = .ok (some l)
      rw [hback]
      rfl

/-- What can be written is written, and read back from what was written. -/
theorem Writable.exists_encode {ds : Option (List Declaration)} (h : Writable ds) :
    ∃ bytes, encode ds = .ok bytes ∧ decode bytes = .ok ds := by
  obtain ⟨x, hx, hreadable, hback⟩ := h.exists_listToItem
  refine ⟨(Item.map [entry 1 (.uint version.toUInt64), entry 2 x]).encode, ?_, ?_⟩
  · rw [encode, hx]
    rfl
  · have hmap : (Item.map [entry 1 (.uint version.toUInt64), entry 2 x]).readable .standard false 32
        = true := by
      have hsize : 2 < UInt64.size := by decide
      have htwo : 2 ≤ Limits.standard.elements := by decide
      simp [Item.readable, Item.readableEntries, entry, hsize, htwo, hreadable]
    have hraw : readRecord Declaration.WireError.refused assign {}
        (Item.map [entry 1 (.uint version.toUInt64), entry 2 x]) = .ok ⟨version, ds⟩ := by
      simp [readRecord, Item.toEntries?, Item.untag, readFields, entry, Key.ofItem, assign,
        orRefuse, Except.map, hback]
    rw [decode, Cbor.decode?_encode hmap]
    show ((readRecord Declaration.WireError.refused assign {} _).mapError
      WireError.declaration >>= _) = _
    rw [hraw]
    rfl

/-- Reading a batch and writing it is a normal form of its bytes.  Whatever was read can be written;
    what was written is read as the same batch; and two inputs come to the same bytes exactly when
    they were read as the same batch. -/
theorem reencode_of_decode {bs : Bytes} (hbs : bs.length < UInt64.size)
    {ds : Option (List Declaration)} (h : decode bs = .ok ds) :
    ∃ bytes, encode ds = .ok bytes ∧ decode bytes = .ok ds ∧
      ∀ bs' ds', bs'.length < UInt64.size → decode bs' = .ok ds' →
        (encode ds' = .ok bytes ↔ ds' = ds) := by
  obtain ⟨bytes, hencode, hdecode⟩ := (writable_of_decode hbs h).exists_encode
  refine ⟨bytes, hencode, hdecode, fun bs' ds' hbs' h' => ⟨fun hsame => ?_, ?_⟩⟩
  · obtain ⟨bytes', hencode', hdecode'⟩ := (writable_of_decode hbs' h').exists_encode
    obtain rfl := Except.ok.inj (hencode'.symm.trans hsame)
    exact Except.ok.inj (hdecode'.symm.trans hdecode)
  · rintro rfl
    exact hencode

/-- One declaration in a spelling of its own: lengths without an end, a key as a text, a key that
    selects nothing, a head that is longer than need be, a tag, a field given twice, and a literal with
    a sign. -/
def spelling : Bytes :=
  [0xbf, 0x61, 0x31, 0x01, 0x18, 0x63, 0xf6, 0x18, 0x02, 0xd8, 0x2a, 0x9f, 0xa2, 0x01, 0x61, 0x61,
   0x02, 0xa4, 0x01, 0x0a, 0x01, 0x05, 0x07, 0x01, 0x08, 0x62, 0x2b, 0x35, 0xff, 0xff]

theorem spelling_reencoded :
    spelling.length < UInt64.size ∧ decode spelling = .ok (some [⟨"a", .nat 5⟩]) ∧
      ∃ bytes, encode (some [⟨"a", .nat 5⟩]) = .ok bytes ∧ bytes.length = 18 ∧
        decode bytes = .ok (some [⟨"a", .nat 5⟩]) := by
  have hdecode : decode spelling = .ok (some [⟨"a", .nat 5⟩]) := rfl
  obtain ⟨bytes, hencode, hback, -⟩ := reencode_of_decode (by decide) hdecode
  have hlength : (encode (some [⟨"a", .nat 5⟩])).toOption.map List.length = some 18 := rfl
  refine ⟨by decide, hdecode, bytes, hencode, ?_, hback⟩
  rw [hencode] at hlength
  exact Option.some.inj hlength

end Batch

end TermVM
