/-
  TermVM.Proofs.Service.Message

  Messages of the compile service are read back.

  A batch stands in a request as deep as in a file of its own, and compiled
  procedures stand in a response one level deeper than in a file.  A number in
  a response has to fit into 63 bits.
-/
import TermVM.Proofs.Batch.Reencoding
import TermVM.Proofs.Code.Wire
import TermVM.Service.Message

namespace TermVM.Service

open Cbor Result

theorem toUInt?_natItem {n bound : Nat} (hn : n < bound) (hbound : bound ≤ UInt64.size) :
    (natItem n).toUInt? bound = some n := by
  have hsize : n < UInt64.size := by omega
  have hback : (UInt64.ofNat n).toNat = n := UInt64.toNat_ofNat_of_lt hsize
  simp [natItem, Item.toUInt?, Item.untag, hback, hn]

/-- A request with a batch that was read is read as that batch. -/
theorem readCompileRequest_of_writable {batch : List Declaration}
    (h : Batch.Writable (some batch)) :
    ∃ bytes, compileRequest (some batch) = .ok bytes ∧ readCompileRequest bytes = .ok batch := by
  obtain ⟨x, hx, hreadable, hback⟩ := h.exists_listToItem
  refine ⟨(Item.map [entry 1 x]).encode, ?_, ?_⟩
  · rw [compileRequest, hx]
    rfl
  · have hmap : (Item.map [entry 1 x]).readable .standard false 32 = true := by
      have hsize : 1 < UInt64.size := by decide
      have hone : 1 ≤ Limits.standard.elements := by decide
      simp [Item.readable, Item.readableEntries, entry, hsize, hone, hreadable]
    rw [readCompileRequest, Cbor.decode?_encode hmap]
    simp [orRefuse, readRecord, Item.toEntries?, Item.untag, readFields, entry, Key.ofItem, hback]

/-- A request about a name is read as that name. -/
theorem readNameRequest?_nameRequest {name : String} (h : (utf8 name).length < UInt64.size) :
    readNameRequest? (nameRequest name) = some name := by
  have hmap : (Item.map [entry 1 (.text name)]).readable .standard false 32 = true := by
    have hsize : 1 < UInt64.size := by decide
    have hone : 1 ≤ Limits.standard.elements := by decide
    simp [Item.readable, Item.readableEntries, entry, hsize, hone, h]
  rw [readNameRequest?, nameRequest, Cbor.decode?_encode hmap]
  simp [orRefuse, readRecord, Item.toEntries?, Item.untag, readFields, entry, Key.ofItem,
    Except.toOption]

/-- A response with procedures that can be written one level further down is read as what it was
    made of. -/
theorem readCompiledResponse_of_writable {c : Compiled} (hcount : c.procedures.length ≤ 131072)
    (hprocedures : ∀ p ∈ c.procedures, p.Writable .standard 27) (hhits : c.hits < 2 ^ 63)
    (hsize : c.tableSize < 2 ^ 63) :
    ∃ bytes, compiledResponse? c = some bytes ∧ readCompiledResponse bytes = .ok c := by
  have hcount : c.procedures.length ≤ Limits.standard.elements := hcount
  obtain ⟨x, hx, hreadable, hback⟩ := Procedure.exists_listToItem? (by decide) (by decide)
    (by decide) hcount hprocedures
  have hfields (n : Nat) (hn : n < 2 ^ 63) : (natItem n).toUInt? (Nat.pow 2 63) = some n :=
    toUInt?_natItem hn (by decide)
  refine ⟨(Item.map <| [entry 1 x] ++ entryIf (c.hits ≠ 0) 2 (natItem c.hits)
    ++ [entry 3 (natItem c.tableSize)]).encode, ?_, ?_⟩
  · rw [compiledResponse?, hx]
    rfl
  · have htwo : 2 < UInt64.size ∧ 2 ≤ Limits.standard.elements := by decide
    have hthree : 3 < UInt64.size ∧ 3 ≤ Limits.standard.elements := by decide
    obtain ⟨procedures, hits, tableSize⟩ := c
    by_cases hzero : hits = 0
    · -- a response without hits leaves their number out
      subst hzero
      have hmap : (Item.map [entry 1 x, entry 3 (natItem tableSize)]).readable .standard false 32
          = true := by
        simp [Item.readable, Item.readableEntries, entry, natItem, htwo, hreadable]
      show readCompiledResponse (Item.map [entry 1 x, entry 3 (natItem tableSize)]).encode = _
      rw [readCompiledResponse, Cbor.decode?_encode hmap]
      simp [orRefuse, readRecord, Item.toEntries?, Item.untag, readFields, entry, Key.ofItem,
        Compiled.assign, Except.map, hback, hfields tableSize hsize]
    · have hmap : (Item.map [entry 1 x, entry 2 (natItem hits), entry 3 (natItem tableSize)]).readable
          .standard false 32 = true := by
        simp [Item.readable, Item.readableEntries, entry, natItem, hthree, hreadable]
      have hentries : [entry 1 x] ++ entryIf (hits ≠ 0) 2 (natItem hits)
          ++ [entry 3 (natItem tableSize)]
            = [entry 1 x, entry 2 (natItem hits), entry 3 (natItem tableSize)] := by
        simp [entryIf, hzero]
      rw [hentries, readCompiledResponse, Cbor.decode?_encode hmap]
      simp [orRefuse, readRecord, Item.toEntries?, Item.untag, readFields, entry, Key.ofItem,
        Compiled.assign, Except.map, hback, hfields tableSize hsize, hfields hits hhits]

/-- A response with a listing is read as what it was made of. -/
theorem readListedResponse?_listedResponse {l : Listed} (hname : (utf8 l.name).length < UInt64.size)
    (hlisting : (utf8 l.listing).length < UInt64.size) :
    readListedResponse? (listedResponse l) = some l := by
  have hmap : (Item.map [entry 1 (.text l.name), entry 2 (.uint l.arity.toUInt64),
      entry 3 (.text l.listing)]).readable .standard false 32 = true := by
    have hsize : 3 < UInt64.size := by decide
    have hthree : 3 ≤ Limits.standard.elements := by decide
    simp [Item.readable, Item.readableEntries, entry, hsize, hthree, hname, hlisting]
  rw [readListedResponse?, listedResponse, Cbor.decode?_encode hmap]
  simp [orRefuse, readRecord, Item.toEntries?, Item.untag, readFields, entry, Key.ofItem,
    Listed.assign, Except.map, Except.toOption]

end TermVM.Service
