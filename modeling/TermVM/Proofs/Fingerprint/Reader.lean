/-
  TermVM.Proofs.Fingerprint.Reader

  The serialization of terms can be read back.

  `readTerm` reads what serialization writes, whatever bytes follow, and gives
  the term without the names that serialization leaves out.  So the bytes of a
  term determine it up to those names, and no serialization is a proper prefix
  of another: `withoutNames_eq_of_append_eq`.

  Lengths are written as 32-bit words and wrap.  `fits` says that none of the
  lengths in the bytes of a term does.
-/
import TermVM.Fingerprint
import TermVM.Proofs.Codec
import TermVM.Proofs.Term.Normal

namespace TermVM

namespace Fingerprint

/-! ## Readers -/

/-- A reader takes a value off the front of bytes, or finds none there. -/
abbrev Reader := StateT Bytes Option

/-- A reader reads bytes as a value, whatever follows them. -/
def Reads {α : Type} (r : Reader α) (bs : Bytes) (a : α) : Prop :=
  ∀ rest, r (bs ++ rest) = some (a, rest)

namespace Reads

variable {α β : Type}

theorem pure (a : α) : Reads (Pure.pure a) [] a :=
  fun _ => rfl

theorem bind {r : Reader α} {f : α → Reader β} {bs cs : Bytes} {a : α} {b : β}
    (hr : Reads r bs a) (hf : Reads (f a) cs b) : Reads (r >>= f) (bs ++ cs) b := by
  intro rest
  rw [List.append_assoc]
  show (r (bs ++ (cs ++ rest))).bind (fun p => f p.1 p.2) = some (b, rest)
  rw [hr]
  exact hf rest

/-- What follows a reader may read nothing. -/
theorem andThen {r : Reader α} {f : α → Reader β} {bs : Bytes} {a : α} {b : β}
    (hr : Reads r bs a) (hf : Reads (f a) [] b) : Reads (r >>= f) bs b := by
  have hbind := hr.bind hf
  rwa [List.append_nil] at hbind

theorem map {r : Reader α} {bs : Bytes} {a : α} (h : Reads r bs a) (f : α → β) :
    Reads (do return f (← r)) bs (f a) :=
  h.andThen (Reads.pure (f a))

/-- A value that is there without reading. -/
theorem lift {x : Option α} {a : α} (h : x = some a) : Reads (StateT.lift x) [] a := by
  intro rest
  rw [h]
  rfl

/-- Bytes that a reader reads determine what it reads and what follows. -/
theorem unique {r : Reader α} {bs cs rest rest' : Bytes} {a b : α} (hbs : Reads r bs a)
    (hcs : Reads r cs b) (h : bs ++ rest = cs ++ rest') : a = b ∧ rest = rest' := by
  have hread : some (a, rest) = some (b, rest') := by rw [← hbs rest, ← hcs rest', h]
  simpa using hread

end Reads

/-- Reads one byte. -/
def readByte : Reader UInt8
  | [] => none
  | b :: bs => some (b, bs)

/-- Reads a number of bytes. -/
def readBytes (n : Nat) : Reader Bytes :=
  Cbor.takeBytes n

/-- Reads a number of the given width. -/
def readNat (width : Nat) : Reader Nat := do
  return Cbor.ofBigEndian (← readBytes width)

/-- Reads a 32-bit word. -/
def readWord : Reader UInt32 := do
  return UInt32.ofNat (← readNat 4)

/-- Reads a text behind its length. -/
def readText : Reader String := do
  let n ← readWord
  let bs ← readBytes n.toNat
  StateT.lift (ofUtf8? bs)

/-- Reads a given number of values. -/
def readMany {α : Type} (r : Reader α) : Nat → Reader (List α)
  | 0 => return []
  | n + 1 => do
      let a ← r
      let as ← readMany r n
      return a :: as

theorem reads_byte (b : UInt8) : Reads readByte [b] b :=
  fun _ => rfl

theorem reads_bytes (bs : Bytes) : Reads (readBytes bs.length) bs bs := by
  intro rest
  simp [readBytes, Cbor.takeBytes]

theorem reads_nat {width n : Nat} (h : n < 256 ^ width) :
    Reads (readNat width) (bigEndian width n) n := by
  have hbytes := (reads_bytes (bigEndian width n)).map Cbor.ofBigEndian
  rwa [length_bigEndian, Cbor.ofBigEndian_bigEndian h] at hbytes

theorem reads_word (n : UInt32) : Reads readWord (word n) n := by
  have hnat := (@reads_nat 4 n.toNat n.toNat_lt).map UInt32.ofNat
  rwa [UInt32.ofNat_toNat] at hnat

/-- Whether a length is written without wrapping. -/
def short (n : Nat) : Bool :=
  n < 2 ^ 32

theorem toNat_count {n : Nat} (h : short n = true) : (UInt32.ofNat n).toNat = n :=
  UInt32.toNat_ofNat_of_lt' (of_decide_eq_true h)

theorem reads_text {s : String} (h : short (utf8 s).length = true) :
    Reads readText (text s) s := by
  refine (reads_word _).bind ?_
  rw [toNat_count h]
  exact (reads_bytes (utf8 s)).andThen (Reads.lift (ofUtf8?_utf8 s))

/-! ## Terms -/

/-- Reads the name of a binder, which stands only inside quotations. -/
def readBinder (quoted : Bool) : Reader String :=
  if quoted then readText else return ""

/-- Reads what follows a tag, with a reader for the terms in it. -/
def readNode (term : Bool → Reader Term) (quoted : Bool) (tag : UInt8) : Reader Term :=
  match tag.toNat with
  | 0x01 => do return .var (← readWord)
  | 0x02 => do return .sort (← readText)
  | 0x03 => do return .mvar (← readText)
  | 0x04 => do
      let name ← readText
      let kind ← readByte
      let index ← readWord
      return .const name ⟨.ofByte kind, index⟩
  | 0x05 => do return .fvar (UInt64.ofNat (← readNat 8)) ""
  | 0x10 => do
      let n ← readWord
      let fn ← term quoted
      let args ← readMany (term quoted) n.toNat
      return .app fn args
  | 0x11 | 0x14 => do
      let name ← readBinder quoted
      let body ← term quoted
      return .lam name body
  | 0x12 | 0x15 => do
      let name ← readBinder quoted
      let domain ← term quoted
      let body ← term quoted
      return .pi name domain body
  | 0x13 | 0x16 => do
      let n ← readWord
      let bindings ← readMany (do
        let name ← readBinder quoted
        let value ← term quoted
        return (name, value)) n.toNat
      let body ← term quoted
      return .letIn bindings body
  | 0x20 => do
      let numeral ← readText
      let value ← StateT.lift (Text.readInt? numeral.toList)
      return .nat value
  | 0x21 => do return .quote (← term true)
  | 0x22 => do
      let name ← readText
      let body ← term quoted
      return .ann name body
  | 0x23 => do
      let name ← readText
      let n ← readWord
      let args ← readMany (term quoted) n.toNat
      return .foreign name args
  | _ => StateT.lift none

/-- Reads a term of at most `fuel` levels. -/
def readTerm : (fuel : Nat) → (quoted : Bool) → Reader Term
  | 0, _ => StateT.lift none
  | fuel + 1, quoted => do
      let tag ← readByte
      readNode (readTerm fuel) quoted tag

mutual

/-- Whether no length in the bytes of a flattened term wraps. -/
def fits (quoted : Bool) : Term → Bool
  | .sort level => short (utf8 level).length
  | .mvar name => short (utf8 name).length
  | .const name _ => short (utf8 name).length
  | .app fn args => short args.length && fits quoted fn && fitsArgs quoted args
  | .lam name body => (!quoted || short (utf8 name).length) && fits quoted body
  | .pi name domain body =>
      (!quoted || short (utf8 name).length) && fits quoted domain && fits quoted body
  | .letIn bindings body =>
      short bindings.length && fitsBindings quoted bindings && fits quoted body
  | .nat value => short (utf8 (Text.decimal value)).length
  | .quote body => fits true body
  | .ann name body => short (utf8 name).length && fits quoted body
  | .foreign name args => short (utf8 name).length && short args.length && fitsArgs quoted args
  | _ => true

/-- Whether no length in the bytes of a list of terms wraps. -/
def fitsArgs (quoted : Bool) : List Term → Bool
  | [] => true
  | a :: as => fits quoted a && fitsArgs quoted as

/-- Whether no length in the bytes of bindings wraps. -/
def fitsBindings (quoted : Bool) : List (String × Term) → Bool
  | [] => true
  | (name, v) :: bs =>
      (!quoted || short (utf8 name).length) && fits quoted v && fitsBindings quoted bs

end

theorem reads_binder {quoted : Bool} {name : String}
    (h : (!quoted || short (utf8 name).length) = true) :
    Reads (readBinder quoted) (binder quoted name) (if quoted then name else "") := by
  cases quoted with
  | false => exact Reads.pure ""
  | true => exact reads_text (by simpa using h)

/-- With enough fuel, a term is read back from its bytes without the names they leave out. -/
def TermReads (t : Term) : Prop :=
  ∀ quoted bs fuel, fits quoted t = true → flatBytes? quoted t = some bs → t.nodes ≤ fuel →
    Reads (readTerm fuel quoted) bs (t.withoutNames quoted)

/-- A term is read back when what follows its tag is. -/
theorem TermReads.of_node {t : Term}
    (h : ∀ quoted bs fuel, fits quoted t = true → flatBytes? quoted t = some bs →
      t.nodes ≤ fuel + 1 → ∃ tag rest, bs = tag :: rest ∧
        Reads (readNode (readTerm fuel) quoted tag) rest (t.withoutNames quoted)) :
    TermReads t := by
  intro quoted bs fuel hfits hbs hfuel
  have hpos := t.nodes_pos
  obtain ⟨fuel, rfl⟩ : ∃ k, fuel = k + 1 := ⟨fuel - 1, by omega⟩
  obtain ⟨tag, rest, rfl, hrest⟩ := h quoted bs fuel hfits hbs hfuel
  exact (reads_byte tag).bind hrest

theorem reads_args {as : List Term} (h : ∀ a ∈ as, TermReads a) {quoted : Bool} {bs : Bytes}
    {fuel : Nat} (hfits : fitsArgs quoted as = true) (hbs : flatBytesOfArgs? quoted as = some bs)
    (hfuel : Term.nodesOfArgs as ≤ fuel) :
    Reads (readMany (readTerm fuel quoted) as.length) bs (Term.withoutNamesInArgs quoted as) := by
  induction as generalizing bs with
  | nil =>
    cases hbs
    exact Reads.pure []
  | cons a as ih =>
    rw [List.forall_mem_cons] at h
    simp only [fitsArgs, Bool.and_eq_true] at hfits
    simp only [Term.nodesOfArgs] at hfuel
    obtain ⟨b, hb, cs, hcs, rfl⟩ : ∃ b, flatBytes? quoted a = some b ∧
        ∃ cs, flatBytesOfArgs? quoted as = some cs ∧ b ++ cs = bs := by
      simpa [flatBytesOfArgs?, Option.bind_eq_some_iff] using hbs
    have hfirst := h.1 quoted b fuel hfits.1 hb (by omega)
    have hmore := ih h.2 hfits.2 hcs (by omega)
    exact hfirst.bind (hmore.map _)

theorem reads_bindings {bindings : List (String × Term)} (h : ∀ b ∈ bindings, TermReads b.2)
    {quoted : Bool} {bs : Bytes} {fuel : Nat} (hfits : fitsBindings quoted bindings = true)
    (hbs : flatBytesOfBindings? quoted bindings = some bs)
    (hfuel : Term.nodesOfBindings bindings ≤ fuel) :
    Reads (readMany (do
        let name ← readBinder quoted
        let value ← readTerm fuel quoted
        return (name, value)) bindings.length) bs
      (Term.withoutNamesInBindings quoted bindings) := by
  induction bindings generalizing bs with
  | nil =>
    cases hbs
    exact Reads.pure []
  | cons binding bindings ih =>
    obtain ⟨name, v⟩ := binding
    rw [List.forall_mem_cons] at h
    simp only [fitsBindings, Bool.and_eq_true] at hfits
    simp only [Term.nodesOfBindings] at hfuel
    obtain ⟨b, hb, cs, hcs, rfl⟩ : ∃ b, flatBytes? quoted v = some b ∧
        ∃ cs, flatBytesOfBindings? quoted bindings = some cs ∧
          binder quoted name ++ (b ++ cs) = bs := by
      simpa [flatBytesOfBindings?, Option.bind_eq_some_iff] using hbs
    have hvalue := h.1 quoted b fuel hfits.1.2 hb (show v.nodes ≤ fuel by omega)
    have hmore := ih h.2 hfits.2 hcs (by omega)
    rw [← List.append_assoc]
    exact ((reads_binder hfits.1.1).bind (hvalue.map _)).bind (hmore.map _)

theorem reads_term (t : Term) : TermReads t := by
  induction t using Term.ind with
  | absent => rintro quoted bs fuel - ⟨⟩
  | var i =>
    refine .of_node ?_
    rintro quoted bs fuel - ⟨⟩ -
    exact ⟨_, _, rfl, (reads_word i).map _⟩
  | sort level =>
    refine .of_node ?_
    rintro quoted bs fuel hfits ⟨⟩ -
    exact ⟨_, _, rfl, (reads_text hfits).map _⟩
  | mvar name =>
    refine .of_node ?_
    rintro quoted bs fuel hfits ⟨⟩ -
    exact ⟨_, _, rfl, (reads_text hfits).map _⟩
  | const name marker =>
    refine .of_node ?_
    rintro quoted bs fuel hfits ⟨⟩ -
    have hmarker : Reads (do
        let kind ← readByte
        let index ← readWord
        return Term.const name ⟨.ofByte kind, index⟩) (marker.kind.toByte :: word marker.index)
        (.const name ⟨.ofByte marker.kind.toByte, marker.index⟩) :=
      (reads_byte _).bind ((reads_word _).map _)
    rw [MarkerKind.ofByte_toByte] at hmarker
    exact ⟨_, _, rfl, (reads_text hfits).bind hmarker⟩
  | fvar id name =>
    refine .of_node ?_
    rintro quoted bs fuel - ⟨⟩ -
    have hid := (@reads_nat 8 id.toNat id.toNat_lt).map fun n => Term.fvar (UInt64.ofNat n) ""
    rw [UInt64.ofNat_toNat] at hid
    exact ⟨_, _, rfl, hid⟩
  | app fn args ihfn ihargs =>
    refine .of_node fun quoted bs fuel hfits hbs hfuel => ?_
    simp only [fits, Bool.and_eq_true] at hfits
    simp only [Term.nodes] at hfuel
    obtain ⟨f, hf, as, has, rfl⟩ : ∃ f, flatBytes? quoted fn = some f ∧
        ∃ as, flatBytesOfArgs? quoted args = some as ∧
          0x10 :: (count args.length ++ (f ++ as)) = bs := by
      simpa [flatBytes?, Option.bind_eq_some_iff] using hbs
    have hfn := ihfn quoted f fuel hfits.1.2 hf (by omega)
    have hargs := reads_args ihargs hfits.2 has (show Term.nodesOfArgs args ≤ fuel by omega)
    rw [← toNat_count hfits.1.1] at hargs
    exact ⟨_, _, rfl, (reads_word _).bind (hfn.bind (hargs.map _))⟩
  | lam name body ih =>
    refine .of_node fun quoted bs fuel hfits hbs hfuel => ?_
    simp only [fits, Bool.and_eq_true] at hfits
    simp only [Term.nodes] at hfuel
    obtain ⟨b, hb, rfl⟩ : ∃ b, flatBytes? quoted body = some b ∧
        (if quoted then 0x14 else 0x11) :: (binder quoted name ++ b) = bs := by
      simpa [flatBytes?, Option.bind_eq_some_iff] using hbs
    have hbody := ih quoted b fuel hfits.2 hb (by omega)
    have hbinder := reads_binder hfits.1
    exact ⟨_, _, rfl, by cases quoted <;> exact hbinder.bind (hbody.map _)⟩
  | pi name domain body ihdomain ihbody =>
    refine .of_node fun quoted bs fuel hfits hbs hfuel => ?_
    simp only [fits, Bool.and_eq_true] at hfits
    simp only [Term.nodes] at hfuel
    obtain ⟨d, hd, b, hb, rfl⟩ : ∃ d, flatBytes? quoted domain = some d ∧
        ∃ b, flatBytes? quoted body = some b ∧
          (if quoted then 0x15 else 0x12) :: (binder quoted name ++ (d ++ b)) = bs := by
      simpa [flatBytes?, Option.bind_eq_some_iff] using hbs
    have hdomain := ihdomain quoted d fuel hfits.1.2 hd (by omega)
    have hbody := ihbody quoted b fuel hfits.2 hb (by omega)
    have hbinder := reads_binder hfits.1.1
    exact ⟨_, _, rfl, by cases quoted <;> exact hbinder.bind (hdomain.bind (hbody.map _))⟩
  | letIn bindings body ihbindings ihbody =>
    refine .of_node fun quoted bs fuel hfits hbs hfuel => ?_
    simp only [fits, Bool.and_eq_true] at hfits
    simp only [Term.nodes] at hfuel
    obtain ⟨vs, hvs, b, hb, rfl⟩ : ∃ vs, flatBytesOfBindings? quoted bindings = some vs ∧
        ∃ b, flatBytes? quoted body = some b ∧
          (if quoted then 0x16 else 0x13) :: (count bindings.length ++ (vs ++ b)) = bs := by
      simpa [flatBytes?, Option.bind_eq_some_iff] using hbs
    have hbindings := reads_bindings ihbindings hfits.1.2 hvs
      (show Term.nodesOfBindings bindings ≤ fuel by omega)
    rw [← toNat_count hfits.1.1] at hbindings
    have hbody := ihbody quoted b fuel hfits.2 hb (by omega)
    exact ⟨_, _, rfl, by
      cases quoted <;> exact (reads_word _).bind (hbindings.bind (hbody.map _))⟩
  | nat value =>
    refine .of_node ?_
    rintro quoted bs fuel hfits ⟨⟩ -
    have hvalue := Reads.lift (Text.readInt?_decimal value)
    exact ⟨_, _, rfl, (reads_text hfits).andThen (hvalue.map _)⟩
  | quote body ih =>
    refine .of_node fun quoted bs fuel hfits hbs hfuel => ?_
    simp only [Term.nodes] at hfuel
    obtain ⟨b, hb, rfl⟩ : ∃ b, flatBytes? true body = some b ∧ 0x21 :: b = bs := by
      simpa [flatBytes?, Option.bind_eq_some_iff] using hbs
    exact ⟨_, _, rfl, (ih true b fuel hfits hb (by omega)).map _⟩
  | ann name body ih =>
    refine .of_node fun quoted bs fuel hfits hbs hfuel => ?_
    simp only [fits, Bool.and_eq_true] at hfits
    simp only [Term.nodes] at hfuel
    obtain ⟨b, hb, rfl⟩ : ∃ b, flatBytes? quoted body = some b ∧ 0x22 :: (text name ++ b) = bs := by
      simpa [flatBytes?, Option.bind_eq_some_iff] using hbs
    have hbody := ih quoted b fuel hfits.2 hb (by omega)
    exact ⟨_, _, rfl, (reads_text hfits.1).bind (hbody.map _)⟩
  | foreign name args ih =>
    refine .of_node fun quoted bs fuel hfits hbs hfuel => ?_
    simp only [fits, Bool.and_eq_true] at hfits
    simp only [Term.nodes] at hfuel
    obtain ⟨as, has, rfl⟩ : ∃ as, flatBytesOfArgs? quoted args = some as ∧
        0x23 :: (text name ++ (count args.length ++ as)) = bs := by
      simpa [flatBytes?, Option.bind_eq_some_iff] using hbs
    have hargs := reads_args ih hfits.2 has (show Term.nodesOfArgs args ≤ fuel by omega)
    rw [← toNat_count hfits.1.2] at hargs
    exact ⟨_, _, rfl, (reads_text hfits.1.1).bind ((reads_word _).bind (hargs.map _))⟩

/-- The bytes of a term determine it without the names they leave out, and where they end. -/
theorem withoutNames_eq_of_append_eq {quoted : Bool} {s t : Term} {bs cs rest rest' : Bytes}
    (hs : fits quoted s = true) (ht : fits quoted t = true) (hbs : flatBytes? quoted s = some bs)
    (hcs : flatBytes? quoted t = some cs) (h : bs ++ rest = cs ++ rest') :
    s.withoutNames quoted = t.withoutNames quoted ∧ rest = rest' :=
  -- one amount of fuel that is enough for both terms
  (reads_term s quoted bs (s.nodes + t.nodes) hs hbs (Nat.le_add_right ..)).unique
    (reads_term t quoted cs (s.nodes + t.nodes) ht hcs (Nat.le_add_left ..)) h

end Fingerprint

end TermVM
