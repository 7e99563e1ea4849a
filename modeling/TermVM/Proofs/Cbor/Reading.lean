/-
  TermVM.Proofs.Cbor.Reading

  What is read back of an encoded item.

  A reader has bounds: on the nesting, on the elements of a container, and on
  lengths, for which there are 64 bits.  `readable` says whether an item keeps
  to them, and the bytes of an item are read as the item itself if it does and
  are refused if it does not: `decodeWithin_encode`.
-/
import TermVM.Proofs.Codec

namespace TermVM.Cbor

/-! ## Heads -/

/-- The additional information in the shortest head for an argument. -/
def headInfo (n : Nat) : Nat :=
  if n < 24 then n
  else if n < UInt8.size then 24
  else if n < UInt16.size then 25
  else if n < UInt32.size then 26
  else if n < UInt64.size then 27
  else 28

/-- The bytes of an argument behind the first byte of its head. -/
def headTail (n : Nat) : Bytes :=
  if n < 24 then []
  else if n < UInt8.size then bigEndian 1 n
  else if n < UInt16.size then bigEndian 2 n
  else if n < UInt32.size then bigEndian 4 n
  else if n < UInt64.size then bigEndian 8 n
  else []

theorem head_eq (major : UInt8) (n : Nat) :
    head major n = (major * 32 + UInt8.ofNat (headInfo n)) :: headTail n := by
  unfold head headInfo headTail
  repeat' split
  all_goals rfl

/-- The forms of a head: its argument in the first byte, in one to eight bytes behind it, or too
    large for any form. -/
theorem head_cases (n : Nat) :
    (n < 24 ∧ headInfo n = n ∧ headTail n = []) ∨
    (∃ info width, (info, width) ∈ [(24, 1), (25, 2), (26, 4), (27, 8)] ∧ n < 256 ^ width ∧
      n < UInt64.size ∧ 24 ≤ n ∧ (info = 24 ∨ 32 ≤ n) ∧
      headInfo n = info ∧ headTail n = bigEndian width n) ∨
    (UInt64.size ≤ n ∧ headInfo n = 28 ∧ headTail n = []) := by
  have h8 : UInt8.size = 256 := rfl
  have h16 : UInt16.size = 65536 := rfl
  have h32 : UInt32.size = 4294967296 := rfl
  have h64 : UInt64.size = 18446744073709551616 := rfl
  unfold headInfo headTail
  rw [h8, h16, h32, h64]
  by_cases h₀ : n < 24
  · rw [if_pos h₀, if_pos h₀]
    exact .inl ⟨h₀, rfl, rfl⟩
  rw [if_neg h₀, if_neg h₀]
  refine .inr ?_
  by_cases h₁ : n < 256
  · rw [if_pos h₁, if_pos h₁]
    exact .inl ⟨24, 1, by simp, by omega, by omega, by omega, .inl rfl, rfl, rfl⟩
  rw [if_neg h₁, if_neg h₁]
  by_cases h₂ : n < 65536
  · rw [if_pos h₂, if_pos h₂]
    exact .inl ⟨25, 2, by simp, by omega, by omega, by omega, .inr (by omega), rfl, rfl⟩
  rw [if_neg h₂, if_neg h₂]
  by_cases h₃ : n < 4294967296
  · rw [if_pos h₃, if_pos h₃]
    exact .inl ⟨26, 4, by simp, by omega, by omega, by omega, .inr (by omega), rfl, rfl⟩
  rw [if_neg h₃, if_neg h₃]
  by_cases h₄ : n < 18446744073709551616
  · rw [if_pos h₄, if_pos h₄]
    exact .inl ⟨27, 8, by simp, by omega, by omega, by omega, .inr (by omega), rfl, rfl⟩
  · rw [if_neg h₄, if_neg h₄]
    exact .inr ⟨by omega, rfl, rfl⟩

theorem headInfo_lt (n : Nat) : headInfo n < 29 := by
  rcases head_cases n with ⟨hn, hinfo, -⟩ | ⟨info, width, hform, -, -, -, -, hinfo, -⟩ | ⟨-, hinfo, -⟩
  · omega
  · simp only [List.mem_cons, Prod.mk.injEq, List.not_mem_nil, or_false] at hform
    omega
  · omega

/-- The shortest head has a length. -/
theorem headInfo_ne (n : Nat) : headInfo n ≠ 31 := by
  have := headInfo_lt n
  omega

theorem toNat_initial {major : UInt8} (h : major.toNat < 8) {k : Nat} (hk : k < 32) :
    (major * 32 + UInt8.ofNat k).toNat = major.toNat * 32 + k := by
  have hmul : (major * 32).toNat = major.toNat * 32 := by
    rw [UInt8.toNat_mul]
    exact Nat.mod_eq_of_lt (show major.toNat * 32 < 256 by omega)
  have hk' : (UInt8.ofNat k).toNat = k := UInt8.toNat_ofNat_of_lt' (show k < 256 by omega)
  rw [UInt8.toNat_add, hmul, hk']
  exact Nat.mod_eq_of_lt (show major.toNat * 32 + k < 256 by omega)

theorem startsTag_head {major : UInt8} (h : major.toNat < 8) (n : Nat) (rest : Bytes) :
    startsTag (head major n ++ rest) = (major.toNat == 6) := by
  have hinfo := headInfo_lt n
  have hdiv : (major.toNat * 32 + headInfo n) / 32 = major.toNat := by omega
  rw [head_eq, List.cons_append, startsTag, toNat_initial h (by omega), hdiv]

/-- A head is read back, except that there is none for an argument of more than 64 bits, and that a
    simple value may not use a second byte for what the first could not hold. -/
theorem readHead_head {major : UInt8} (h : major.toNat < 8) (n : Nat) (rest : Bytes) :
    readHead (head major n ++ rest) =
      if n < UInt64.size ∧ ¬(major.toNat = 7 ∧ 24 ≤ n ∧ n < 32) then
        some (⟨major.toNat, headInfo n, n⟩, rest)
      else none := by
  have hinfo := headInfo_lt n
  have hdiv : (major.toNat * 32 + headInfo n) / 32 = major.toNat := by omega
  have hmod : (major.toNat * 32 + headInfo n) % 32 = headInfo n := by omega
  rw [head_eq, List.cons_append, readHead, toNat_initial h (by omega), hdiv, hmod]
  rcases head_cases n with ⟨hn, hinfo', htail⟩ |
    ⟨info, width, hform, hwidth, hn, hlow, hhigh, hinfo', htail⟩ | ⟨hn, hinfo', htail⟩
  · have hcond : n < UInt64.size ∧ ¬(major.toNat = 7 ∧ 24 ≤ n ∧ n < 32) :=
      ⟨Nat.lt_trans hn (by decide), by omega⟩
    rw [hinfo', htail, if_pos hn, if_pos hcond]
    rfl
  · rw [hinfo', htail]
    simp only [List.mem_cons, Prod.mk.injEq, List.not_mem_nil, or_false] at hform
    rcases hform with ⟨rfl, rfl⟩ | ⟨rfl, rfl⟩ | ⟨rfl, rfl⟩ | ⟨rfl, rfl⟩
    · dsimp only
      rw [takeBytes_bigEndian]
      show (if major.toNat = 7 ∧ ofBigEndian (bigEndian 1 n) < 32 then none
        else some (Head.mk major.toNat 24 (ofBigEndian (bigEndian 1 n)), rest)) = _
      rw [ofBigEndian_bigEndian hwidth]
      by_cases hsimple : major.toNat = 7 ∧ n < 32
      · rw [if_pos hsimple, if_neg (by omega)]
      · rw [if_neg hsimple, if_pos ⟨hn, by omega⟩]
    all_goals
      have hcond : n < UInt64.size ∧ ¬(major.toNat = 7 ∧ 24 ≤ n ∧ n < 32) := ⟨hn, by omega⟩
      dsimp only
      rw [takeBytes_bigEndian, if_pos hcond]
      show some (Head.mk major.toNat _ (ofBigEndian _), rest) = _
      rw [ofBigEndian_bigEndian hwidth]
  · have hcond : ¬(n < UInt64.size ∧ ¬(major.toNat = 7 ∧ 24 ≤ n ∧ n < 32)) := by omega
    rw [hinfo', if_neg hcond]
    rfl

/-- The head of anything but a simple value. -/
theorem readHead_argument {major : UInt8} (h : major.toNat < 7) (n : Nat) (rest : Bytes) :
    readHead (head major n ++ rest) =
      if n < UInt64.size then some (⟨major.toNat, headInfo n, n⟩, rest) else none := by
  rw [readHead_head (by omega)]
  by_cases hn : n < UInt64.size
  · rw [if_pos hn, if_pos ⟨hn, by omega⟩]
  · rw [if_neg hn, if_neg (fun hcond => hn hcond.1)]

/-! ## Readable items -/

namespace Item

/-- Induction on items: a property holds of an item when it holds of its parts. -/
@[elab_as_elim]
theorem ind {motive : Item → Prop}
    (uint : ∀ n, motive (.uint n))
    (nint : ∀ n, motive (.nint n))
    (bytes : ∀ content, motive (.bytes content))
    (text : ∀ content, motive (.text content))
    (badText : ∀ chunk malformed, motive (.badText chunk malformed))
    (array : ∀ items, (∀ x ∈ items, motive x) → motive (.array items))
    (map : ∀ entries, (∀ e ∈ entries, motive e.1 ∧ motive e.2) → motive (.map entries))
    (tag : ∀ number content, motive content → motive (.tag number content))
    (simple : ∀ n, motive (.simple n))
    (half : ∀ bits, motive (.half bits))
    (single : ∀ bits, motive (.single bits))
    (double : ∀ bits, motive (.double bits))
    (x : Item) : motive x := by
  refine @Item.rec motive (fun xs => ∀ x ∈ xs, motive x)
    (fun es => ∀ e ∈ es, motive e.1 ∧ motive e.2) (fun e => motive e.1 ∧ motive e.2)
    uint nint bytes text badText array map tag simple half single double ?_ ?_ ?_ ?_ ?_ x
  · exact fun x hx => absurd hx List.not_mem_nil
  · exact fun x xs hx hxs => List.forall_mem_cons.mpr ⟨hx, hxs⟩
  · exact fun e he => absurd he List.not_mem_nil
  · exact fun e es he hes => List.forall_mem_cons.mpr ⟨he, hes⟩
  · exact fun k v hk hv => ⟨hk, hv⟩

mutual

/-- Whether an item keeps to the bounds of a reader that allows `levels` more levels.  `tagged` says
    that it is the content of a tag, where another tag takes up a level. -/
def readable (limits : Limits) : Item → (tagged : Bool) → (levels : Nat) → Bool
  | bytes content, _, _ => content.length < UInt64.size
  | text content, _, _ => (utf8 content).length < UInt64.size
  | badText chunk _, _, _ => chunk.length < UInt64.size
  | array items, _, levels =>
      items.length < UInt64.size && items.length ≤ limits.elements
        && 0 < levels && readableItems limits items (levels - 1)
  | map entries, _, levels =>
      entries.length < UInt64.size && entries.length ≤ limits.elements
        && 0 < levels && readableEntries limits entries (levels - 1)
  | tag _ content, tagged, levels =>
      if tagged then 0 < levels && content.readable limits true (levels - 1)
      else content.readable limits true levels
  | simple n, _, _ => n < 24 || 32 ≤ n
  | _, _, _ => true

/-- Whether all items of a list keep to the bounds of a reader. -/
def readableItems (limits : Limits) : List Item → (levels : Nat) → Bool
  | [], _ => true
  | x :: xs, levels => x.readable limits false levels && readableItems limits xs levels

/-- Whether all keys and values keep to the bounds of a reader. -/
def readableEntries (limits : Limits) : List (Item × Item) → (levels : Nat) → Bool
  | [], _ => true
  | (k, v) :: es, levels =>
      k.readable limits false levels && v.readable limits false levels
        && readableEntries limits es levels

end

theorem readableItems_eq_all (limits : Limits) (xs : List Item) (levels : Nat) :
    readableItems limits xs levels = xs.all fun x => x.readable limits false levels := by
  induction xs with
  | nil => rfl
  | cons x xs ih => rw [readableItems, List.all_cons, ih]

/-- Keys and values in turn. -/
def interleave (entries : List (Item × Item)) : List Item :=
  entries.flatMap fun e => [e.1, e.2]

theorem length_interleave (entries : List (Item × Item)) :
    (interleave entries).length = 2 * entries.length := by
  induction entries with
  | nil => rfl
  | cons e es ih =>
    show (interleave es).length + 2 = 2 * (es.length + 1)
    omega

theorem encodeEntries_eq (entries : List (Item × Item)) :
    encodeEntries entries = encodeItems (interleave entries) := by
  induction entries with
  | nil => rfl
  | cons e es ih =>
    rw [encodeEntries, ih]
    rfl

theorem readableEntries_eq_all (limits : Limits) (entries : List (Item × Item)) (levels : Nat) :
    readableEntries limits entries levels
      = (interleave entries).all fun x => x.readable limits false levels := by
  induction entries with
  | nil => rfl
  | cons e es ih =>
    rw [readableEntries, ih, Bool.and_assoc]
    rfl

end Item

theorem pairs_interleave (entries : List (Item × Item)) :
    pairs (Item.interleave entries) = some entries := by
  induction entries with
  | nil => rfl
  | cons e es ih =>
    show (pairs (Item.interleave es) >>= fun more => some ((e.1, e.2) :: more)) = _
    rw [ih]
    rfl

/-! ## Reading -/

/-- What a reader makes of an encoded item: the item, or nothing if it does not keep to the
    bounds. -/
def Answers (reader : Reader Item) (x : Item) (ok : Bool) : Prop :=
  ∀ rest, reader (x.encode ++ rest) = if ok then some (x, rest) else none

section

variable {limits : Limits} {nested : Option (Reader Item)}

theorem readCount_encodeItems {item : Reader Item} {ok : Item → Bool} {xs : List Item}
    (h : ∀ x ∈ xs, Answers item x (ok x)) (done : List Item) (rest : Bytes) :
    readCount item xs.length done (Item.encodeItems xs ++ rest)
      = if xs.all ok then some (done.reverse ++ xs, rest) else none := by
  induction xs generalizing done with
  | nil => simp [readCount, Item.encodeItems]
  | cons x xs ih =>
    obtain ⟨hx, hxs⟩ := List.forall_mem_cons.mp h
    rw [List.length_cons, readCount, Item.encodeItems, List.append_assoc, hx, List.all_cons]
    cases ok x with
    | false => rfl
    | true =>
      show readCount item xs.length (x :: done) (Item.encodeItems xs ++ rest) = _
      rw [ih hxs]
      simp

/-- Containers are read item by item, when there are not too many and another level is allowed. -/
theorem readContents_encodeItems {item : Reader Item} {ok : Item → Bool} {xs : List Item}
    (h : ∀ x ∈ xs, Answers item x (ok x)) {major n : Nat} (most : Nat) (rest : Bytes) :
    readContents item ⟨major, headInfo n, n⟩ xs.length most (Item.encodeItems xs ++ rest)
      = if xs.length ≤ most ∧ xs.all ok = true then some (xs, rest) else none := by
  rw [readContents, if_neg (headInfo_ne n)]
  by_cases hmost : xs.length ≤ most
  · rw [if_pos hmost, readCount_encodeItems h]
    simp [hmost]
  · simp [hmost]

theorem answers_uint (n : UInt64) : Answers (readPlain limits nested) (.uint n) true := by
  intro rest
  show readPlain limits nested (head 0 n.toNat ++ rest) = _
  rw [readPlain, readHead_argument (by decide), if_pos n.toNat_lt_size]
  show some (Item.uint (UInt64.ofNat n.toNat), rest) = some (.uint n, rest)
  rw [UInt64.ofNat_toNat]

theorem answers_nint (n : UInt64) : Answers (readPlain limits nested) (.nint n) true := by
  intro rest
  show readPlain limits nested (head 1 n.toNat ++ rest) = _
  rw [readPlain, readHead_argument (by decide), if_pos n.toNat_lt_size]
  show some (Item.nint (UInt64.ofNat n.toNat), rest) = some (.nint n, rest)
  rw [UInt64.ofNat_toNat]

theorem answers_bytes (bs : Bytes) :
    Answers (readPlain limits nested) (.bytes bs) (bs.length < UInt64.size) := by
  intro rest
  show readPlain limits nested (head 2 bs.length ++ bs ++ rest) = _
  rw [List.append_assoc, readPlain, readHead_argument (by decide)]
  by_cases hn : bs.length < UInt64.size
  · simp only [hn, if_true, decide_true]
    show (if headInfo bs.length = 31 then _ else _) = _
    rw [if_neg (headInfo_ne _)]
    dsimp only
    rw [takeBytes_append]
    show some (Item.bytes [bs].flatten, rest) = some (.bytes bs, rest)
    rw [List.flatten_singleton]
  · simp [hn]

/-- A string that is one chunk is read as the item of the chunk. -/
theorem answers_chunk {x : Item} {bs : Bytes} (hencode : x.encode = head 3 bs.length ++ bs)
    (hitem : textItem [bs] = x) :
    Answers (readPlain limits nested) x (bs.length < UInt64.size) := by
  intro rest
  rw [hencode, List.append_assoc, readPlain, readHead_argument (by decide)]
  by_cases hn : bs.length < UInt64.size
  · simp only [hn, if_true, decide_true]
    show (if headInfo bs.length = 31 then _ else _) = _
    rw [if_neg (headInfo_ne _)]
    dsimp only
    rw [takeBytes_append]
    show some (textItem [bs], rest) = some (x, rest)
    rw [hitem]
  · simp [hn]

theorem answers_text (s : String) :
    Answers (readPlain limits nested) (.text s) ((utf8 s).length < UInt64.size) :=
  answers_chunk rfl (by simp [textItem, Item.ofChunk_of_some (ofUtf8?_utf8 s)])

theorem answers_badText {chunk : Bytes} (h : ofUtf8? chunk = none) :
    Answers (readPlain limits nested) (.badText chunk h) (chunk.length < UInt64.size) :=
  answers_chunk rfl (by simp [textItem, Item.ofChunk_of_none h])

/-- An array is read if another level is allowed, it is not too long, and its items are read. -/
theorem answers_array {ok : Item → Bool} {xs : List Item}
    (h : ∀ item ∈ nested, ∀ x ∈ xs, Answers item x (ok x)) :
    Answers (readPlain limits nested) (.array xs)
      (xs.length < UInt64.size && xs.length ≤ limits.elements && nested.isSome && xs.all ok) := by
  intro rest
  show readPlain limits nested (head 4 xs.length ++ Item.encodeItems xs ++ rest) = _
  rw [List.append_assoc, readPlain, readHead_argument (by decide)]
  by_cases hn : xs.length < UInt64.size
  · simp only [hn, if_true, decide_true, Bool.true_and]
    cases nested with
    | none => simp
    | some item =>
      show (readContents item ⟨4, headInfo xs.length, xs.length⟩ xs.length limits.elements
        (Item.encodeItems xs ++ rest) >>= fun r => some (Item.array r.1, r.2)) = _
      rw [readContents_encodeItems (h item rfl)]
      by_cases hok : xs.length ≤ limits.elements ∧ xs.all ok = true
      · rw [if_pos hok]
        simp [hok.1, hok.2]
      · rw [if_neg hok, if_neg (by simpa using hok)]
        rfl
  · simp [hn]

/-- A map is read if another level is allowed, it is not too long, and its keys and values are
    read. -/
theorem answers_map {ok : Item → Bool} {es : List (Item × Item)}
    (h : ∀ item ∈ nested, ∀ x ∈ Item.interleave es, Answers item x (ok x)) :
    Answers (readPlain limits nested) (.map es)
      (es.length < UInt64.size && es.length ≤ limits.elements && nested.isSome
        && (Item.interleave es).all ok) := by
  intro rest
  show readPlain limits nested (head 5 es.length ++ Item.encodeEntries es ++ rest) = _
  rw [List.append_assoc, readPlain, readHead_argument (by decide), Item.encodeEntries_eq]
  by_cases hn : es.length < UInt64.size
  · simp only [hn, if_true, decide_true, Bool.true_and]
    cases nested with
    | none => simp
    | some item =>
      show (readContents item ⟨5, headInfo es.length, es.length⟩ (2 * es.length)
        (2 * limits.elements) (Item.encodeItems (Item.interleave es) ++ rest) >>= fun r =>
          pairs r.1 >>= fun entries => some (Item.map entries, r.2)) = _
      rw [← Item.length_interleave, readContents_encodeItems (h item rfl), Item.length_interleave]
      by_cases hok : 2 * es.length ≤ 2 * limits.elements ∧ (Item.interleave es).all ok = true
      · have hle : es.length ≤ limits.elements := by omega
        rw [if_pos hok]
        show (pairs (Item.interleave es) >>= fun entries => some (Item.map entries, rest)) = _
        rw [pairs_interleave]
        simp [hle, hok.2]
      · have hnot : ¬(decide (es.length ≤ limits.elements) && Option.isSome (some item)
            && (Item.interleave es).all ok) = true := by
          intro hall
          simp only [Option.isSome_some, Bool.and_true, Bool.and_eq_true, decide_eq_true_eq] at hall
          exact hok ⟨by omega, hall.2⟩
        rw [if_neg hok, if_neg hnot]
        rfl
  · simp [hn]

theorem answers_simple (n : UInt8) :
    Answers (readPlain limits nested) (.simple n) (n < 24 || 32 ≤ n) := by
  intro rest
  have hlt : n.toNat < UInt64.size := Nat.lt_trans n.toNat_lt_size (by decide)
  have hkey : (decide (n < 24) || decide (32 ≤ n)) = true ↔
      n.toNat < UInt64.size ∧ ¬(UInt8.toNat 7 = 7 ∧ 24 ≤ n.toNat ∧ n.toNat < 32) := by
    have h24 : n < 24 ↔ n.toNat < 24 := UInt8.lt_iff_toNat_lt
    have h32 : 32 ≤ n ↔ 32 ≤ n.toNat := UInt8.le_iff_toNat_le
    have h7 : UInt8.toNat 7 = 7 := rfl
    simp only [Bool.or_eq_true, decide_eq_true_eq, h24, h32, h7, hlt, true_and]
    omega
  have hinfo : headInfo n.toNat ≤ 24 := by
    unfold headInfo
    rw [if_pos n.toNat_lt_size]
    split <;> omega
  show readPlain limits nested (head 7 n.toNat ++ rest) = _
  rw [readPlain, readHead_head (by decide)]
  by_cases hn : (decide (n < 24) || decide (32 ≤ n)) = true
  · rw [if_pos (hkey.mp hn), if_pos hn]
    show (if headInfo n.toNat = 25 then _ else if headInfo n.toNat = 26 then _
      else if headInfo n.toNat = 27 then _ else some (Item.simple (UInt8.ofNat n.toNat), rest)) = _
    rw [if_neg (by omega), if_neg (by omega), if_neg (by omega), UInt8.ofNat_toNat]
  · rw [if_neg (fun hcond => hn (hkey.mpr hcond)), if_neg hn]
    rfl

/-- The bits of a number stand behind its first byte. -/
theorem takeBytes_bits (width : Nat) {n : Nat} (hn : n < 256 ^ width) (info : Nat)
    (item : Nat → Item) (rest : Bytes) :
    ((takeBytes width (bigEndian width n ++ rest) >>= fun r =>
      some (Head.mk 7 info (ofBigEndian r.1), r.2)) >>= fun r => some (item r.1.value, r.2))
      = some (item n, rest) := by
  rw [takeBytes_bigEndian]
  show some (item (ofBigEndian (bigEndian width n)), rest) = _
  rw [ofBigEndian_bigEndian hn]

theorem answers_half (bits : UInt16) : Answers (readPlain limits nested) (.half bits) true := by
  intro rest
  have hbits := takeBytes_bits 2 bits.toNat_lt_size 25 (fun n => .half (UInt16.ofNat n)) rest
  rw [UInt16.ofNat_toNat] at hbits
  exact hbits

theorem answers_single (bits : UInt32) : Answers (readPlain limits nested) (.single bits) true := by
  intro rest
  have hbits := takeBytes_bits 4 bits.toNat_lt_size 26 (fun n => .single (UInt32.ofNat n)) rest
  rw [UInt32.ofNat_toNat] at hbits
  exact hbits

theorem answers_double (bits : UInt64) : Answers (readPlain limits nested) (.double bits) true := by
  intro rest
  have hbits := takeBytes_bits 8 bits.toNat_lt_size 27 (fun n => .double (UInt64.ofNat n)) rest
  rw [UInt64.ofNat_toNat] at hbits
  exact hbits

/-- A tag is read if its content is. -/
theorem answers_tag {content : Reader Item} {x : Item} {ok : Bool} (h : Answers content x ok)
    (number : UInt64) : Answers (readTag content) (.tag number x) ok := by
  intro rest
  show readTag content (head 6 number.toNat ++ x.encode ++ rest) = _
  rw [List.append_assoc, readTag, readHead_argument (by decide), if_pos number.toNat_lt_size]
  show (content (x.encode ++ rest) >>= fun r =>
    some (Item.tag (UInt64.ofNat number.toNat) r.1, r.2)) = _
  rw [h, UInt64.ofNat_toNat]
  cases ok <;> rfl

end

/-! ## Levels -/

/-- Whether an item is a tag with its content. -/
def Item.isTag : Item → Bool
  | tag .. => true
  | _ => false

theorem startsTag_encode (x : Item) (rest : Bytes) : startsTag (x.encode ++ rest) = x.isTag := by
  cases x with
  | bytes content | text content | badText chunk malformed | array items | map entries
  | tag number content =>
    rw [Item.encode, List.append_assoc, startsTag_head (by decide)]
    rfl
  | uint n | nint n | simple n =>
    rw [Item.encode, startsTag_head (by decide)]
    rfl
  | half bits | single bits | double bits => rfl

/-- The reader for the items of a container, if another level is allowed. -/
def inner (limits : Limits) : (levels : Nat) → Option (Reader Item)
  | 0 => none
  | levels + 1 => some (readers limits levels).1

/-- Items that are no tags are read alike inside and outside of tags. -/
theorem answers_of_plain {limits : Limits} {levels : Nat} {x : Item} {ok : Bool}
    (htag : x.isTag = false) (h : Answers (readPlain limits (inner limits levels)) x ok) :
    Answers (readers limits levels).1 x ok ∧ Answers (readers limits levels).2 x ok := by
  have hstarts : ∀ rest, ¬startsTag (x.encode ++ rest) = true := by
    intro rest
    rw [startsTag_encode, htag]
    decide
  cases levels with
  | zero =>
    exact ⟨fun rest => (if_neg (hstarts rest)).trans (h rest),
      fun rest => (if_neg (hstarts rest)).trans (h rest)⟩
  | succ levels =>
    exact ⟨fun rest => (if_neg (hstarts rest)).trans (h rest),
      fun rest => (if_neg (hstarts rest)).trans (h rest)⟩

/-- Inside a container the items are read with one level less. -/
theorem answers_inner {limits : Limits} {levels : Nat} {x : Item}
    (h : ∀ levels, Answers (readers limits levels).1 x (x.readable limits false levels)) :
    ∀ item ∈ inner limits levels, Answers item x (x.readable limits false (levels - 1)) := by
  intro item hitem
  cases levels with
  | zero => cases hitem
  | succ levels =>
    obtain rfl := Option.some.inj hitem
    exact h levels

theorem isSome_inner (limits : Limits) (levels : Nat) :
    (inner limits levels).isSome = decide (0 < levels) := by
  cases levels <;> simp [inner]

/-- Encoded items are read back when they keep to the bounds, and refused when they do not. -/
theorem answers_readers (limits : Limits) (x : Item) : ∀ levels,
    Answers (readers limits levels).1 x (x.readable limits false levels) ∧
      Answers (readers limits levels).2 x (x.readable limits true levels) := by
  induction x using Item.ind with
  | uint n => exact fun levels => answers_of_plain rfl (answers_uint n)
  | nint n => exact fun levels => answers_of_plain rfl (answers_nint n)
  | bytes content => exact fun levels => answers_of_plain rfl (answers_bytes content)
  | text content => exact fun levels => answers_of_plain rfl (answers_text content)
  | badText chunk malformed => exact fun levels => answers_of_plain rfl (answers_badText malformed)
  | simple n => exact fun levels => answers_of_plain rfl (answers_simple n)
  | half bits => exact fun levels => answers_of_plain rfl (answers_half bits)
  | single bits => exact fun levels => answers_of_plain rfl (answers_single bits)
  | double bits => exact fun levels => answers_of_plain rfl (answers_double bits)
  | array items ih =>
    intro levels
    have hitems := @answers_array limits (inner limits levels)
      (fun x => x.readable limits false (levels - 1)) items
      (fun item hitem x hx => answers_inner (fun levels => (ih x hx levels).1) item hitem)
    rw [isSome_inner, ← Item.readableItems_eq_all] at hitems
    exact answers_of_plain rfl hitems
  | map entries ih =>
    intro levels
    have hparts : ∀ x ∈ Item.interleave entries, ∀ levels,
        Answers (readers limits levels).1 x (x.readable limits false levels) := by
      intro x hx levels
      obtain ⟨e, he, hx⟩ := List.mem_flatMap.mp hx
      simp only [List.mem_cons, List.not_mem_nil, or_false] at hx
      rcases hx with rfl | rfl
      · exact ((ih e he).1 levels).1
      · exact ((ih e he).2 levels).1
    have hentries := @answers_map limits (inner limits levels)
      (fun x => x.readable limits false (levels - 1)) entries
      (fun item hitem x hx => answers_inner (hparts x hx) item hitem)
    rw [isSome_inner, ← Item.readableEntries_eq_all] at hentries
    exact answers_of_plain rfl hentries
  | tag number content ih =>
    intro levels
    have hstarts : ∀ rest, startsTag ((Item.tag number content).encode ++ rest) = true :=
      startsTag_encode _
    cases levels with
    | zero =>
      have hcontent := answers_tag (ih 0).2 number
      exact ⟨fun rest => (if_pos (hstarts rest)).trans (hcontent rest),
        fun rest => if_pos (hstarts rest)⟩
    | succ levels =>
      -- the first tag of a run takes up no level, those inside it do
      have houter := answers_tag (ih (levels + 1)).2 number
      have hinner := answers_tag (ih levels).2 number
      refine ⟨fun rest => (if_pos (hstarts rest)).trans (houter rest),
        fun rest => (if_pos (hstarts rest)).trans ?_⟩
      rw [hinner rest]
      simp [Item.readable]

/-- The bytes of an item are read as the item itself if it keeps to the bounds, and refused if it
    does not. -/
theorem decodeWithin_encode (limits : Limits) (x : Item) :
    decodeWithin limits x.encode
      = if x.readable limits false limits.levels then some x else none := by
  have hread := (answers_readers limits x limits.levels).1 []
  rw [List.append_nil] at hread
  rw [decodeWithin, hread]
  cases x.readable limits false limits.levels <;> rfl

theorem decode?_encode {x : Item} (h : x.readable .standard false 32 = true) :
    decode? x.encode = some x :=
  (decodeWithin_encode .standard x).trans (if_pos h)

end TermVM.Cbor
