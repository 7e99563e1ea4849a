/-
  TermVM.Proofs.Cbor.Bounds

  What was read keeps to the bounds of the reader.

  The readers count levels and elements while they read, and take nothing that
  is not there: an item that was read from fewer than 2^64 bytes is readable in
  its canonical spelling too, whatever spelling it was read from.  Taking values
  out of an item loses tags and nothing else, so values keep to the bounds of
  the item they were found in.
-/
import TermVM.Cbor.Field
import TermVM.Proofs.Cbor.Reading
import TermVM.Proofs.Result

namespace TermVM

/-! ## Texts -/

theorem utf8_append (s t : String) : utf8 (s ++ t) = utf8 s ++ utf8 t := by
  simp [utf8, String.toByteArray_append]

namespace Cbor

/-- A text has the bytes of its chunks, and a string that is no text has a chunk that is none. -/
theorem textItem_eq (chunks : List Bytes) :
    (∃ s, textItem chunks = .text s ∧ utf8 s = chunks.flatten) ∨
      ∃ chunk, ∃ h : ofUtf8? chunk = none, textItem chunks = .badText chunk h ∧ chunk ∈ chunks := by
  induction chunks with
  | nil => exact .inl ⟨"", rfl, rfl⟩
  | cons c cs ih =>
    cases hc : ofUtf8? c with
    | none =>
      refine .inr ⟨c, hc, ?_, List.mem_cons_self⟩
      simp only [textItem, Item.ofChunk_of_none hc]
    | some s =>
      rcases ih with ⟨rest, hrest, hbytes⟩ | ⟨chunk, h, hchunk, hmem⟩
      · refine .inl ⟨s ++ rest, ?_, ?_⟩
        · simp only [textItem, Item.ofChunk_of_some hc, hrest]
        · rw [utf8_append, utf8_of_ofUtf8? hc, hbytes, List.flatten_cons]
      · refine .inr ⟨chunk, h, ?_, List.mem_cons_of_mem _ hmem⟩
        simp only [textItem, Item.ofChunk_of_some hc, hchunk]

/-! ## Weaker bounds -/

namespace Item

/-- More levels do no harm, and neither does not being inside of a tag. -/
theorem readable_mono {limits : Limits} (x : Item) : ∀ {tagged tagged' : Bool} {levels levels' : Nat},
    (tagged' = true → tagged = true) → levels ≤ levels' →
    x.readable limits tagged levels = true → x.readable limits tagged' levels' = true := by
  induction x using Item.ind with
  | array items ih =>
    intro tagged tagged' levels levels' htagged hle h
    simp only [readable, readableItems_eq_all, Bool.and_eq_true, decide_eq_true_eq,
      List.all_eq_true] at h ⊢
    obtain ⟨⟨hcount, hlevels⟩, hitems⟩ := h
    exact ⟨⟨hcount, by omega⟩, fun x hx => ih x hx id (by omega) (hitems x hx)⟩
  | map entries ih =>
    intro tagged tagged' levels levels' htagged hle h
    simp only [readable, readableEntries_eq_all, Bool.and_eq_true, decide_eq_true_eq,
      List.all_eq_true] at h ⊢
    obtain ⟨⟨hcount, hlevels⟩, hentries⟩ := h
    refine ⟨⟨hcount, by omega⟩, fun x hx => ?_⟩
    have hx' := hentries x hx
    obtain ⟨e, he, hx⟩ := List.mem_flatMap.mp hx
    simp only [List.mem_cons, List.not_mem_nil, or_false] at hx
    rcases hx with rfl | rfl
    · exact (ih e he).1 id (by omega) hx'
    · exact (ih e he).2 id (by omega) hx'
  | tag number content ih =>
    intro tagged tagged' levels levels' htagged hle h
    cases tagged with
    | false =>
      obtain rfl : tagged' = false := by simpa using htagged
      exact ih id hle h
    | true =>
      simp only [readable, if_true, Bool.and_eq_true, decide_eq_true_eq] at h
      cases tagged' with
      | false => exact ih id (by omega) h.2
      | true =>
        simp only [readable, if_true, Bool.and_eq_true, decide_eq_true_eq]
        exact ⟨by omega, ih id (by omega) h.2⟩
  | _ => exact fun _ _ h => h

theorem readable_content {limits : Limits} {number : UInt64} {content : Item} {tagged : Bool}
    {levels : Nat} (h : (tag number content).readable limits tagged levels = true) :
    content.readable limits true levels = true := by
  cases tagged with
  | false => exact h
  | true =>
    simp only [readable, if_true, Bool.and_eq_true] at h
    exact readable_mono content id (Nat.sub_le levels 1) h.2

/-- An item without its tags keeps to the bounds of the item. -/
theorem readable_untag {limits : Limits} {x y : Item} {tagged : Bool} {levels : Nat}
    (h : x.untag = some y) (hx : x.readable limits tagged levels = true) :
    y.readable limits false levels = true := by
  induction x using Item.ind generalizing tagged with
  | tag number content ih =>
    have hcontent := readable_content hx
    -- the tag stays, its content comes out, or the content is looked at in turn
    have hcases : y = tag number content ∨ y = content ∨ content.untag = some y := by
      unfold untag at h
      repeat' split at h
      all_goals simp_all
    rcases hcases with rfl | rfl | h
    · exact readable_mono _ nofun (Nat.le_refl levels) hx
    · exact readable_mono _ nofun (Nat.le_refl levels) hcontent
    · exact ih h hcontent
  | _ =>
    obtain rfl := Option.some.inj h
    exact readable_mono _ nofun (Nat.le_refl levels) hx

end Item

/-! ## Reading -/

theorem takeBytes_eq_some {n : Nat} {bs front rest : Bytes} (h : takeBytes n bs = some (front, rest)) :
    front.length = n ∧ front ++ rest = bs := by
  unfold takeBytes at h
  dsimp only at h
  split at h
  next hlength =>
    cases h
    exact ⟨hlength, List.take_append_drop n bs⟩
  next => cases h

/-- A head takes up bytes, and the argument of a simple value is one that such values have. -/
theorem readHead_eq_some {bs rest : Bytes} {h : Head} (hread : readHead bs = some (h, rest)) :
    rest.length < bs.length ∧
      (h.major = 7 → h.info ∈ [25, 26, 27] ∨ h.value < 24 ∨ 32 ≤ h.value ∧ h.value < 256) := by
  cases bs with
  | nil => cases hread
  | cons b bs =>
    have hwide : ∀ {width : Nat} {head : Head} {tail : Bytes},
        (takeBytes width bs >>= fun r =>
          some (Head.mk (b.toNat / 32) (b.toNat % 32) (ofBigEndian r.1), r.2)) = some (head, tail) →
        tail.length ≤ bs.length ∧ head.major = b.toNat / 32 ∧ head.info = b.toNat % 32 ∧
          (width = 1 → head.value < 256) := by
      intro width head tail hhead
      simp only [Option.bind_eq_bind, Option.bind_eq_some_iff, Option.some.injEq, Prod.mk.injEq,
        Prod.exists] at hhead
      obtain ⟨front, tail', hfront, rfl, rfl⟩ := hhead
      obtain ⟨hlength, hsplit⟩ := takeBytes_eq_some hfront
      refine ⟨by rw [← hsplit]; simp, rfl, rfl, ?_⟩
      rintro rfl
      obtain ⟨x, rfl⟩ := List.length_eq_one_iff.mp hlength
      simpa [ofBigEndian] using x.toNat_lt
    unfold readHead at hread
    dsimp only at hread
    rw [List.length_cons]
    split at hread
    next hshort =>
      cases hread
      exact ⟨Nat.lt_succ_self _, fun _ => .inr (.inl hshort)⟩
    next =>
    split at hread
    next =>
      -- one byte, which for a simple value is none that the first byte could have held
      obtain ⟨⟨head, tail⟩, hhead, hread⟩ := Option.bind_eq_some_iff.mp hread
      obtain ⟨htail, hsame, -, hvalue⟩ := hwide hhead
      dsimp only at hread
      split at hread
      next => cases hread
      next hsimple =>
        cases hread
        have hlt := hvalue rfl
        refine ⟨Nat.lt_succ_of_le htail, fun hmajor => .inr (.inr ⟨?_, hlt⟩)⟩
        exact Nat.le_of_not_lt fun hlow => hsimple ⟨hsame ▸ hmajor, hlow⟩
    next =>
    have hlong : ∀ {width : Nat}, b.toNat % 32 ∈ [25, 26, 27] →
        (takeBytes width bs >>= fun r =>
          some (Head.mk (b.toNat / 32) (b.toNat % 32) (ofBigEndian r.1), r.2)) = some (h, rest) →
        rest.length < bs.length + 1 ∧
          (h.major = 7 → h.info ∈ [25, 26, 27] ∨ h.value < 24 ∨ 32 ≤ h.value ∧ h.value < 256) := by
      intro width hinfo hhead
      obtain ⟨htail, -, hsame, -⟩ := hwide hhead
      exact ⟨Nat.lt_succ_of_le htail, fun _ => .inl (hsame ▸ hinfo)⟩
    split at hread
    next hinfo => exact hlong (by simp [hinfo]) hread
    next =>
    split at hread
    next hinfo => exact hlong (by simp [hinfo]) hread
    next =>
    split at hread
    next hinfo => exact hlong (by simp [hinfo]) hread
    next =>
    split at hread
    next =>
      cases hread
      exact ⟨Nat.lt_succ_self _, fun _ => .inr (.inl (Nat.zero_lt_succ 23))⟩
    next => cases hread

/-- The chunks of a string are among the bytes that were read. -/
theorem length_readChunks {major fuel : Nat} {chunks chunks' : List Bytes} {bs rest : Bytes}
    (h : readChunks major fuel chunks bs = some (chunks', rest)) :
    chunks'.flatten.length + rest.length ≤ chunks.flatten.length + bs.length := by
  induction fuel generalizing chunks bs with
  | zero => cases h
  | succ fuel ih =>
    cases bs with
    | nil => cases h
    | cons b bs =>
      rw [readChunks] at h
      split at h
      · cases h
        simp [List.length_flatten, List.map_reverse, List.sum_reverse]
      · split at h
        next => cases h
        next head tail hhead =>
          split at h
          · cases h
          · split at h
            next => cases h
            next chunk tail' hchunk =>
              have hlength := (readHead_eq_some hhead).1
              obtain ⟨-, hsplit⟩ := takeBytes_eq_some hchunk
              have hbound := ih h
              have htotal := congrArg List.length hsplit
              simp only [List.flatten_cons, List.length_append] at hbound htotal
              omega

section

variable {limits : Limits}

/-- A reader gives items within bounds, and no more bytes than it was given. -/
def Keeps (limits : Limits) (reader : Reader Item) (tagged : Bool) (levels : Nat) : Prop :=
  ∀ bs x rest, bs.length < UInt64.size → reader bs = some (x, rest) →
    x.readable limits tagged levels = true ∧ rest.length ≤ bs.length

theorem readCount_keeps {item : Reader Item} {levels : Nat} (h : Keeps limits item false levels)
    {count : Nat} {done xs : List Item} {bs rest : Bytes} (hbs : bs.length < UInt64.size)
    (hread : readCount item count done bs = some (xs, rest))
    (hdone : ∀ x ∈ done, x.readable limits false levels = true) :
    (∀ x ∈ xs, x.readable limits false levels = true) ∧ xs.length = done.length + count ∧
      rest.length ≤ bs.length := by
  induction count generalizing done bs with
  | zero =>
    cases hread
    exact ⟨fun x hx => hdone x (List.mem_reverse.mp hx), List.length_reverse, Nat.le_refl _⟩
  | succ count ih =>
    rw [readCount] at hread
    split at hread
    next => cases hread
    next x tail hitem =>
      obtain ⟨hx, htail⟩ := h bs x tail hbs hitem
      obtain ⟨hxs, hlength, hrest⟩ := ih (by omega) hread (List.forall_mem_cons.mpr ⟨hx, hdone⟩)
      rw [List.length_cons] at hlength
      exact ⟨hxs, by omega, by omega⟩

theorem readToBreak_keeps {item : Reader Item} {levels : Nat} (h : Keeps limits item false levels)
    {fuel : Nat} {done xs : List Item} {bs rest : Bytes} (hbs : bs.length < UInt64.size)
    (hread : readToBreak item fuel done bs = some (xs, rest))
    (hdone : ∀ x ∈ done, x.readable limits false levels = true) :
    (∀ x ∈ xs, x.readable limits false levels = true) ∧ rest.length ≤ bs.length := by
  induction fuel generalizing done bs with
  | zero => cases hread
  | succ fuel ih =>
    cases bs with
    | nil => cases hread
    | cons b bs =>
      rw [readToBreak] at hread
      split at hread
      · cases hread
        exact ⟨fun x hx => hdone x (List.mem_reverse.mp hx), by simp⟩
      · split at hread
        next => cases hread
        next x tail hitem =>
          obtain ⟨hx, htail⟩ := h _ x tail hbs hitem
          obtain ⟨hxs, hrest⟩ := ih (by omega) hread (List.forall_mem_cons.mpr ⟨hx, hdone⟩)
          exact ⟨hxs, by omega⟩

theorem readContents_keeps {item : Reader Item} {levels : Nat} (h : Keeps limits item false levels)
    {head : Head} {count most : Nat} {xs : List Item} {bs rest : Bytes}
    (hbs : bs.length < UInt64.size) (hread : readContents item head count most bs = some (xs, rest)) :
    (∀ x ∈ xs, x.readable limits false levels = true) ∧ xs.length ≤ most ∧
      rest.length ≤ bs.length := by
  unfold readContents at hread
  split at hread
  · simp only [Option.bind_eq_bind, Option.bind_eq_some_iff, Prod.exists] at hread
    obtain ⟨items, tail, hitems, hread⟩ := hread
    split at hread
    next hmost =>
      cases hread
      obtain ⟨hxs, hrest⟩ := readToBreak_keeps h hbs hitems (by simp)
      exact ⟨hxs, hmost, hrest⟩
    next => cases hread
  · split at hread
    next hmost =>
      obtain ⟨hxs, hlength, hrest⟩ := readCount_keeps h hbs hread (by simp)
      rw [List.length_nil, Nat.zero_add] at hlength
      exact ⟨hxs, by omega, hrest⟩
    next => cases hread

/-- Keys and values in turn are the items they were made from. -/
theorem interleave_of_pairs {xs : List Item} {entries : List (Item × Item)}
    (h : pairs xs = some entries) : Item.interleave entries = xs := by
  fun_induction pairs xs generalizing entries with
  | case1 =>
    cases h
    rfl
  | case2 => cases h
  | case3 k v rest ih =>
    simp only [Option.pure_def, Option.bind_eq_bind, Option.bind_eq_some_iff,
      Option.some.injEq] at h
    obtain ⟨more, hmore, rfl⟩ := h
    show k :: v :: Item.interleave more = _
    rw [ih hmore]

/-- A string has no more bytes than were there, in one piece or in chunks. -/
theorem length_string {major : Nat} {head : Head} {bs rest : Bytes} {k : List Bytes → Item} {x : Item}
    (h : (if head.info = 31 then
        readChunks major bs.length [] bs >>= fun r => some (k r.1, r.2)
      else
        ((takeBytes head.value bs).map fun r => ([r.1], r.2)) >>= fun r => some (k r.1, r.2))
      = some (x, rest)) :
    ∃ chunks, k chunks = x ∧ chunks.flatten.length + rest.length ≤ bs.length := by
  split at h
  · obtain ⟨⟨chunks, tail⟩, hchunks, h⟩ := Option.bind_eq_some_iff.mp h
    obtain ⟨rfl, rfl⟩ := Prod.mk.inj (Option.some.inj h)
    have hlength := length_readChunks hchunks
    rw [List.flatten_nil, List.length_nil, Nat.zero_add] at hlength
    exact ⟨chunks, rfl, hlength⟩
  · obtain ⟨⟨chunks, tail⟩, hchunks, h⟩ := Option.bind_eq_some_iff.mp h
    obtain ⟨rfl, rfl⟩ := Prod.mk.inj (Option.some.inj h)
    obtain ⟨⟨front, tail'⟩, hfront, hpair⟩ := Option.map_eq_some_iff.mp hchunks
    obtain ⟨rfl, rfl⟩ := Prod.mk.inj hpair
    obtain ⟨-, rfl⟩ := takeBytes_eq_some hfront
    exact ⟨[front], rfl, by simp⟩

/-- A plain item is within the bounds when the items inside it are, one level further down. -/
theorem readPlain_keeps {nested : Option (Reader Item)} {levels : Nat}
    (hsize : limits.elements < UInt64.size) (hlevels : nested.isSome = true → 0 < levels)
    (h : ∀ item ∈ nested, Keeps limits item false (levels - 1)) (tagged : Bool) :
    Keeps limits (readPlain limits nested) tagged levels := by
  intro bs x rest hbs hread
  unfold readPlain at hread
  obtain ⟨⟨head, tail⟩, hhead, hread⟩ := Option.bind_eq_some_iff.mp hread
  obtain ⟨htail, hsimple⟩ := readHead_eq_some hhead
  dsimp only at hread
  split at hread
  · cases hread
    exact ⟨rfl, Nat.le_of_lt htail⟩
  · cases hread
    exact ⟨rfl, Nat.le_of_lt htail⟩
  · obtain ⟨chunks, rfl, hlength⟩ := length_string (k := fun chunks => .bytes chunks.flatten) hread
    exact ⟨decide_eq_true (by omega), by omega⟩
  · obtain ⟨chunks, rfl, hlength⟩ := length_string (k := textItem) hread
    refine ⟨?_, by omega⟩
    -- some chunk may be malformed
    rcases textItem_eq chunks with ⟨s, htext, hbytes⟩ | ⟨chunk, hbad, htext, hmem⟩
    · rw [htext]
      exact decide_eq_true (by rw [hbytes]; omega)
    · have hchunk := (List.sublist_flatten_of_mem hmem).length_le
      rw [htext]
      exact decide_eq_true (by omega)
  · obtain ⟨item, hnested, hread⟩ := Option.bind_eq_some_iff.mp hread
    obtain ⟨⟨items, tail'⟩, hitems, hread⟩ := Option.bind_eq_some_iff.mp hread
    cases hread
    obtain ⟨hall, hcount, hrest⟩ := readContents_keeps (h item hnested) (by omega) hitems
    have hpos := hlevels (by rw [hnested]; rfl)
    refine ⟨?_, Nat.le_trans hrest (Nat.le_of_lt htail)⟩
    simp only [Item.readable, Item.readableItems_eq_all, Bool.and_eq_true, decide_eq_true_eq,
      List.all_eq_true]
    exact ⟨⟨⟨by omega, hcount⟩, hpos⟩, hall⟩
  · obtain ⟨item, hnested, hread⟩ := Option.bind_eq_some_iff.mp hread
    obtain ⟨⟨items, tail'⟩, hitems, hread⟩ := Option.bind_eq_some_iff.mp hread
    obtain ⟨entries, hentries, hread⟩ := Option.bind_eq_some_iff.mp hread
    cases hread
    obtain ⟨hall, hcount, hrest⟩ := readContents_keeps (h item hnested) (by omega) hitems
    have hpos := hlevels (by rw [hnested]; rfl)
    obtain rfl := interleave_of_pairs hentries
    rw [Item.length_interleave] at hcount
    refine ⟨?_, Nat.le_trans hrest (Nat.le_of_lt htail)⟩
    simp only [Item.readable, Item.readableEntries_eq_all, Bool.and_eq_true, decide_eq_true_eq,
      List.all_eq_true]
    exact ⟨⟨⟨by omega, by omega⟩, hpos⟩, hall⟩
  next hmajor =>
    repeat' split at hread
    all_goals
      cases hread
      refine ⟨?_, Nat.le_of_lt htail⟩
    · rfl
    · rfl
    · rfl
    next h25 h26 h27 =>
      -- the three longer heads are floating-point numbers
      have hvalue : head.value < 24 ∨ 32 ≤ head.value ∧ head.value < 256 := by
        have hinfo := hsimple hmajor
        simp only [List.mem_cons, List.not_mem_nil, or_false] at hinfo
        exact hinfo.resolve_left (by omega)
      have hbyte : (UInt8.ofNat head.value).toNat = head.value :=
        UInt8.toNat_ofNat_of_lt' (show head.value < 256 by omega)
      simp only [Item.readable, Bool.or_eq_true, decide_eq_true_eq, UInt8.lt_iff_toNat_lt,
        UInt8.le_iff_toNat_le, hbyte]
      exact hvalue.imp_right And.left
  · cases hread

/-- A tag is within the bounds when its content is within its own. -/
theorem readTag_keeps {content : Reader Item} {inside levels : Nat} {tagged : Bool}
    (h : Keeps limits content true inside)
    (htag : ∀ number x, x.readable limits true inside = true →
      (Item.tag number x).readable limits tagged levels = true) :
    Keeps limits (readTag content) tagged levels := by
  intro bs x rest hbs hread
  obtain ⟨⟨head, tail⟩, hhead, hread⟩ := Option.bind_eq_some_iff.mp hread
  obtain ⟨⟨y, tail'⟩, hy, hread⟩ := Option.bind_eq_some_iff.mp hread
  cases hread
  have htail := (readHead_eq_some hhead).1
  obtain ⟨hcontent, hrest⟩ := h tail y rest (by omega) hy
  exact ⟨htag _ y hcontent, Nat.le_trans hrest (Nat.le_of_lt htail)⟩

theorem Keeps.choice {tag plain : Reader Item} {tagged : Bool} {levels : Nat}
    (htag : Keeps limits tag tagged levels) (hplain : Keeps limits plain tagged levels) :
    Keeps limits (fun bs => if startsTag bs then tag bs else plain bs) tagged levels := by
  intro bs x rest hbs hread
  dsimp only at hread
  split at hread
  · exact htag bs x rest hbs hread
  · exact hplain bs x rest hbs hread

theorem readers_keep (hsize : limits.elements < UInt64.size) (levels : Nat) :
    Keeps limits (readers limits levels).1 false levels ∧
      Keeps limits (readers limits levels).2 true levels := by
  induction levels with
  | zero =>
    have hplain : ∀ tagged, Keeps limits (readPlain limits none) tagged 0 :=
      readPlain_keeps hsize nofun nofun
    -- a tag inside of a tag takes up a level, and there is none
    have hcontent : Keeps limits (readers limits 0).2 true 0 :=
      Keeps.choice (show Keeps limits (fun _ => none) true 0 from nofun) (hplain true)
    refine ⟨Keeps.choice ?_ (hplain false), hcontent⟩
    exact readTag_keeps hcontent fun _ _ hx => hx
  | succ levels ih =>
    obtain ⟨hitem, hinner⟩ := ih
    have hplain : ∀ tagged,
        Keeps limits (readPlain limits (some (readers limits levels).1)) tagged (levels + 1) := by
      refine readPlain_keeps hsize (fun _ => Nat.succ_pos levels) fun item hsome => ?_
      obtain rfl := Option.some.inj hsome
      exact hitem
    have hcontent : Keeps limits (readers limits (levels + 1)).2 true (levels + 1) := by
      refine (readTag_keeps hinner fun _ x hx => ?_).choice (hplain true)
      rw [Item.readable, if_pos rfl, Bool.and_eq_true]
      exact ⟨decide_eq_true (Nat.succ_pos levels), hx⟩
    refine ⟨Keeps.choice ?_ (hplain false), hcontent⟩
    exact readTag_keeps hcontent fun _ _ hx => hx

end

/-- What was read keeps to the bounds it was read within. -/
theorem readable_of_decodeWithin {limits : Limits} (hsize : limits.elements < UInt64.size)
    {bs : Bytes} (hbs : bs.length < UInt64.size) {x : Item} (h : decodeWithin limits bs = some x) :
    x.readable limits false limits.levels = true := by
  obtain ⟨⟨y, rest⟩, hread, h⟩ := Option.bind_eq_some_iff.mp h
  dsimp only at h
  split at h
  · obtain rfl := Option.some.inj h
    exact ((readers_keep hsize limits.levels).1 bs y rest hbs hread).1
  · cases h

/-! ## Values -/

namespace Item

theorem readable_array {limits : Limits} (hhigh : limits.elements < UInt64.size) {xs : List Item}
    {tagged : Bool} {levels : Nat} (hcount : xs.length ≤ limits.elements)
    (h : ∀ x ∈ xs, x.readable limits false levels = true) :
    (array xs).readable limits tagged (levels + 1) = true := by
  simp only [readable, readableItems_eq_all, Bool.and_eq_true, decide_eq_true_eq, List.all_eq_true]
  exact ⟨⟨⟨Nat.lt_of_le_of_lt hcount hhigh, hcount⟩, Nat.succ_pos levels⟩, h⟩

variable {limits : Limits} {x : Item} {tagged : Bool} {levels : Nat}
  (hx : x.readable limits tagged levels = true)

include hx

theorem length_toText? {s : String} (h : x.toText? = some s) : (utf8 s).length < UInt64.size := by
  unfold toText? at h
  split at h
  next s' huntag =>
    obtain rfl := Option.some.inj h
    exact of_decide_eq_true (readable_untag huntag hx)
  next =>
    split at h
    · obtain rfl := Option.some.inj h
      decide
    · cases h
  next => cases h

/-- The elements of a list are a level further down. -/
theorem readable_toList? {items : List Item} (h : x.toList? = some (some items)) :
    items.length ≤ limits.elements ∧ 0 < levels ∧
      ∀ y ∈ items, y.readable limits false (levels - 1) = true := by
  unfold toList? at h
  split at h
  next items' huntag =>
    obtain rfl := Option.some.inj (Option.some.inj h)
    have harray := readable_untag huntag hx
    simp only [readable, readableItems_eq_all, Bool.and_eq_true, decide_eq_true_eq,
      List.all_eq_true] at harray
    exact ⟨harray.1.1.2, harray.1.2, harray.2⟩
  next =>
    split at h
    · cases h
    · cases h
  next => cases h

theorem readable_toListOf? {α : Type} {elem : Item → Option α} {as : List α}
    (h : x.toListOf? elem = some as) (hsome : as ≠ []) :
    as.length ≤ limits.elements ∧ 0 < levels ∧
      ∀ a ∈ as, ∃ y, y.readable limits false (levels - 1) = true ∧ elem y = some a := by
  obtain ⟨items, hitems, h⟩ := Option.bind_eq_some_iff.mp h
  have hall := Result.mapM_eq_some.mp h
  cases items with
  | none => exact absurd (List.forall₂_nil_left_iff.mp hall) hsome
  | some items =>
    obtain ⟨hcount, hlevels, hreadable⟩ := readable_toList? hx hitems
    refine ⟨hall.length_eq ▸ hcount, hlevels, fun a ha => ?_⟩
    obtain ⟨y, hy, helem⟩ := Result.exists_of_mem_right hall ha
    exact ⟨y, hreadable y hy, helem⟩

/-- The values of a record are a level further down. -/
theorem readable_toEntries? {entries : List (Item × Item)} (h : x.toEntries? = some entries) :
    ∀ e ∈ entries, 0 < levels ∧ e.2.readable limits false (levels - 1) = true := by
  unfold toEntries? at h
  split at h
  next entries' huntag =>
    obtain rfl := Option.some.inj h
    have hmap := readable_untag huntag hx
    simp only [readable, readableEntries_eq_all, Bool.and_eq_true, decide_eq_true_eq,
      List.all_eq_true] at hmap
    refine fun e he => ⟨hmap.1.2, hmap.2 e.2 (List.mem_flatMap.mpr ⟨e, he, by simp⟩)⟩
  next =>
    split at h
    · obtain rfl := Option.some.inj h
      exact fun e he => absurd he List.not_mem_nil
    · cases h
  next => cases h

end Item

/-- What every field that is taken preserves, a record preserves. -/
theorem readFields_invariant {σ ε : Type} {refused : ε}
    {assign : Nat → Item → σ → Option (Except ε σ)} {P : σ → Prop}
    {entries : List (Item × Item)} {seen : List Nat} {s s' : σ}
    (hassign : ∀ e ∈ entries, ∀ n s s', assign n e.2 s = some (.ok s') → P s → P s') (hs : P s)
    (h : readFields refused assign entries seen s = .ok s') : P s' := by
  fun_induction readFields refused assign entries seen s with
  | case1 =>
    cases h
    exact hs
  | case2 | case6 => cases h
  | case3 k v rest seen s hkey ih => exact ih (List.forall_mem_cons.mp hassign).2 hs h
  | case4 k v rest seen s n hkey hseen ih => exact ih (List.forall_mem_cons.mp hassign).2 hs h
  | case5 k v rest seen s n hkey hseen hnone ih => exact ih (List.forall_mem_cons.mp hassign).2 hs h
  | case7 k v rest seen s n hkey hseen s₁ htaken ih =>
    obtain ⟨hfirst, hrest⟩ := List.forall_mem_cons.mp hassign
    exact ih hrest (hfirst n s s₁ htaken hs) h

theorem readRecord_invariant {σ ε : Type} {refused : ε}
    {assign : Nat → Item → σ → Option (Except ε σ)} {P : σ → Prop} {zero s : σ} {limits : Limits}
    {x : Item} {tagged : Bool} {levels : Nat} (hx : x.readable limits tagged levels = true)
    (hassign : ∀ n v s s', 0 < levels → v.readable limits false (levels - 1) = true →
      assign n v s = some (.ok s') → P s → P s')
    (hzero : P zero) (h : readRecord refused assign zero x = .ok s) : P s := by
  unfold readRecord at h
  split at h
  next => cases h
  next entries hentries =>
    have hvalues := Item.readable_toEntries? hx hentries
    refine readFields_invariant (fun e he n s s' => ?_) hzero h
    exact hassign n e.2 s s' (hvalues e he).1 (hvalues e he).2

end Cbor

end TermVM
