/-
  TermVM.Cbor.Decode

  Reading of the data items that `vmgen` takes from files, stores and requests.
  A byte sequence is one well-formed item or it is refused as a whole: truncated
  or trailing bytes, reserved heads, misplaced breaks, containers that are too
  long and nesting that is too deep.  Indefinite lengths and heads that are
  longer than they need to be are accepted.
-/
import TermVM.Cbor.Item

namespace TermVM.Cbor

/-- The bounds on what is read. -/
structure Limits where
  /-- Levels of nesting: every array and map is one, and so is every tag but the first of a run. -/
  levels : Nat
  /-- Elements of an array, and pairs of a map. -/
  elements : Nat
  deriving DecidableEq, Repr

/-- The bounds in use everywhere. -/
def Limits.standard : Limits := ⟨32, 131072⟩

/-- A head: major type, additional information, and the argument it gives. -/
structure Head where
  major : Nat
  info : Nat
  value : Nat
  deriving DecidableEq, Repr

/-- The value of bytes, most significant first. -/
def ofBigEndian (bs : Bytes) : Nat :=
  bs.foldl (fun n b => n * 256 + b.toNat) 0

/-- Splits off the first `n` bytes. -/
def takeBytes (n : Nat) (bs : Bytes) : Option (Bytes × Bytes) :=
  let front := bs.take n
  if front.length = n then some (front, bs.drop n) else none

/-- Reads a head.  A simple value that fits the first byte may not use a second, and only
    strings, arrays and maps have indefinite lengths. -/
def readHead : Bytes → Option (Head × Bytes)
  | [] => none
  | b :: bs =>
      let major := b.toNat / 32
      let info := b.toNat % 32
      let wide (width : Nat) : Option (Head × Bytes) := do
        let (arg, rest) ← takeBytes width bs
        return (⟨major, info, ofBigEndian arg⟩, rest)
      if info < 24 then some (⟨major, info, info⟩, bs)
      else if info = 24 then do
        let (h, rest) ← wide 1
        if major = 7 ∧ h.value < 32 then none else some (h, rest)
      else if info = 25 then wide 2
      else if info = 26 then wide 4
      else if info = 27 then wide 8
      else if info = 31 ∧ 2 ≤ major ∧ major ≤ 5 then some (⟨major, info, 0⟩, bs)
      else none

/-- The byte that ends an indefinite length. -/
def breakByte : UInt8 := 0xff

/-- Reads the chunks of an indefinite string: definite strings of the same major type. -/
def readChunks (major : Nat) : (fuel : Nat) → List Bytes → Bytes → Option (List Bytes × Bytes)
  | 0, _, _ => none
  | _ + 1, _, [] => none
  | fuel + 1, chunks, b :: bs =>
      if b = breakByte then some (chunks.reverse, bs)
      else match readHead (b :: bs) with
        | none => none
        | some (h, rest) =>
          if h.major ≠ major ∨ h.info = 31 then none
          else match takeBytes h.value rest with
            | none => none
            | some (chunk, rest) => readChunks major fuel (chunk :: chunks) rest

/-- The item of a text string given by its chunks, each of which must be well-formed. -/
def textItem : List Bytes → Item
  | [] => .text ""
  | chunk :: chunks =>
      match Item.ofChunk chunk, textItem chunks with
      | .text s, .text rest => .text (s ++ rest)
      | .text _, bad => bad
      | bad, _ => bad

/-- A reader gives what it read and what is left. -/
abbrev Reader (α : Type) := Bytes → Option (α × Bytes)

/-- Reads a given number of items. -/
def readCount (item : Reader Item) : (count : Nat) → List Item → Reader (List Item)
  | 0, done, bs => some (done.reverse, bs)
  | count + 1, done, bs =>
      match item bs with
      | none => none
      | some (x, rest) => readCount item count (x :: done) rest

/-- Reads items up to a break. -/
def readToBreak (item : Reader Item) : (fuel : Nat) → List Item → Reader (List Item)
  | 0, _, _ => none
  | _ + 1, _, [] => none
  | fuel + 1, done, b :: bs =>
      if b = breakByte then some (done.reverse, bs)
      else match item (b :: bs) with
        | none => none
        | some (x, rest) => readToBreak item fuel (x :: done) rest

/-- Items in turn as keys and values; an odd one out is refused. -/
def pairs : List Item → Option (List (Item × Item))
  | [] => some []
  | [_] => none
  | k :: v :: rest => do
      let more ← pairs rest
      return (k, v) :: more

/-- Reads the contents of a container of which at most `most` items are allowed. -/
def readContents (item : Reader Item) (h : Head) (count most : Nat) : Reader (List Item) :=
  fun bs =>
    if h.info = 31 then do
      let (items, rest) ← readToBreak item bs.length [] bs
      if items.length ≤ most then some (items, rest) else none
    else if count ≤ most then readCount item count [] bs
    else none

/-- Reads an item that is not a tag; `nested` reads the items of a container, if another level
    is allowed. -/
def readPlain (limits : Limits) (nested : Option (Reader Item)) : Reader Item := fun bs => do
  let (h, rest) ← readHead bs
  match h.major with
  | 0 => return (.uint (UInt64.ofNat h.value), rest)
  | 1 => return (.nint (UInt64.ofNat h.value), rest)
  | 2 =>
      let (chunks, rest) ←
        if h.info = 31 then readChunks 2 rest.length [] rest
        else (takeBytes h.value rest).map fun (c, r) => ([c], r)
      return (.bytes chunks.flatten, rest)
  | 3 =>
      let (chunks, rest) ←
        if h.info = 31 then readChunks 3 rest.length [] rest
        else (takeBytes h.value rest).map fun (c, r) => ([c], r)
      return (textItem chunks, rest)
  | 4 =>
      let item ← nested
      let (items, rest) ← readContents item h h.value limits.elements rest
      return (.array items, rest)
  | 5 =>
      let item ← nested
      let (items, rest) ← readContents item h (2 * h.value) (2 * limits.elements) rest
      let entries ← pairs items
      return (.map entries, rest)
  | 7 =>
      if h.info = 25 then return (.half (UInt16.ofNat h.value), rest)
      else if h.info = 26 then return (.single (UInt32.ofNat h.value), rest)
      else if h.info = 27 then return (.double (UInt64.ofNat h.value), rest)
      else return (.simple (UInt8.ofNat h.value), rest)
  | _ => none

/-- Whether the next item is a tag. -/
def startsTag : Bytes → Bool
  | [] => false
  | b :: _ => b.toNat / 32 == 6

/-- Reads a tag whose content is read by `content`. -/
def readTag (content : Reader Item) : Reader Item := fun bs => do
  let (h, rest) ← readHead bs
  let (x, rest) ← content rest
  return (.tag (UInt64.ofNat h.value) x, rest)

/-- The readers when `levels` more levels are allowed: for any item, and for the content of a
    tag, where another tag takes up a level. -/
def readers (limits : Limits) : (levels : Nat) → Reader Item × Reader Item
  | 0 =>
      let plain := readPlain limits none
      let content : Reader Item := fun bs => if startsTag bs then none else plain bs
      (fun bs => if startsTag bs then readTag content bs else plain bs, content)
  | levels + 1 =>
      let inner := readers limits levels
      let plain := readPlain limits (some inner.1)
      let content : Reader Item :=
        fun bs => if startsTag bs then readTag inner.2 bs else plain bs
      (fun bs => if startsTag bs then readTag content bs else plain bs, content)

/-- The item that a byte sequence encodes within given bounds. -/
def decodeWithin (limits : Limits) (bs : Bytes) : Option Item := do
  let (x, rest) ← (readers limits limits.levels).1 bs
  if rest.isEmpty then some x else none

/-- The item that a byte sequence encodes. -/
def decode? (bs : Bytes) : Option Item :=
  decodeWithin .standard bs

end TermVM.Cbor
