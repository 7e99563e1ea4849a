/-
  TermVM.Cbor.Item

  Data items of the Concise Binary Object Representation, in which `vmgen` keeps
  terms, code and messages: the tree that an encoder writes and a decoder reads.
  How lengths were spelled, and how a string was cut into chunks, is not part of
  an item.
-/

namespace TermVM

/-- A sequence of bytes. -/
abbrev Bytes := List UInt8

/-- The bytes of a text. -/
def utf8 (s : String) : Bytes :=
  s.toByteArray.data.toList

/-- The text of a sequence of bytes, if they are well-formed. -/
def ofUtf8? (bs : Bytes) : Option String :=
  String.fromUTF8? ⟨bs.toArray⟩

theorem ofUtf8?_utf8 (s : String) : ofUtf8? (utf8 s) = some s := by
  have h : (⟨(utf8 s).toArray⟩ : ByteArray) = s.toByteArray := by simp [utf8]
  unfold ofUtf8? String.fromUTF8?
  rw [h, dif_pos s.isValidUTF8]
  rfl

theorem utf8_of_ofUtf8? {bs : Bytes} {s : String} (h : ofUtf8? bs = some s) : utf8 s = bs := by
  unfold ofUtf8? String.fromUTF8? at h
  split at h
  next =>
    obtain rfl := Option.some.inj h
    rfl
  next => cases h

namespace Cbor

/-- A data item. -/
inductive Item where
  /-- An unsigned integer. -/
  | uint (n : UInt64)
  /-- The negative integer `-1 - n`. -/
  | nint (n : UInt64)
  | bytes (content : Bytes)
  | text (content : String)
  /-- A text string that is not well-formed, known by the first of its chunks that is not. -/
  | badText (chunk : Bytes) (malformed : ofUtf8? chunk = none)
  | array (items : List Item)
  | map (entries : List (Item × Item))
  | tag (number : UInt64) (content : Item)
  /-- A simple value; false, true, null and undefined are 20 to 23. -/
  | simple (n : UInt8)
  | half (bits : UInt16)
  | single (bits : UInt32)
  | double (bits : UInt64)
  deriving Repr, Inhabited

namespace Item

/-- The null item. -/
def null : Item := .simple 22

/-- Whether an item is null or undefined. -/
def isNull : Item → Bool
  | simple n => n == 22 || n == 23
  | _ => false

/-- The item of a string that is one chunk of bytes. -/
def ofChunk (bs : Bytes) : Item :=
  match h : ofUtf8? bs with
  | some s => .text s
  | none => .badText bs h

theorem ofChunk_of_some {bs : Bytes} {s : String} (h : ofUtf8? bs = some s) :
    ofChunk bs = .text s := by
  unfold ofChunk
  split <;> simp_all

theorem ofChunk_of_none {bs : Bytes} (h : ofUtf8? bs = none) : ofChunk bs = .badText bs h := by
  unfold ofChunk
  split <;> simp_all

end Item

end Cbor

/-- A type of names.  Names are written as text strings, whether or not they are text. -/
class Spelling (ν : Type) where
  /-- The name without characters. -/
  blank : ν
  /-- What a name is written as. -/
  item : ν → Cbor.Item
  item_blank : item blank = .text ""

instance : Spelling String := ⟨"", .text, rfl⟩

instance : Spelling Bytes := ⟨[], .ofChunk, Cbor.Item.ofChunk_of_some (ofUtf8?_utf8 "")⟩

end TermVM
