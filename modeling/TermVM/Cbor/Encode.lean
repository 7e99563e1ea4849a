/-
  TermVM.Cbor.Encode

  The canonical encoding in which `vmgen` writes data items: definite lengths
  and the shortest head for every number.  Entries of a map are written in the
  order given; callers list them by ascending key.
-/
import TermVM.Cbor.Item

namespace TermVM

/-- The `width` low bytes of a number, most significant first. -/
def bigEndian : (width : Nat) → Nat → Bytes
  | 0, _ => []
  | width + 1, n => UInt8.ofNat (n >>> (8 * width)) :: bigEndian width n

namespace Cbor

/-- A head: the major type and the shortest form of its argument.  A length of more than 64 bits has
    no form; the byte that stands in for it is reserved, and no reader goes past it. -/
def head (major : UInt8) (n : Nat) : Bytes :=
  if n < 24 then [major * 32 + UInt8.ofNat n]
  else if n < UInt8.size then (major * 32 + 24) :: bigEndian 1 n
  else if n < UInt16.size then (major * 32 + 25) :: bigEndian 2 n
  else if n < UInt32.size then (major * 32 + 26) :: bigEndian 4 n
  else if n < UInt64.size then (major * 32 + 27) :: bigEndian 8 n
  else [major * 32 + 28]

namespace Item

mutual

/-- The canonical encoding of an item. -/
def encode : Item → Bytes
  | uint n => head 0 n.toNat
  | nint n => head 1 n.toNat
  | bytes content => head 2 content.length ++ content
  | text content => head 3 (utf8 content).length ++ utf8 content
  | badText chunk _ => head 3 chunk.length ++ chunk
  | array items => head 4 items.length ++ encodeItems items
  | map entries => head 5 entries.length ++ encodeEntries entries
  | tag number content => head 6 number.toNat ++ content.encode
  | simple n => head 7 n.toNat
  | half bits => 0xf9 :: bigEndian 2 bits.toNat
  | single bits => 0xfa :: bigEndian 4 bits.toNat
  | double bits => 0xfb :: bigEndian 8 bits.toNat

/-- The encodings of a list of items, one after the other. -/
def encodeItems : List Item → Bytes
  | [] => []
  | x :: xs => x.encode ++ encodeItems xs

/-- The encodings of keys and values in turn. -/
def encodeEntries : List (Item × Item) → Bytes
  | [] => []
  | (k, v) :: rest => k.encode ++ (v.encode ++ encodeEntries rest)

end

end Item

end Cbor

end TermVM
