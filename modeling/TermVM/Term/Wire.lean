/-
  TermVM.Term.Wire

  The byte form of `vmgen`'s terms (`MarshalTerm`, `UnmarshalTerm`): a node is a
  record of nine numbered fields, of which all but the kind are left out when
  they are zero or empty.

  Reading happens in two stages.  The bytes are first read as a node, which may
  be refused; the node is then turned into a term, which may be malformed.
-/
import TermVM.Cbor.Encode
import TermVM.Cbor.Field
import TermVM.Term.Node

namespace TermVM

namespace Node

open Cbor

/-! ## Writing -/

section

variable {ν : Type} [DecidableEq ν] [Spelling ν]

mutual

/-- The item of a node. -/
def toItem : Node ν → Item
  | { kind, name, index, marker, kids, names, extension, num, id } =>
      .map <|
        [entry 1 (.uint kind.toUInt64)]
        ++ entryIf (name != Spelling.blank) 2 (Spelling.item name)
        ++ entryIf (index != 0) 3 (.uint index.toUInt64)
        ++ entryIf (marker != 0) 4 (.uint marker.toUInt64)
        ++ entryIf (!kids.isEmpty) 5 (.array (toItems kids))
        ++ entryIf (!names.isEmpty) 6 (.array (names.map Spelling.item))
        ++ entryIf (extension != 0) 7 (.uint extension.toUInt64)
        ++ entryIf (num != "") 8 (.text num)
        ++ entryIf (id != 0) 9 (.uint id)

/-- The items of a list of nodes. -/
def toItems : List (Node ν) → List Item
  | [] => []
  | n :: ns => toItem n :: toItems ns

end

end

/-! ## Reading -/

mutual

/-- The node of an item. -/
def ofItem? : Item → Option Node
  | .map entries => ofEntries? entries [] {}
  | .tag number content => if number.toNat ≤ 3 then none else ofItem? content
  | .simple n => if n = 22 ∨ n = 23 then some {} else none
  | _ => none

/-- Reads the entries of a node in order; the first occurrence of a field counts. -/
def ofEntries? : List (Item × Item) → (seen : List Nat) → Node → Option Node
  | [], _, node => some node
  | (k, v) :: rest, seen, node =>
      match Key.ofItem k with
      | .refused => none
      | .unknown => ofEntries? rest seen node
      | .field n =>
        if n ∈ seen then ofEntries? rest seen node
        else match n with
          | 1 => do
              let x ← v.toByte?
              ofEntries? rest (n :: seen) { node with kind := x }
          | 2 => do
              let x ← v.toText?
              ofEntries? rest (n :: seen) { node with name := x }
          | 3 => do
              let x ← v.toWord?
              ofEntries? rest (n :: seen) { node with index := x }
          | 4 => do
              let x ← v.toByte?
              ofEntries? rest (n :: seen) { node with marker := x }
          | 5 => do
              let x ← kidsOfItem? v
              ofEntries? rest (n :: seen) { node with kids := x }
          | 6 => do
              let x ← v.toListOf? Item.toText?
              ofEntries? rest (n :: seen) { node with names := x }
          | 7 => do
              let x ← v.toByte?
              ofEntries? rest (n :: seen) { node with extension := x }
          | 8 => do
              let x ← v.toText?
              ofEntries? rest (n :: seen) { node with num := x }
          | 9 => do
              let x ← v.toLong?
              ofEntries? rest (n :: seen) { node with id := x }
          | _ => ofEntries? rest seen node

/-- The children in a field value. -/
def kidsOfItem? : Item → Option (List Node)
  | .array items => ofItems? items
  | .tag number content => if number.toNat ≤ 3 then none else kidsOfItem? content
  | .simple n => if n = 22 ∨ n = 23 then some [] else none
  | _ => none

/-- The nodes of a list of items. -/
def ofItems? : List Item → Option (List Node)
  | [] => some []
  | x :: xs => do
      let n ← ofItem? x
      let ns ← ofItems? xs
      return n :: ns

end

end Node

namespace Term

/-- Why bytes are no term. -/
inductive WireError where
  | refused
  | malformed (defect : Node.Malformed)
  deriving DecidableEq, Repr

/-- The bytes of a term; a term with an absent part has none. -/
def encode? {ν : Type} [DecidableEq ν] [Spelling ν] (t : Term ν) : Option Bytes := do
  let n ← Node.ofTerm? t
  return n.toItem.encode

/-- The complaint about a term with an absent part. -/
def absentPart : String :=
  "ir: cannot encode <nil>"

/-- The term of a byte sequence. -/
def decode (bs : Bytes) : Except WireError Term := do
  let n ← Cbor.orRefuse .refused ((Cbor.decode? bs).bind Node.ofItem?)
  n.toTerm.mapError .malformed

end Term

end TermVM
