/-
  TermVM.Fingerprint

  Fingerprints of terms, and the keys that `vmgen` caches compiled code under
  (`Serialize`, `HashTerm`, `ProcedureKey`).

  A term is written as bytes, depth first, every node behind a tag byte.
  Application chains are written flat, so that nested and flat chains agree.
  Names of binders are left out, except inside quotations, where the term is
  data.

  A key also covers what the generated code depends on: for every global that
  the term mentions, its record in the declaration table and the native analyzer
  registered for it.
-/
import TermVM.Analyzers
import TermVM.DeclTable
import TermVM.Sha256
import TermVM.Term.Spine

namespace TermVM.Fingerprint

/-- The byte that precedes every serialization. -/
def version : UInt8 := 1

/-- A 32-bit word. -/
def word (n : UInt32) : Bytes :=
  bigEndian 4 n.toNat

/-- The length of a list as a 32-bit word. -/
def count (n : Nat) : Bytes :=
  word (UInt32.ofNat n)

/-- A text behind its length. -/
def text (s : String) : Bytes :=
  count (utf8 s).length ++ utf8 s

/-- The name of a binder, written only inside quotations. -/
def binder (quoted : Bool) (name : String) : Bytes :=
  if quoted then text name else []

mutual

/-- The bytes of a flattened term; a term with an absent part has none. -/
def flatBytes? (quoted : Bool) : Term → Option Bytes
  | .absent => none
  | .var index => some (0x01 :: word index)
  | .sort level => some (0x02 :: text level)
  | .mvar name => some (0x03 :: text name)
  | .const name marker =>
      some (0x04 :: (text name ++ (marker.kind.toByte :: word marker.index)))
  | .fvar id _ => some (0x05 :: bigEndian 8 id.toNat)
  | .app fn args => do
      let f ← flatBytes? quoted fn
      let as ← flatBytesOfArgs? quoted args
      return 0x10 :: (count args.length ++ (f ++ as))
  | .lam name body => do
      let b ← flatBytes? quoted body
      return (if quoted then 0x14 else 0x11) :: (binder quoted name ++ b)
  | .pi name domain body => do
      let d ← flatBytes? quoted domain
      let b ← flatBytes? quoted body
      return (if quoted then 0x15 else 0x12) :: (binder quoted name ++ (d ++ b))
  | .letIn bindings body => do
      let vs ← flatBytesOfBindings? quoted bindings
      let b ← flatBytes? quoted body
      return (if quoted then 0x16 else 0x13) :: (count bindings.length ++ (vs ++ b))
  | .nat value => some (0x20 :: text (Text.decimal value))
  | .quote body => do
      let b ← flatBytes? true body
      return 0x21 :: b
  | .ann name body => do
      let b ← flatBytes? quoted body
      return 0x22 :: (text name ++ b)
  | .foreign name args => do
      let as ← flatBytesOfArgs? quoted args
      return 0x23 :: (text name ++ (count args.length ++ as))

/-- The bytes of a list of flattened terms. -/
def flatBytesOfArgs? (quoted : Bool) : List Term → Option Bytes
  | [] => some []
  | t :: ts => do
      let b ← flatBytes? quoted t
      let bs ← flatBytesOfArgs? quoted ts
      return b ++ bs

/-- The bytes of flattened bindings. -/
def flatBytesOfBindings? (quoted : Bool) : List (String × Term) → Option Bytes
  | [] => some []
  | (name, v) :: rest => do
      let b ← flatBytes? quoted v
      let bs ← flatBytesOfBindings? quoted rest
      return binder quoted name ++ (b ++ bs)

end

/-- The complaint about a term with an absent part. -/
def absentPart : String :=
  "hash: unhandled term type <nil>"

/-- The serialization of a term. -/
def serialize? (t : Term) : Option Bytes := do
  let bs ← flatBytes? false t.flattenDeep
  return version :: bs

/-- The hash of a term. -/
def hash? (t : Term) : Option Bytes := do
  let bs ← serialize? t
  return Sha256.digest bs

/-! ## Keys -/

/-- Inserts a name into an ascending list of distinct names. -/
def insertName (name : String) : List String → List String
  | [] => [name]
  | n :: ns =>
      if name < n then name :: n :: ns
      else if name = n then n :: ns
      else n :: insertName name ns

/-- The distinct ordinary globals that a term mentions outside quotations, ascending. -/
def globals (t : Term) : List String :=
  t.constants.foldl (fun names c => if c.2.kind = .plain then insertName c.1 names else names) []

/-- The bytes of what a key covers about one global. -/
def record (table : DeclTable) (analyzers : Option Analyzers) (name : String) : Bytes :=
  let decl := match table.lookup? name with
    | some d => 0x31 :: (d.kind.toByte :: (word d.index ++ word d.arity))
    | none => [0x33]
  let analyzer := match analyzers.bind (·.lookup? name) with
    | some a => 0x32 :: (word a.index ++ word a.alternatives)
    | none => [0x33]
  text name ++ (decl ++ analyzer)

/-- The bytes that the key of a term is the digest of. -/
def keyBytes? (t : Term) (table : DeclTable) (analyzers : Option Analyzers) : Option Bytes := do
  let bs ← flatBytes? false t.flattenDeep
  let names := globals t
  return version :: 0x30 :: (bs ++ (count names.length ++ names.flatMap (record table analyzers)))

/-- The key of a term against a table and a registry, in hexadecimal. -/
def key? (t : Term) (table : DeclTable) (analyzers : Option Analyzers) : Option String := do
  let bs ← keyBytes? t table analyzers
  return Text.hex (Sha256.digest bs)

end TermVM.Fingerprint
