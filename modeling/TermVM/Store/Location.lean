/-
  TermVM.Store.Location

  Names of the databases that `vmgen` keeps durable stores in.  A name is a
  path, or `file:` and a path with escapes; parameters may follow a question
  mark.
-/
import TermVM.Text.Percent
import TermVM.Text.Prefixed

namespace TermVM.Store

/-! ## Numbers and switches -/

/-- The digits of a hexadecimal number with its mark. -/
def hexDigits? : List Char → Option (List Char)
  | '0' :: mark :: d :: ds =>
      if (mark == 'x' || mark == 'X') && (d :: ds).all fun c => (Text.digitValue? c).any (· < 16) then
        some (d :: ds)
      else none
  | _ => none

/-- The number of digits in a base. -/
def ofDigits (base : Nat) (ds : List Char) : Nat :=
  ds.foldl (fun n c => base * n + (Text.digitValue? c).getD 0) 0

/-- The number that characters are, with nothing around it. -/
def wholeNumber? (cs : List Char) : Option Nat :=
  match hexDigits? cs with
  | some ds => some (ofDigits 16 ds)
  | none => if !cs.isEmpty && cs.all Char.isDigit then some (ofDigits 10 cs) else none

/-- The number that characters start with, if it has 31 bits at most. -/
def leadingNumber? (cs : List Char) : Option Nat :=
  let n := match hexDigits? cs with
    | some ds => ofDigits 16 ds
    | none => ofDigits 10 (cs.takeWhile Char.isDigit)
  if cs.head?.any Char.isDigit && n < Nat.pow 2 31 then some n else none

/-- Whether a text switches something on.  Of a number the last eight bits count. -/
def isOn (text : String) : Bool :=
  (leadingNumber? text.toList).any (· % 256 != 0) || ["on", "yes", "true"].contains text.toLower

/-! ## What the parameters of a name ask for -/

/-- How a database is opened. -/
inductive OpenMode where
  | readOnly
  /-- The file has to be there. -/
  | existing
  | create
  | memory
  deriving DecidableEq, Repr

namespace OpenMode

/-- The place of a mode among those that allow more and more. -/
def rank : OpenMode → Nat
  | readOnly => 1
  | existing => 2
  | create => 3
  | memory => 4

/-- The mode of a word. -/
def ofWord? (bs : Bytes) : Option OpenMode :=
  ([("ro", readOnly), ("rw", existing), ("rwc", create), ("memory", memory)].find?
    fun e => utf8 e.1 == bs).map (·.2)

end OpenMode

/-- What the parameters of a name with `file:` ask for. -/
structure Request where
  mode : OpenMode
  /-- The way to reach files, if one is named. -/
  via : Option Bytes
  /-- Whether the file is said never to change. -/
  immutable : Option Bool
  /-- A file whose permissions are taken over. -/
  like : Option String
  deriving DecidableEq, Repr

/-- A request without parameters. -/
def Request.plain : Request := ⟨.create, none, none, none⟩

/-- Takes in one parameter.  A mode may not allow more than the one before, but memory always does. -/
def Request.take? (r : Request) (parameter : Bytes × Bytes) : Option Request :=
  let (name, value) := parameter
  if name = utf8 "vfs" then some { r with via := some value }
  else if name = utf8 "cache" then
    if value = utf8 "shared" ∨ value = utf8 "private" then some r else none
  else if name = utf8 "mode" then do
    let mode ← OpenMode.ofWord? value
    if mode = .memory ∨ mode.rank ≤ r.mode.rank then some { r with mode := mode } else none
  else if name = utf8 "immutable" then
    some { r with immutable := r.immutable <|> some (isOn (Text.lossy value)) }
  else if name = utf8 "modeof" then some { r with like := r.like <|> some (Text.lossy value) }
  else some r

/-- The ways to reach files. -/
def ways : List String := ["unix", "unix-dotfile", "unix-excl", "unix-none", "memdb"]

/-- The value that all values of a parameter agree on; an empty one only stands before the others. -/
def agreed? (values : List Bytes) : Option Bytes :=
  values.foldlM (fun seen v => if seen.isEmpty ∨ seen = v then some v else none) []

/-! ## The file of a name -/

/-- The text before a name that has escapes. -/
def marker : Bytes := utf8 "file:"

/-- A name and the parameters after its question mark.  A question mark at its start is part of it. -/
def splitName (bs : Bytes) : Bytes × Bytes :=
  if bs.head? = some '?'.toUInt8 then (bs, []) else Text.cutAt '?'.toUInt8 bs

/-- The file and the request of a name with escapes, without its marker.  What follows a number sign
    does not count, nor do parameters without a name. -/
def readEscaped? (bs : Bytes) : Option (Bytes × Request) := do
  let (path, parameters) := Text.cutAt '?'.toUInt8 (bs.takeWhile (· != '#'.toUInt8))
  let pairs := (Text.splitAt '&'.toUInt8 parameters).map fun part =>
    let (name, value) := Text.cutAt '='.toUInt8 part
    (Text.unescapeToZero name, Text.unescapeToZero value)
  let request ← (pairs.filter fun p => !p.1.isEmpty).foldlM Request.take? .plain
  return (Text.unescapeToZero path, request)

/-- Where a database is kept. -/
inductive Location where
  /-- Nowhere: it goes away when it is closed. -/
  | transient
  | file (path : String) (request : Request)
  deriving DecidableEq, Repr

/-- The location that a name stands for.  There is none if its parameters cannot be met; a store that
    could only be read is of no use. -/
def Location.ofName? (name : String) : Option Location := do
  let bs := utf8 name
  let (front, parameters) := splitName bs
  let via ← agreed? (Text.valuesOf "vfs" (← Text.parameters? parameters))
  let (path, request) ←
    if marker.isPrefixOf bs then readEscaped? ((bs.drop marker.length).takeWhile (· != 0))
    else some (front.takeWhile (· != 0), .plain)
  let via := request.via.getD (if via.isEmpty then utf8 "unix" else via)
  if (ways.map utf8).contains via ∧ request.mode ≠ .readOnly then
    if request.mode = .memory ∨ path.isEmpty ∨ path = utf8 ":memory:" then some .transient
    else if via = utf8 "memdb" then
      if request.immutable.getD false then none else some .transient
    else some (.file (Text.lossy path) request)
  else none

end TermVM.Store
