/-
  TermVM.Toml.Document

  Documents: the table that the statements of a TOML text such as `vmgen.toml`
  define.

  Tables come into being in three ways: by a header, by an assignment, and by
  implication, where a dotted name runs through them.  A table that so far is
  only implied may be defined once more.  The last element of an array of tables
  is the one that later names run through.
-/
import TermVM.Cbor.Item
import TermVM.Toml.Statement

namespace TermVM.Toml

/-- The names that lead to a value. -/
abbrev Path := List String

/-- A value under construction: tables can still grow, other values are complete. -/
inductive Node where
  | leaf (value : Value)
  | table (entries : List (String × Node))
  | tables (elements : List (List (String × Node)))
  deriving Repr, Inhabited

namespace Node

mutual

/-- The value of a node. -/
def toValue : Node → Value
  | leaf v => v
  | table es => .table (toEntries es)
  | tables ts => .array (toTables ts)

/-- The entries of a table under construction. -/
def toEntries : List (String × Node) → Entries
  | [] => []
  | (k, n) :: es => (k, n.toValue) :: toEntries es

/-- The tables of an array of tables. -/
def toTables : List (List (String × Node)) → List Value
  | [] => []
  | t :: ts => .table (toEntries t) :: toTables ts

end

mutual

/-- The node of a value; tables in it can grow. -/
def ofValue : Value → Node
  | .table es => table (ofEntries es)
  | v => leaf v

/-- The nodes of entries. -/
def ofEntries : Entries → List (String × Node)
  | [] => []
  | (k, v) :: es => (k, ofValue v) :: ofEntries es

end

end Node

/-- The entries of a table under construction. -/
abbrev Nodes := List (String × Node)

namespace Nodes

/-- The node of a name. -/
def get? (es : Nodes) (name : String) : Option Node :=
  (es.find? fun e => e.1 == name).map (·.2)

/-- Sets the node of a name, in its place if it has one. -/
def set (name : String) (n : Node) : Nodes → Nodes
  | [] => [(name, n)]
  | e :: es => if e.1 = name then (name, n) :: es else e :: set name n es

/-- The table that a path leads to.  A path runs through tables and through the last elements of
    arrays of tables. -/
def at? : Path → Nodes → Option Nodes
  | [], es => some es
  | name :: path, es =>
      match es.get? name with
      | some (.table inner) => at? path inner
      | some (.tables ts) => ts.getLast?.bind (at? path)
      | _ => none

/-- Changes the table that a path leads to. -/
def update? (f : Nodes → Option Nodes) : Path → Nodes → Option Nodes
  | [], es => f es
  | name :: path, es =>
      match es.get? name with
      | some (.table inner) => (update? f path inner).map fun t => es.set name (.table t)
      | some (.tables ts) =>
          match ts.getLast? with
          | some inner =>
              (update? f path inner).map fun t => es.set name (.tables (ts.dropLast ++ [t]))
          | none => none
      | _ => none

end Nodes

/-- A document under construction. -/
structure Document where
  root : Nodes
  /-- Where assignments go. -/
  context : Path
  /-- Tables that are there by implication only. -/
  implied : List Path
  /-- Names that were last given an array. -/
  arrays : List Path
  deriving Repr, Inhabited

namespace Document

/-- A document without statements. -/
def empty : Document := ⟨[], [], [], []⟩

/-- Notes that a table is implied. -/
def imply (d : Document) (p : Path) : Document :=
  { d with implied := p :: d.implied.filter (· != p) }

/-- Notes that a table is no longer only implied. -/
def settle (d : Document) (p : Path) : Document :=
  { d with implied := d.implied.filter (· != p) }

/-- The path that the kind of a name's value is noted under.  An empty name stands for its table. -/
def kindPath (context : Path) (name : String) : Path :=
  if name = "" then if context.isEmpty then [""] else context
  else context ++ [name]

/-- Notes whether a name was given an array. -/
def noteArray (d : Document) (name : String) (isArray : Bool) : Document :=
  let p := kindPath d.context name
  let others := d.arrays.filter (· != p)
  { d with arrays := if isArray then p :: others else others }

/-- Sets a name of the current table. -/
def set? (d : Document) (name : String) (n : Node) : Option Document := do
  let root ← d.root.update? (fun es => some (es.set name n)) d.context
  return { d with root := root }

/-- Gives a name of the current table a value.  A name that has one may be given another only while it
    is implied: an array then takes the place of what its items have left, anything else keeps what
    is there. -/
def define? (d : Document) (name : String) (n : Node) : Option Document := do
  let p := d.context ++ [name]
  let table ← d.root.at? d.context
  match table.get? name with
  | none => d.set? name n
  | some _ =>
      if d.implied.contains p then
        if d.arrays.contains p then
          let d ← d.set? name n
          return d.settle p
        else return d.settle p
      else none

/-- Makes sure that every table on a path is there, implying those that are not. -/
def openParents? (d : Document) : (done : Path) → Path → Option Document
  | _, [] => some d
  | done, name :: path => do
      let p := done ++ [name]
      let table ← d.root.at? done
      match table.get? name with
      | some (.leaf _) => none
      | some _ => openParents? d p path
      | none => do
          let d ← { d with context := done }.set? name (.table [])
          openParents? (d.imply p) p path

/-- Adds an element to an array of tables, which is made if it is not there. -/
def addElement? (name : String) (es : Nodes) : Option Nodes :=
  match es.get? name with
  | none => some (es.set name (.tables [[]]))
  | some (.tables ts) => some (es.set name (.tables (ts ++ [[]])))
  | some _ => none

/-- Makes the table that a key names the current one: a new element of an array of tables, or a table
    that is defined by this. -/
def enter? (d : Document) (key : Path) (isElement : Bool) : Option Document := do
  let parents := key.dropLast
  let name ← key.getLast?
  let d ← d.openParents? [] parents
  let d := { d with context := parents }
  let d ← if isElement then do
      let root ← d.root.update? (addElement? name) parents
      pure { d with root := root }
    else d.define? name (.table [])
  return { d with context := key }

/-- Enters the tables that a dotted key runs through, implying each. -/
def enterImplied? (d : Document) : Path → Option Document
  | [] => some d
  | name :: path => do
      let p := d.context ++ [name]
      let d ← (d.imply p).enter? p false
      d.enterImplied? path

/-- Sets a name in the table that a path of an inline table leads to; tables on the way are made. -/
def setInline? (name : String) (v : Value) : Path → Entries → Option Entries
  | [], es => some (put name v es)
  | part :: path, es =>
      match es.find? fun e => e.1 == part with
      | none => (setInline? name v path []).map fun t => put part (.table t) es
      | some (_, .table inner) =>
          (setInline? name v path inner).map fun t => put part (.table t) es
      | some _ => none
where
  /-- Sets the value of a name, in its place if it has one. -/
  put (name : String) (v : Value) : Entries → Entries
    | [] => [(name, v)]
    | e :: es => if e.1 = name then (name, v) :: es else e :: put name v es

mutual

/-- Takes in a value that a name of the current table is about to get. -/
def evaluate? (d : Document) (name : String) (inArray : Bool) : Expr → Option (Value × Document)
  | .value v => some (v, d)
  | .array items => do
      let (vs, d) ← evaluateItems? (d.noteArray name true) name items
      return (.array vs, d)
  | .inline pairs => do
      let p := d.context ++ [name]
      let inner ← (d.imply p).enter? p inArray
      let (es, inner) ← evaluatePairs? inner p [] pairs
      return (.table es, { inner with context := d.context })

/-- Takes in the items of an array. -/
def evaluateItems? (d : Document) (name : String) : List Expr → Option (List Value × Document)
  | [] => some ([], d)
  | e :: es => do
      let (v, d) ← evaluate? d name true e
      let (vs, d) ← evaluateItems? d name es
      return (v :: vs, d)

/-- Takes in the assignments of the inline table at a path; `entries` is its value so far. -/
def evaluatePairs? (d : Document) (table : Path) (entries : Entries) :
    List (Path × Expr) → Option (Entries × Document)
  | [] => some (entries, d)
  | (key, e) :: rest => do
      let name ← key.getLast?
      let d ← d.enterImplied? key.dropLast
      let (v, d) ← evaluate? d name false e
      let d ← d.define? name (.ofValue v)
      let d := d.noteArray name (v matches .array _)
      let entries ← setInline? name v key.dropLast entries
      evaluatePairs? { d with context := table } table entries rest

end

/-- Takes in one statement. -/
def take? (d : Document) : Statement → Option Document
  | .header key => do
      let d ← d.enter? key false
      return d.noteArray "" false
  | .arrayHeader key => do
      let d ← d.enter? key true
      return d.noteArray "" false
  | .assign key e => do
      let outer := d.context
      let name ← key.getLast?
      let d ← d.enterImplied? key.dropLast
      let (v, d) ← evaluate? d name false e
      let d ← d.define? name (.ofValue v)
      let d := d.noteArray name (v matches .array _)
      return { d with context := outer }

/-- The table of a list of statements. -/
def ofStatements? (ss : List Statement) : Option Entries := do
  let d ← ss.foldlM take? empty
  return Node.toEntries d.root

end Document

/-- A text without the mark of its encoding. -/
def dropByteOrderMark : Bytes → Bytes
  | 0xff :: 0xfe :: bs | 0xfe :: 0xff :: bs => bs
  | 0xef :: 0xbb :: 0xbf :: bs => bs
  | bs => bs

/-- The table of a TOML text. -/
def decode? (bs : Bytes) : Option Entries := do
  let s ← ofUtf8? (dropByteOrderMark bs)
  let ss ← Statement.read? s.toList
  Document.ofStatements? ss

end TermVM.Toml
