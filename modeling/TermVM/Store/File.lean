/-
  TermVM.Store.File

  `vmgen`'s durable stores in a tree of files.  A database file is a word and a
  list of rows; a file of one byte or none is an empty database.
-/
import TermVM.Cbor.Decode
import TermVM.Cbor.Encode
import TermVM.Cbor.Field
import TermVM.FileTree
import TermVM.Store
import TermVM.Store.Location
import TermVM.Store.Setting

namespace TermVM.Store

open Cbor

/-! ## Rows as bytes -/

/-- An arity as it is written. -/
def arityItem : Int → Item
  | .ofNat n => .uint (UInt64.ofNat n)
  | .negSucc n => .nint (UInt64.ofNat n)

/-- The arity of an item. -/
def arityOfItem? : Item → Option Int
  | .uint n => some n.toNat
  | .nint n => some (-1 - (n.toNat : Int))
  | _ => none

/-- A keyed row as an item. -/
def rowItem (e : String × Row) : Item :=
  .array [.text e.1, arityItem e.2.arity, .bytes e.2.code]

/-- The keyed row of an item. -/
def rowOfItem? : Item → Option (String × Row)
  | .array [.text key, arity, .bytes code] => (arityOfItem? arity).map fun n => (key, ⟨n, code⟩)
  | _ => none

/-- The word that a database file starts with. -/
def fileWord : String := "procedures"

/-- The content of a database file. -/
def encodeRows (rows : Entries Row) : Bytes :=
  (Item.array [.text fileWord, .array (rows.map rowItem)]).encode

/-- Whether a file is still to become a database. -/
def isBlankFile (bs : Bytes) : Bool := bs.length ≤ 1

/-- The rows of a database file. -/
def decodeRows? (bs : Bytes) : Option (Entries Row) :=
  if isBlankFile bs then some []
  else match Cbor.decode? bs with
    | some (.array [.text word, .array xs]) => if word = fileWord then xs.mapM rowOfItem? else none
    | _ => none

/-! ## Opening and saving -/

/-- Why a store cannot be opened. -/
inductive OpenError where
  | directory (failure : FileTree.Failure)
  /-- The name asks for what cannot be, or leads to something that is no database. -/
  | notDatabase
  deriving DecidableEq, Repr

/-- The text of an error, where it is fixed. -/
def OpenError.message? : OpenError → Option String
  | directory failure => some ("creating cache directory: " ++ failure.message)
  | notDatabase => none

/-- The most bytes in the absolute path of a database. -/
def maxDatabasePath : Nat := 504

/-- The journal of a database file. -/
def journalPath (path : String) : String := path ++ "-journal"

/-- The log of a database file that is written ahead. -/
def logPath (path : String) : String := path ++ "-wal"

/-- Whether a file can be at a path. -/
def isFilePath (t : FileTree) (path : String) : Bool :=
  match t.place path with
  | .ok p => t.entry? p != some .directory
  | .error _ => false

/-- Writes a durable store to its file. -/
def save (s : Store) (t : FileTree) : FileTree :=
  match s with
  | memory _ => t
  | durable db =>
      match Location.ofName? db.path with
      | some (.file path _) =>
          (t.write (Path.absolute (Path.render true t.cwd) path) (encodeRows db.rows)).toOption.getD t
      | _ => t

/-- Removes what an earlier database of that name has left in a file beside its own.  An empty file is
    not taken for that. -/
def removeLeftover (t : FileTree) (path : String) : FileTree :=
  match t.read path with
  | .ok (_ :: _) => t.remove path
  | _ => t

/-- What the journal of a database leaves once the database has been written. -/
def finishJournal (t : FileTree) (journal : String) (ss : Settings) : FileTree :=
  if ss.leavesJournal then (t.write journal []).toOption.getD t
  else if ss.usesJournalFile then t.remove journal
  else t

/-- Makes the table of a database in an empty file. -/
def makeTable (t : FileTree) (name path : String) (ss : Settings) (request : Request) :
    FileTree × Except OpenError Store :=
  let journal := journalPath path
  let t := removeLeftover (removeLeftover t journal) (logPath path)
  if ss.queryOnly || request.immutable.getD false || (ss.usesJournalFile && !isFilePath t journal) then
    (t, .error .notDatabase)
  else
    let t := finishJournal t journal ss
    if ss.hasRoom then ((atPath name).save t, .ok (atPath name)) else (t, .error .notDatabase)

/-- Uses a database file with some content. -/
def useFile (t : FileTree) (name path : String) (request : Request) (content : Bytes) :
    FileTree × Except OpenError Store :=
  match settingsOf? t name, decodeRows? content with
  | some ss, some rows =>
      if isBlankFile content then makeTable t name path ss request
      else if ss.queryOnly || request.immutable.getD false then (t, .error .notDatabase)
      else (t, .ok (.durable ⟨name, rows, true⟩))
  | _, _ => (t, .error .notDatabase)

/-- Opens a database file that is there, or makes it.  A file that was made stays even if it cannot
    be used. -/
def openFile (t : FileTree) (name path : String) (request : Request) :
    FileTree × Except OpenError Store :=
  if maxDatabasePath < path.utf8ByteSize ∨ request.like.any (fun p => (t.stat? p).isNone) then
    (t, .error .notDatabase)
  else match t.stat? path with
    | some (.file content) => useFile t name path request content
    | some _ => (t, .error .notDatabase)
    | none =>
        match t.write path [], request.mode with
        | .ok t, .create => useFile t name path request []
        | _, _ => (t, .error .notDatabase)

/-- Opens a database that is kept nowhere. -/
def openTransient (t : FileTree) (name : String) : Except OpenError Store :=
  match settingsOf? t name with
  | some ss => if !ss.queryOnly && ss.hasRoom then .ok (atPath name) else .error .notDatabase
  | none => .error .notDatabase

/-- Opens the store of a name.  The directory that the name seems to be in is made first. -/
def openIn (t : FileTree) (name : String) : FileTree × Except OpenError Store :=
  if name = "" then (t, .ok inMemory)
  else
    let dir := Path.directory name
    match if dir = "." then (t, none) else t.makePath dir with
    | (t, some failure) => (t, .error (.directory failure))
    | (t, none) =>
        match Location.ofName? name with
        | none => (t, .error .notDatabase)
        | some .transient => (t, openTransient t name)
        | some (.file path request) =>
            openFile t name (Path.absolute (Path.render true t.cwd) path) request

end TermVM.Store
