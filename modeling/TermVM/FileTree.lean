/-
  TermVM.FileTree

  The files that a run of `vmgen` can see: absolute places hold files,
  directories or devices, and relative paths start at a working directory.
-/
import TermVM.Cbor.Item
import TermVM.Path

namespace TermVM

/-- The names that lead from the root to a file or directory. -/
abbrev Place := List String

namespace FileTree

/-- A device that keeps nothing: reading it gives no bytes. -/
inductive Device where
  /-- Takes all that is written. -/
  | null
  /-- Never has room. -/
  | full
  deriving DecidableEq, Repr

/-- What a place holds. -/
inductive Entry where
  | file (content : Bytes)
  | directory
  | device (kind : Device)
  /-- A stream of the process, with what has been written to it as to a file. -/
  | stream (written : Bytes)
  deriving DecidableEq, Repr

/-- Why a place cannot be used. -/
inductive Trouble where
  | noEntry
  | notDirectory
  | isDirectory
  | nameTooLong
  /-- A path with a zero character. -/
  | invalidPath
  | noSpace
  deriving DecidableEq, Repr

/-- The text of a trouble. -/
def Trouble.text : Trouble → String
  | noEntry => "no such file or directory"
  | notDirectory => "not a directory"
  | isDirectory => "is a directory"
  | nameTooLong => "file name too long"
  | invalidPath => "invalid argument"
  | noSpace => "no space left on device"

/-- What was tried, on which path, and the trouble it met. -/
structure Failure where
  action : String
  path : String
  trouble : Trouble
  deriving DecidableEq, Repr

/-- The text of a failure. -/
def Failure.message (f : Failure) : String :=
  f.action ++ " " ++ f.path ++ ": " ++ f.trouble.text

end FileTree

/-- Files and directories by place, and the working directory.  The root is always there. -/
structure FileTree where
  entries : List (Place × FileTree.Entry)
  cwd : Place
  deriving DecidableEq, Repr

namespace FileTree

/-- Only the root. -/
def empty : FileTree := ⟨[], []⟩

/-- The place of standard output. -/
def stdout : Place := ["dev", "stdout"]

/-- The place of standard error. -/
def stderr : Place := ["dev", "stderr"]

/-- The places that are there before any file is: the devices, and the directory for temporary files. -/
def standard : FileTree where
  entries := [(["dev"], .directory), (["dev", "null"], .device .null), (["dev", "full"], .device .full),
    (stdout, .stream []), (stderr, .stream []), (["tmp"], .directory)]
  cwd := []

/-- What stands at a place. -/
def entry? (t : FileTree) (p : Place) : Option Entry :=
  if p.isEmpty then some .directory
  else (t.entries.find? fun e => e.1 == p).map (·.2)

/-- Takes away what stands at a place. -/
def erase (t : FileTree) (p : Place) : FileTree :=
  { t with entries := t.entries.filter fun x => x.1 != p }

/-- Puts an entry at a place, instead of what stood there. -/
def set (t : FileTree) (p : Place) (e : Entry) : FileTree :=
  { t with entries := (t.erase p).entries ++ [(p, e)] }

/-- The names in a directory. -/
def names (t : FileTree) (dir : Place) : List String :=
  t.entries.filterMap fun e =>
    match e.1.getLast? with
    | some name => if e.1.dropLast == dir then some name else none
    | none => none

/-- Makes every directory on the way to a place, and the place itself; what is in the way is returned. -/
def makeDirectories (t : FileTree) : (done : Place) → Place → Except Place FileTree
  | _, [] => .ok t
  | done, name :: rest =>
      let p := done ++ [name]
      match t.entry? p with
      | some .directory => t.makeDirectories p rest
      | some _ => .error p
      | none => (t.set p .directory).makeDirectories p rest

/-- Adds a file and the directories it is in. -/
def add (t : FileTree) (p : Place) (content : Bytes) : FileTree :=
  match t.makeDirectories [] p.dropLast with
  | .ok t => t.set p (.file content)
  | .error _ => t

/-! ## Paths -/

/-- The most bytes of a name. -/
def maxName : Nat := 255

/-- The most bytes of a path. -/
def maxPath : Nat := 4095

/-- Follows the parts of a path from a place.  Every part but the last has to be a directory. -/
def follow (t : FileTree) : Place → List String → Except Trouble Place
  | here, [] => .ok here
  | here, part :: rest =>
      match t.entry? here with
      | none => .error .noEntry
      | some .directory =>
          if part = "" ∨ part = "." then t.follow here rest
          else if part = ".." then t.follow here.dropLast rest
          else if maxName < part.utf8ByteSize then .error .nameTooLong
          else t.follow (here ++ [part]) rest
      | some _ => .error .notDirectory

/-- Where following a path starts; some texts are no paths at all. -/
def start (t : FileTree) (path : String) : Except Trouble Place :=
  if path.toList.contains '\x00' then .error .invalidPath
  else if path = "" then .error .noEntry
  else if maxPath < path.utf8ByteSize then .error .nameTooLong
  else .ok (if Path.isAbsolute path then [] else t.cwd)

/-- The place of a path. -/
def place (t : FileTree) (path : String) : Except Trouble Place := do
  t.follow (← t.start path) (Path.parts path)

/-- The place of a path that a file may be made at.  A name with a slash behind it is a directory,
    whether it is there or not. -/
def placeToWrite (t : FileTree) (path : String) : Except Trouble Place := do
  let here ← t.start path
  match (Path.parts path).reverse with
  | "" :: before =>
      match before.dropWhile (· = "") with
      | name :: above =>
          if name = "." ∨ name = ".." then t.place path
          else
            let _ ← t.follow here (above.reverse ++ [""])
            .error .isDirectory
      | [] => t.place path
  | _ => t.place path

/-- What a path leads to. -/
def stat? (t : FileTree) (path : String) : Option Entry :=
  match t.place path with
  | .ok p => t.entry? p
  | .error _ => none

/-! ## Reading and writing -/

/-- The content of a file. -/
def read (t : FileTree) (path : String) : Except Failure Bytes :=
  match t.place path with
  | .error trouble => .error ⟨"open", path, trouble⟩
  | .ok p =>
      match t.entry? p with
      | none => .error ⟨"open", path, .noEntry⟩
      | some .directory => .error ⟨"read", path, .isDirectory⟩
      | some (.file content) => .ok content
      | some (.device _) | some (.stream _) => .ok []

/-- Writes a file into a directory that is there. -/
def write (t : FileTree) (path : String) (content : Bytes) : Except Failure FileTree :=
  match t.placeToWrite path with
  | .error trouble => .error ⟨"open", path, trouble⟩
  | .ok p =>
      match t.entry? p with
      | some .directory => .error ⟨"open", path, .isDirectory⟩
      | some (.device .null) => .ok t
      | some (.device .full) => .error ⟨"write", path, .noSpace⟩
      | some (.stream written) => .ok (t.set p (.stream (written ++ content)))
      | _ => .ok (t.set p (.file content))

/-- Removes a file, if a path leads to one. -/
def remove (t : FileTree) (path : String) : FileTree :=
  match t.place path with
  | .ok p =>
      match t.entry? p with
      | some (.file _) => t.erase p
      | _ => t
  | .error _ => t

/-- Makes the directory of given parts, the last one first, and those it is in.  What has been made
    before a failure stays. -/
def makeParts (t : FileTree) (rooted : Bool) : List String → FileTree × Option Failure
  | [] => (t, none)
  | part :: above =>
      let path := Path.render rooted (part :: above).reverse
      match t.stat? path with
      | some .directory => (t, none)
      | some _ => (t, some ⟨"mkdir", path, .notDirectory⟩)
      | none =>
          match t.makeParts rooted above with
          | (t, some f) => (t, some f)
          | (t, none) =>
              match t.place path with
              | .error trouble => (t, some ⟨"mkdir", path, trouble⟩)
              | .ok p => (t.set p .directory, none)

/-- Makes a directory and those it is in.  What is in the way is named as the path spells it. -/
def makePath (t : FileTree) (path : String) : FileTree × Option Failure :=
  t.makeParts (Path.isAbsolute path) (Path.cleanParts path).reverse

/-- What has been written to the stream at a place. -/
def streamed (t : FileTree) (p : Place) : Bytes :=
  match t.entry? p with
  | some (.stream written) => written
  | _ => []

/-- The places of all files. -/
def files (t : FileTree) : List Place :=
  t.entries.filterMap fun e =>
    match e.2 with
    | .file _ => some e.1
    | _ => none

end FileTree

end TermVM
