/-
  TermVM.Main

  `vmgen` as a program: it reads the files that a run can look at, runs the
  command line on them, prints, and writes the files that have changed.
-/
import TermVM.CommandLine.Run

namespace TermVM.Main

/-- The bytes of a file. -/
def readBytes (path : String) : IO Bytes := do
  return (← IO.FS.readBinFile path).data.toList

/-- Adds what is below a directory to a tree. -/
partial def snapshot (t : FileTree) (dir : Place) : IO FileTree := do
  let here ← IO.FS.realPath (Path.render true dir)
  let mut t := (t.makeDirectories [] dir).toOption.getD t
  for e in ← here.readDir do
    let p := dir ++ [e.fileName]
    if ← e.path.isDir then
      t ← snapshot t p
    else
      t := t.set p (.file (← readBytes (Path.render true p)))
  return t

/-- Whether there is a directory at a place; nothing if there is neither directory nor file. -/
def isDirectory? (p : Place) : IO (Option Bool) := do
  try
    let here ← IO.FS.realPath (Path.render true p)
    if ← here.pathExists then return some (← here.isDir) else return none
  catch _ => return none

/-- Adds the file or the directory at a path; if there is none, only the directory it would be in. -/
def addPath (t : FileTree) (path : String) : IO FileTree := do
  let p := Path.cleanParts (Path.absolute (Path.render true t.cwd) path)
  if path = "" ∨ (t.entry? p).isSome then return t
  match ← isDirectory? p with
  | some true => snapshot t p
  | some false => return t.add p (← readBytes (Path.render true p))
  | none =>
      match ← isDirectory? p.dropLast with
      | some true => return (t.makeDirectories [] p.dropLast).toOption.getD t
      | _ => return t

/-- The path of the file that a database is in; empty if it is in none. -/
def databasePath (name : String) : String :=
  match Store.Location.ofName? name with
  | some (.file path _) => path
  | _ => ""

/-- The paths that a command line names. -/
def namedPaths (arguments : List String) : List String :=
  match CommandLine.parse arguments with
  | .options o rest => o.output :: o.cache.getD "" :: databasePath (o.cache.getD "") :: rest
  | _ => []

/-- The files that a run can look at: those of the working directory, the configurations above it and
    what they name, and those that the command line names. -/
def gather (env : Manifest.Environment) (arguments : List String) : IO FileTree := do
  let cwd := (← IO.currentDir).toString
  let mut t ← snapshot { FileTree.standard with cwd := Path.cleanParts cwd } (Path.cleanParts cwd)
  for dir in Manifest.ancestors cwd do
    t ← addPath t (Path.join dir Manifest.fileName)
  for path in namedPaths arguments do
    t ← addPath t path
  match CommandLine.configuration env t with
  | .error _ => return t
  | .ok m =>
      for path in m.cachePath :: databasePath m.cachePath :: m.sourcePaths do
        t ← addPath t path
      return t

/-- Writes the files that differ from what was read, and removes those that are gone. -/
def writeBack (before after : FileTree) : IO Unit := do
  for p in before.files do
    if (after.entry? p).isNone then IO.FS.removeFile (Path.render true p)
  for (p, e) in after.entries do
    if before.entry? p != some e then
      match e with
      | .directory => IO.FS.createDirAll (Path.render true p)
      | .file content =>
          IO.FS.createDirAll (Path.render true p.dropLast)
          IO.FS.writeBinFile (Path.render true p) ⟨content.toArray⟩
      | .device _ | .stream _ => pure ()

/-- The variables that a configuration looks at. -/
def environment : IO Manifest.Environment := do
  let names := ["VMGEN_JOBS", "VMGEN_TRACE", "VMGEN_CACHE", "VMGEN_PORT"]
  let values ← names.mapM fun name => do return (← IO.getEnv name).map fun v => (name, v)
  return values.filterMap id

end TermVM.Main

/-- Runs the command line. -/
def main (arguments : List String) : IO UInt32 := do
  let env ← TermVM.Main.environment
  let before ← TermVM.Main.gather env arguments
  let r := TermVM.CommandLine.run env before arguments
  for e in r.log do
    IO.eprintln (e.level.name ++ " [" ++ e.logger ++ "] " ++ e.message)
  (← IO.getStdout).write ⟨r.stdoutBytes.toArray⟩
  (← IO.getStderr).write ⟨r.stderrBytes.toArray⟩
  TermVM.Main.writeBack before r.files
  return r.exit.toUInt32
