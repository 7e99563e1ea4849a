/-
  TermVM.Path

  Texts that `vmgen` cuts at a separator: lists written with commas between
  their entries, and paths with slashes between their parts.  Nothing here looks
  at files: `clean` and `join` work on the spelling alone.
-/

namespace TermVM.Text

/-- The code points that count as blank space around an entry. -/
def isBlank (c : Char) : Bool :=
  let n := c.toNat
  (9 ≤ n && n ≤ 13) || n == 0x20 || n == 0x85 || n == 0xa0 || n == 0x1680
    || (0x2000 ≤ n && n ≤ 0x200a) || n == 0x2028 || n == 0x2029 || n == 0x202f
    || n == 0x205f || n == 0x3000

/-- A character sequence without its leading and trailing blanks. -/
def trimBlanks (cs : List Char) : List Char :=
  ((cs.dropWhile isBlank).reverse.dropWhile isBlank).reverse

/-- Cuts a sequence at every occurrence of `sep`; there is always at least one part. -/
def splitAt {α : Type} [DecidableEq α] (sep : α) : List α → List (List α)
  | [] => [[]]
  | c :: cs =>
    if c = sep then [] :: splitAt sep cs
    else match splitAt sep cs with
      | [] => [[c]]
      | part :: parts => (c :: part) :: parts

/-- The non-empty entries of a comma-separated list, trimmed. -/
def commaList (s : String) : List String :=
  (((splitAt ',' s.toList).map trimBlanks).filter fun part => !part.isEmpty).map String.ofList

end TermVM.Text

namespace TermVM.Path

/-- The parts of a path between its slashes. -/
def parts (p : String) : List String :=
  (Text.splitAt '/' p.toList).map String.ofList

/-- Whether a path starts at the root. -/
def isAbsolute (p : String) : Bool :=
  p.toList.head? == some '/'

/-- Takes parts into a shortened path, whose last part comes first.  A double dot takes back the part
    before it; at the root there is nothing to take back. -/
def shorten (rooted : Bool) : (done : List String) → List String → List String
  | done, [] => done
  | done, part :: rest =>
      if part = "" ∨ part = "." then shorten rooted done rest
      else if part = ".." then
        match done with
        | last :: before =>
            if last = ".." then shorten rooted (".." :: done) rest else shorten rooted before rest
        | [] => shorten rooted (if rooted then [] else [".."]) rest
      else shorten rooted (part :: done) rest

/-- The shortest parts of a path. -/
def cleanParts (p : String) : List String :=
  (shorten (isAbsolute p) [] (parts p)).reverse

/-- A path of given parts. -/
def render (rooted : Bool) (ps : List String) : String :=
  if rooted then "/" ++ String.intercalate "/" ps
  else if ps.isEmpty then "." else String.intercalate "/" ps

/-- The shortest spelling of a path. -/
def clean (p : String) : String :=
  render (isAbsolute p) (cleanParts p)

/-- A path below another, shortened.  Of two empty paths the result is empty. -/
def join (a b : String) : String :=
  if a = "" then if b = "" then "" else clean b
  else clean (a ++ "/" ++ b)

/-- A path seen from a directory: an absolute one stays as it is written. -/
def below (dir p : String) : String :=
  if isAbsolute p then p else join dir p

/-- An absolute path, shortened. -/
def absolute (cwd p : String) : String :=
  if isAbsolute p then clean p else join cwd p

/-- The directory that a path is in. -/
def directory (p : String) : String :=
  clean (String.ofList (p.toList.reverse.dropWhile (· != '/')).reverse)

end TermVM.Path
