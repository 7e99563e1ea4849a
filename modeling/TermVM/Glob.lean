/-
  TermVM.Glob

  The patterns by which a `vmgen` project names its batch files.  A star stands
  for any run of bytes, a question mark for one character, brackets for one of a
  set; star and question mark do not stand for a slash.
-/
import TermVM.FileTree

namespace TermVM.Glob

/-- One element of a pattern. -/
inductive Token where
  | star
  | any
  | char (c : Char)
  /-- One character inside, or with `negated` outside, of all ranges. -/
  | oneOf (negated : Bool) (ranges : List (Char × Char))
  deriving DecidableEq, Repr

/-- Where the reader of a pattern stands. -/
inductive Mode where
  | plain
  | escape
  /-- Inside brackets, before the first range. -/
  | opened
  /-- Inside brackets, before a range or the end; `first` until there is a range. -/
  | inside (negated first : Bool) (ranges : List (Char × Char))
  /-- Inside brackets, after a backslash that starts a range. -/
  | lowEscape (negated : Bool) (ranges : List (Char × Char))
  /-- Inside brackets, after the first character of a range. -/
  | low (negated : Bool) (c : Char) (ranges : List (Char × Char))
  /-- Inside brackets, after the dash of a range. -/
  | dash (negated : Bool) (c : Char) (ranges : List (Char × Char))
  /-- Inside brackets, after a backslash that ends a range. -/
  | highEscape (negated : Bool) (c : Char) (ranges : List (Char × Char))
  deriving DecidableEq, Repr

/-- The start of a range. -/
def startRange? (negated : Bool) (ranges : List (Char × Char)) (c : Char) : Option Mode :=
  if c = '-' ∨ c = ']' then none
  else if c = '\\' then some (.lowEscape negated ranges)
  else some (.low negated c ranges)

/-- Reads one character of a pattern: where the reader stands then, and the element it has read. -/
def step? (c : Char) : Mode → Option (Mode × Option Token)
  | .plain =>
      if c = '*' then some (.plain, some .star)
      else if c = '?' then some (.plain, some .any)
      else if c = '\\' then some (.escape, none)
      else if c = '[' then some (.opened, none)
      else some (.plain, some (.char c))
  | .escape => some (.plain, some (.char c))
  | .opened =>
      if c = '^' then some (.inside true true [], none)
      else (startRange? false [] c).map (·, none)
  | .inside negated first ranges =>
      if c = ']' ∧ !first then some (.plain, some (.oneOf negated ranges.reverse))
      else (startRange? negated ranges c).map (·, none)
  | .lowEscape negated ranges => some (.low negated c ranges, none)
  | .low negated lo ranges =>
      if c = '-' then some (.dash negated lo ranges, none)
      else if c = ']' then some (.plain, some (.oneOf negated ((lo, lo) :: ranges).reverse))
      else (startRange? negated ((lo, lo) :: ranges) c).map (·, none)
  | .dash negated lo ranges =>
      if c = '-' ∨ c = ']' then none
      else if c = '\\' then some (.highEscape negated lo ranges, none)
      else some (.inside negated false ((lo, c) :: ranges), none)
  | .highEscape negated lo ranges => some (.inside negated false ((lo, c) :: ranges), none)

/-- The elements of a pattern that starts in the middle of one. -/
def parseFrom? : Mode → List Char → Option (List Token)
  | .plain, [] => some []
  | _, [] => none
  | mode, c :: cs => do
      let (mode, token) ← step? c mode
      let tokens ← parseFrom? mode cs
      return match token with
        | some t => t :: tokens
        | none => tokens

/-- The elements of a pattern; a pattern with open brackets or a last backslash has none. -/
def parse? (pattern : String) : Option (List Token) :=
  parseFrom? .plain pattern.toList

/-- The complaint about a pattern that cannot be read. -/
def badPattern : String := "syntax error in pattern"

/-! ## Matching -/

/-- What is left of a name to match: the last bytes of a character that a star has cut, then whole
    characters. -/
structure Rest where
  cut : Nat
  chars : List Char
  deriving DecidableEq, Repr

namespace Rest

/-- A whole name. -/
def ofName (name : String) : Rest := ⟨0, name.toList⟩

/-- Whether nothing is left. -/
def isEmpty (r : Rest) : Bool := r.cut == 0 && r.chars.isEmpty

/-- The next character.  A byte of a cut character stands for the replacement character. -/
def next? : Rest → Option (Char × Rest)
  | ⟨k + 1, cs⟩ => some ('\uFFFD', ⟨k, cs⟩)
  | ⟨0, c :: cs⟩ => some (c, ⟨0, cs⟩)
  | ⟨0, []⟩ => none

/-- What is left when some of the next bytes, all of one character, are skipped one by one. -/
def cuts (bytes : Nat) (cs : List Char) : List Rest :=
  (List.range bytes).reverse.map fun k => ⟨k + 1, cs⟩

/-- What a star can leave of whole characters: it takes byte after byte, and stops at a slash. -/
def suffixesOf : List Char → List Rest
  | [] => [⟨0, []⟩]
  | c :: cs => ⟨0, c :: cs⟩ :: if c = '/' then [] else cuts (c.utf8Size - 1) cs ++ suffixesOf cs

/-- What a star can leave, the longest first. -/
def suffixes (r : Rest) : List Rest :=
  cuts r.cut r.chars ++ suffixesOf r.chars

end Rest

/-- Whether a character is inside one of the ranges. -/
def inRanges (ranges : List (Char × Char)) (c : Char) : Bool :=
  ranges.any fun (lo, hi) => lo ≤ c && c ≤ hi

/-- What an element other than a star leaves.  A character of a pattern matches only a whole one. -/
def Token.take? (r : Rest) : Token → Option Rest
  | .star => some r
  | .any => r.next?.bind fun (c, r) => if c = '/' then none else some r
  | .char a =>
      match r with
      | ⟨0, c :: cs⟩ => if a = c then some ⟨0, cs⟩ else none
      | _ => none
  | .oneOf negated ranges =>
      r.next?.bind fun (c, r) => if inRanges ranges c = negated then none else some r

/-- Elements between two stars of a pattern. -/
structure Chunk where
  afterStar : Bool
  tokens : List Token
  deriving DecidableEq, Repr

/-- The chunks of a pattern.  Several stars in a row are one. -/
def chunks : List Token → List Chunk
  | [] => []
  | .star :: ts =>
      match chunks ts with
      | [] => [⟨true, []⟩]
      | c :: cs => ⟨true, c.tokens⟩ :: cs
  | t :: ts =>
      match chunks ts with
      | [] => [⟨false, [t]⟩]
      | c :: cs => if c.afterStar then ⟨false, [t]⟩ :: c :: cs else ⟨false, t :: c.tokens⟩ :: cs

/-- What a chunk leaves that starts right here. -/
def Chunk.take? (c : Chunk) (r : Rest) : Option Rest :=
  c.tokens.foldlM Token.take? r

/-- What a chunk leaves at the first place where it fits; the last chunk has to leave nothing. -/
def Chunk.place? (c : Chunk) (isLast : Bool) (r : Rest) : Option Rest :=
  (if c.afterStar then r.suffixes else [r]).findSome? fun r =>
    (c.take? r).filter fun left => left.isEmpty || !isLast

/-- Whether chunks match, each at the first place where it fits.  A star at the end takes all. -/
def acceptsChunks : List Chunk → Rest → Bool
  | [], r => r.isEmpty
  | c :: cs, r =>
      if c.afterStar && c.tokens.isEmpty then !r.chars.contains '/'
      else match c.place? cs.isEmpty r with
        | some left => acceptsChunks cs left
        | none => false

/-- Whether a name matches a pattern. -/
def accepts (tokens : List Token) (name : String) : Bool :=
  acceptsChunks (chunks tokens) (.ofName name)

/-! ## Paths that match -/

/-- Whether a part of a path is a pattern rather than a name. -/
def isPattern (part : String) : Bool :=
  part.toList.any fun c => c == '*' || c == '?' || c == '[' || c == '\\'

/-- Names in the order of their characters. -/
def sorted (names : List String) : List String :=
  names.mergeSort fun a b => !(b < a)

/-- The paths of the names in a directory that match. -/
def matchesIn (t : FileTree) (dir : String) (tokens : List Token) : List String :=
  match t.place dir with
  | .error _ => []
  | .ok p =>
      match t.entry? p with
      | some .directory =>
          ((sorted (t.names p)).filter (accepts tokens)).map (Path.join dir)
      | _ => []

/-- The paths that match a pattern, given by its parts with the last one first. -/
def expandParts (t : FileTree) (rooted : Bool) : List String → List String
  | [] => [Path.render rooted []]
  | last :: before =>
      let tokens := (parse? last).getD []
      if before.any isPattern then (expandParts t rooted before).flatMap (matchesIn t · tokens)
      else if isPattern last then matchesIn t (Path.render rooted before.reverse) tokens
      else
        let path := Path.render rooted (last :: before).reverse
        if (t.stat? path).isSome then [path] else []

/-- The most parts that a path may have from its first pattern on. -/
def maxDepth : Nat := 10000

/-- The paths that match a shortened pattern; none if a part of it cannot be read, or if it is too
    deep. -/
def expand? (t : FileTree) (pattern : String) : Option (List String) :=
  let parts := Path.cleanParts pattern
  if (parts.all fun part => (parse? part).isSome)
      && (parts.dropWhile fun part => !isPattern part).length ≤ maxDepth then
    some (expandParts t (Path.isAbsolute pattern) parts.reverse)
  else none

end TermVM.Glob
