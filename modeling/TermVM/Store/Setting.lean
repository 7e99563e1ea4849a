/-
  TermVM.Store.Setting

  Settings of the connection to a durable store of `vmgen`.  A setting is a
  name, which may have a schema before it, and possibly a value after an equals
  sign or in parentheses.  The parameters of a database name may hold settings.
-/
import TermVM.FileTree
import TermVM.Store.Location

namespace TermVM.Store

/-! ## Lexemes of a setting -/

/-- A lexeme of a setting. -/
inductive Lexeme where
  | word (text : String)
  /-- A text in quotes, without them. -/
  | quoted (text : String)
  | number (text : String)
  | mark (c : Char)
  /-- A number that runs into letters, or quotes without an end. -/
  | broken
  deriving DecidableEq, Repr

/-- Whether a word can go on with a character. -/
def isWordChar (c : Char) : Bool :=
  c.isAlphanum || c == '_' || c == '$' || '\x80' ≤ c

/-- Whether a word can start with a character. -/
def isWordStart (c : Char) : Bool :=
  isWordChar c && !c.isDigit && c != '$'

/-- Whether a character stands between lexemes. -/
def isGap (c : Char) : Bool :=
  c == ' ' || c == '\t' || c == '\n' || c == '\x0c' || c == '\r'

/-- Whether characters are a decimal number, with a fraction and an exponent if it has them. -/
def isDecimalNumber (cs : List Char) : Bool :=
  let afterPoint := match cs.dropWhile Char.isDigit with
    | '.' :: rest => rest.dropWhile Char.isDigit
    | rest => rest
  match afterPoint with
  | [] => true
  | e :: digits => (e == 'e' || e == 'E') && !digits.isEmpty && digits.all Char.isDigit

/-- Whether characters that start with a digit, or a point and a digit, are a number. -/
def isNumber (cs : List Char) : Bool :=
  (hexDigits? cs).isSome || isDecimalNumber cs

/-- Where the reader of lexemes stands.  What it has read of a lexeme has its last character first. -/
inductive Scan where
  | between
  | word (done : List Char)
  | number (done : List Char)
  | quoted (close : Char) (done : List Char)
  /-- After the closing quote, which a second one makes part of the text. -/
  | closed (close : Char) (done : List Char)
  | point
  | equals
  | dash
  | lineComment
  | slash
  | blockComment (star : Bool)
  deriving DecidableEq, Repr

namespace Scan

/-- The first character of a lexeme. -/
def start (c : Char) : Scan × List Lexeme :=
  if isGap c then (between, [])
  else if isWordStart c then (word [c], [])
  else if c.isDigit then (number [c], [])
  else if c = '\'' ∨ c = '"' ∨ c = '\x60' then (quoted c [], [])
  else if c = '[' then (quoted ']' [], [])
  else if c = '.' then (point, [])
  else if c = '=' then (equals, [])
  else if c = '-' then (dash, [])
  else if c = '/' then (slash, [])
  else (between, [.mark c])

/-- The lexeme of a number. -/
def numberLexeme (done : List Char) : Lexeme :=
  if isNumber done.reverse then .number (String.ofList done.reverse) else .broken

/-- The lexemes that are complete when the text ends. -/
def finish : Scan → List Lexeme
  | word done => [.word (String.ofList done.reverse)]
  | number done => [numberLexeme done]
  | quoted _ _ => [.broken]
  | closed _ done => [.quoted (String.ofList done.reverse)]
  | point => [.mark '.']
  | equals => [.mark '=']
  | dash => [.mark '-']
  | slash => [.mark '/']
  | between | lineComment | blockComment _ => []

/-- Ends the lexeme so far and starts one with the next character. -/
def restart (s : Scan) (c : Char) : Scan × List Lexeme :=
  ((start c).1, s.finish ++ (start c).2)

/-- Reads one character: where the reader stands then, and the lexemes that are complete. -/
def step (c : Char) : Scan → Scan × List Lexeme
  | between => start c
  | word done => if isWordChar c then (word (c :: done), []) else (word done).restart c
  | number done =>
      if isWordChar c || c == '.' then (number (c :: done), []) else (number done).restart c
  | quoted close done => if c = close then (closed close done, []) else (quoted close (c :: done), [])
  | closed close done =>
      if c = close ∧ close ≠ ']' then (quoted close (c :: done), []) else (closed close done).restart c
  | point => if c.isDigit then (number [c, '.'], []) else point.restart c
  | equals => if c = '=' then (between, [.mark '=']) else equals.restart c
  | dash => if c = '-' then (lineComment, []) else dash.restart c
  | lineComment => (if c = '\n' then between else lineComment, [])
  | slash => if c = '*' then (blockComment false, []) else slash.restart c
  | blockComment star => (if star && c == '/' then between else blockComment (c == '*'), [])

/-- The lexemes of a text that starts in the middle of one. -/
def run : Scan → List Char → List Lexeme
  | s, [] => s.finish
  | s, c :: cs => (step c s).2 ++ run (step c s).1 cs

end Scan

/-- The lexemes of a text; comments are none. -/
def lexemes (text : String) : List Lexeme := Scan.run .between text.toList

/-! ## Settings -/

/-- Words that are neither names nor values without quotes. -/
def reserved : List String :=
  ["add", "all", "alter", "and", "as", "autoincrement", "between", "case", "check", "collate", "commit",
   "constraint", "create", "default", "deferrable", "delete", "distinct", "drop", "else", "escape",
   "except", "exists", "foreign", "from", "group", "having", "in", "index", "insert", "intersect",
   "into", "is", "isnull", "join", "limit", "not", "nothing", "notnull", "null", "on", "or", "order",
   "primary", "references", "returning", "select", "set", "table", "then", "to", "transaction", "union",
   "unique", "update", "using", "values", "when", "where"]

/-- Reserved words that are values all the same. -/
def valueWords : List String := ["on", "delete", "default"]

/-- The value of a setting. -/
structure SettingValue where
  text : String
  isNumber : Bool
  deriving DecidableEq, Repr

/-- Whether a value is a count, whatever its sign. -/
def SettingValue.isCount (v : SettingValue) : Bool :=
  v.isNumber && (leadingNumber? (v.text.toList.dropWhile (· == '-'))).isSome

/-- A setting, with its names in lower case.  Without a schema it is about the main one. -/
structure Setting where
  schema : String
  name : String
  value : Option SettingValue
  deriving DecidableEq, Repr

namespace Setting

/-- The name that a lexeme is, in lower case. -/
def nameOf? : Lexeme → Option String
  | .word w => if reserved.contains w.toLower then none else some w.toLower
  | .quoted s => some s.toLower
  | _ => none

/-- The value that lexemes are. -/
def valueOf? : List Lexeme → Option SettingValue
  | [.number n] => some ⟨n, true⟩
  | [.mark '+', .number n] => some ⟨n, true⟩
  | [.mark '-', .number n] => some ⟨"-" ++ n, true⟩
  | [.quoted s] => some ⟨s, false⟩
  | [.word w] =>
      if reserved.contains w.toLower && !valueWords.contains w.toLower then none else some ⟨w, false⟩
  | _ => none

/-- What follows the name of a setting: nothing, or a value. -/
def argument? : List Lexeme → Option (Option SettingValue)
  | [] => some none
  | .mark '=' :: ls => (valueOf? ls).map some
  | .mark '(' :: ls => if ls.getLast? = some (.mark ')') then (valueOf? ls.dropLast).map some else none
  | _ => none

/-- The setting that lexemes are.  There are two schemas. -/
def ofLexemes? : List Lexeme → Option Setting
  | schema :: .mark '.' :: name :: ls => do
      let schema ← nameOf? schema
      if schema = "main" ∨ schema = "temp" then
        return ⟨schema, ← nameOf? name, ← argument? ls⟩
      else none
  | name :: ls => do return ⟨"main", ← nameOf? name, ← argument? ls⟩
  | [] => none

/-- The word before each setting of a text but the first. -/
def keyword : String := "pragma"

/-- The settings of a text, with semicolons between them. -/
def ofText? (text : String) : Option (List Setting) :=
  match Text.splitAt (Lexeme.mark ';') (lexemes text) with
  | [] => none
  | first :: more => do
      let rest ← more.mapM fun
        | [] => some []
        | .word w :: ls => if w.toLower = keyword then (ofLexemes? ls).map ([·]) else none
        | _ => none
      return (← ofLexemes? first) :: rest.flatten

/-- The names of text encodings. -/
def encodings : List String :=
  ["utf8", "utf-8", "utf-16le", "utf-16be", "utf16le", "utf16be", "utf-16", "utf16"]

/-- The tables that a database has from the start. -/
def firstTables : List String :=
  ["sqlite_schema", "sqlite_master", "sqlite_temp_schema", "sqlite_temp_master"]

/-- Whether a setting can be made on a new database.  Unknown settings do nothing. -/
def isPossible (t : FileTree) (s : Setting) : Bool :=
  match s.value with
  | none => true
  | some v =>
      if s.name = "encoding" then encodings.contains v.text.toLower
      else if s.name = "integrity_check" ∨ s.name = "quick_check" then
        v.isCount || firstTables.contains v.text.toLower
      else if s.name = "foreign_key_check" then firstTables.contains v.text.toLower
      else if s.name = "temp_store_directory" then v.text == "" || (t.stat? v.text).isSome
      else true

end Setting

/-! ## What settings do -/

/-- What becomes of the journal of a database file. -/
inductive JournalMode where
  | delete
  | persist
  | off
  | truncate
  | memory
  | wal
  deriving DecidableEq, Repr

namespace JournalMode

/-- The journal modes with their names. -/
def named : List (String × JournalMode) :=
  [("delete", delete), ("persist", persist), ("off", off), ("truncate", truncate), ("memory", memory),
   ("wal", wal)]

/-- The first mode whose name starts with a text. -/
def ofText? (text : String) : Option JournalMode :=
  (named.find? fun e => text.toLower.toList.isPrefixOf e.1.toList).map (·.2)

end JournalMode

/-- Settings of a connection, in the order in which they are made. -/
abbrev Settings := List Setting

namespace Settings

/-- The values of a setting, in order. -/
def valuesOf (ss : Settings) (name : String) : List String :=
  ss.filterMap fun s => if s.name = name then s.value.map (·.text) else none

/-- The values of a setting of the main schema, in order. -/
def mainValuesOf (ss : Settings) (name : String) : List String :=
  valuesOf (ss.filter fun s => s.schema != "temp") name

/-- Whether the connection may only read. -/
def queryOnly (ss : Settings) : Bool :=
  ((ss.valuesOf "query_only").getLast?.map isOn).getD false

/-- The most pages of the database, if they are limited. -/
def pageLimit? (ss : Settings) : Option Nat :=
  ((ss.mainValuesOf "max_page_count").filterMap fun v =>
    (wholeNumber? v.toList).filter (0 < ·)).getLast?

/-- The pages of a database with one table and its index. -/
def firstPages : Nat := 3

/-- Whether there is room for a table. -/
def hasRoom (ss : Settings) : Bool :=
  ss.pageLimit?.all (firstPages ≤ ·)

/-- The journal modes that are set, in order. -/
def journalModes (ss : Settings) : List JournalMode :=
  (ss.mainValuesOf "journal_mode").filterMap JournalMode.ofText?

/-- Whether the database is written with a journal file beside it. -/
def usesJournalFile (ss : Settings) : Bool :=
  ss.journalModes.getLast?.all fun m => m != .off && m != .memory

/-- Whether a journal file is left behind. -/
def leavesJournal (ss : Settings) : Bool :=
  ss.journalModes.getLast?.any fun m => m == .persist || m == .truncate

end Settings

/-! ## Parameters of a name -/

/-- The words for yes and no in parameters. -/
def switchWords : List String :=
  ["1", "t", "T", "true", "TRUE", "True", "0", "f", "F", "false", "FALSE", "False"]

/-- Parameters that have only some values. -/
def choices : List (String × List String) :=
  [("_time_format", ["sqlite", "datetime"]),
   ("_time_integer_format", ["unix", "unix_milli", "unix_micro", "unix_nano"]),
   ("_inttotime", switchWords), ("_texttotime", switchWords)]

/-- How transactions can lock a database. -/
def locks : List String := ["deferred", "immediate", "exclusive"]

/-- Whether the parameters that are choices have values that there are. -/
def choicesFit (parameters : List (Bytes × Bytes)) : Bool :=
  let first (key : String) : String := Text.lossy ((Text.valuesOf key parameters).headD [])
  (choices.all fun (key, values) => first key == "" || values.contains (first key))
    && (first "_txlock" == "" || locks.contains (first "_txlock").toLower)

/-- A setting as it is sorted: in lower case, without blanks around it. -/
def sortKey (text : String) : String :=
  String.ofList (Text.trimBlanks text.toLower.toList)

/-- The settings in the parameters of a name, made in the order of their texts.  There are none if
    some cannot be made. -/
def settingsOf? (t : FileTree) (name : String) : Option Settings := do
  let parameters ← Text.parameters? (splitName (utf8 name)).2
  let texts := (Text.valuesOf "_pragma" parameters).map fun v => Text.lossy (v.takeWhile (· != 0))
  let ss := (← (texts.mergeSort fun a b => !(sortKey b < sortKey a)).mapM Setting.ofText?).flatten
  if choicesFit parameters && ss.all (Setting.isPossible t) then some ss else none

end TermVM.Store
