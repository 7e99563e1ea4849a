/-
  TermVM.CommandLine.Options

  The options of `vmgen`'s commands and how they are written.  An option starts
  with one dash or two; its value follows an equals sign or is the next
  argument.  Options end at the first other argument, or after `--`.
-/
import TermVM.Text.Prefixed
import TermVM.Text.Quoted

namespace TermVM.CommandLine

/-- The values given for the options; a configuration stands in for those that are none. -/
structure Options where
  verbosity : Int
  jobs : Option Int
  trace : Option String
  verify : Option Bool
  cache : Option String
  port : Option Int
  output : String
  remote : String
  deriving DecidableEq, Repr

/-- No options. -/
def Options.none : Options where
  verbosity := 0
  jobs := Option.none
  trace := Option.none
  verify := Option.none
  cache := Option.none
  port := Option.none
  output := ""
  remote := ""

/-- How the value of an option is used. -/
inductive Setter where
  | switch (set : Bool → Options → Options)
  | number (set : Int → Options → Options)
  | text (set : String → Options → Options)

/-- The option of a name. -/
def setter? : String → Option Setter
  | "v" => some (.number fun n o => { o with verbosity := n })
  | "jobs" => some (.number fun n o => { o with jobs := some n })
  | "trace" => some (.text fun s o => { o with trace := some s })
  | "verify" => some (.switch fun b o => { o with verify := some b })
  | "cache" => some (.text fun s o => { o with cache := some s })
  | "port" => some (.number fun n o => { o with port := some n })
  | "o" => some (.text fun s o => { o with output := s })
  | "remote" => some (.text fun s o => { o with remote := s })
  | _ => none

/-- Why an argument is no option. -/
inductive Misuse where
  | badForm (argument : String)
  | undefined (name : String)
  | noValue (name : String)
  | badNumber (name value : String) (defect : Text.NumeralDefect)
  | badSwitch (name value : String)
  deriving DecidableEq, Repr

/-- What is wrong with a number. -/
def defectText : Text.NumeralDefect → String
  | .malformed => "parse error"
  | .outOfRange => "value out of range"

/-- The text of a misuse. -/
def Misuse.message : Misuse → String
  | badForm argument => "bad flag syntax: " ++ argument
  | undefined name => "flag provided but not defined: -" ++ name
  | noValue name => "flag needs an argument: -" ++ name
  | badNumber name value defect =>
      "invalid value " ++ Text.quoted value ++ " for flag -" ++ name ++ ": " ++ defectText defect
  | badSwitch name value =>
      "invalid boolean value " ++ Text.quoted value ++ " for -" ++ name ++ ": parse error"

/-- The end of reading options: the usage was asked for, an argument was wrong, or the options and
    the arguments after them. -/
inductive Parsed where
  | help
  | misuse (misuse : Misuse)
  | options (options : Options) (arguments : List String)
  deriving DecidableEq, Repr

/-- The truth value of a word. -/
def switchOf? (s : String) : Option Bool :=
  if s ∈ ["1", "t", "T", "true", "TRUE", "True"] then some true
  else if s ∈ ["0", "f", "F", "false", "FALSE", "False"] then some false
  else none

/-- The name of an option, and the value after its equals sign.  The first character belongs to the
    name in any case. -/
def splitValue : List Char → String × Option String
  | [] => ("", none)
  | c :: cs =>
      (String.ofList (c :: cs.takeWhile (· != '=')),
        match cs.dropWhile (· != '=') with
        | [] => none
        | _ :: value => some (String.ofList value))

/-- What an argument is. -/
inductive Argument where
  | plain
  | terminator
  | badForm
  | option (name : String) (value : Option String)
  deriving DecidableEq, Repr

/-- An argument that starts with a dash and more. -/
def dashed (body : List Char) : Argument :=
  match body with
  | [] => .badForm
  | c :: _ =>
      if c = '-' ∨ c = '=' then .badForm
      else
        let (name, value) := splitValue body
        .option name value

/-- Reads the form of an argument. -/
def Argument.of (s : String) : Argument :=
  match s.toList with
  | ['-', '-'] => .terminator
  | '-' :: '-' :: body => dashed body
  | ['-'] => .plain
  | '-' :: body => dashed body
  | _ => .plain

/-- Gives an option its value. -/
def assign (name value : String) (setter : Setter) (o : Options) : Except Misuse Options :=
  match setter with
  | .switch set =>
      match switchOf? value with
      | some b => .ok (set b o)
      | none => .error (.badSwitch name value)
  | .number set =>
      match Text.readPrefixed value with
      | .ok n => .ok (set n o)
      | .error defect => .error (.badNumber name value defect)
  | .text set => .ok (set value o)

/-- Reads options up to the first argument that is none.  An option may be waiting for its value. -/
def parseFrom (o : Options) : (waiting : Option (String × Setter)) → List String → Parsed
  | none, [] => .options o []
  | some (name, _), [] => .misuse (.noValue name)
  | some (name, setter), value :: rest =>
      match assign name value setter o with
      | .ok o => parseFrom o none rest
      | .error e => .misuse e
  | none, argument :: rest =>
      match Argument.of argument with
      | .plain => .options o (argument :: rest)
      | .terminator => .options o rest
      | .badForm => .misuse (.badForm argument)
      | .option name given =>
          match setter? name, given with
          | none, _ => if name = "help" ∨ name = "h" then .help else .misuse (.undefined name)
          | some (.switch set), none => parseFrom (set true o) none rest
          | some setter, none => parseFrom o (some (name, setter)) rest
          | some setter, some value =>
              match assign name value setter o with
              | .ok o => parseFrom o none rest
              | .error e => .misuse e

/-- Reads the arguments of a command line. -/
def parse (arguments : List String) : Parsed :=
  parseFrom .none none arguments

/-- The usage text. -/
def usage : String :=
"Usage: vmgen [options] [batch.cbor...]
       vmgen [options] dis procs.cbor
       vmgen [options] serve

Compiles declaration batches in order, each against the table left by
the previous one, and prints a listing of every procedure. Without
arguments the batches under [source].dirs in vmgen.toml are compiled.

Options:
  -cache string
    \tProcedure cache database (default: in memory)
  -jobs int
    \tBodies compiled in parallel (0 = GOMAXPROCS)
  -o string
    \tWrite installed procedures to this file
  -port int
    \tCompile service port (used with serve)
  -remote string
    \tSend batches to the compile service at this URL
  -trace string
    \tComma-separated trace classes (compiler.code_gen, compiler.optimize_bytecode)
  -v int
    \tLog verbosity (1 = info, 2 = debug and traces)
  -verify
    \tVerify the stack discipline of every procedure

Examples:
  vmgen -verify a.cbor b.cbor            # Compile two batches
  vmgen -o procs.cbor a.cbor             # Save the installed code
  vmgen -v 2 -trace compiler.code_gen a.cbor
  vmgen dis procs.cbor                   # Disassemble saved code
  vmgen serve -port 9000                 # Start the compile service
  vmgen -remote http://localhost:8970 a.cbor
"

end TermVM.CommandLine
