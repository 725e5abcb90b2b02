import CommandSchema.Decimal
import CommandSchema.Settings

/-!
# CommandSchema.CommandLine.Options

The options of the command line: which there are, where each may stand, and
what an occurrence changes.

An option that takes a value may be given once, except for the list of
commands, which grows.  `Stop` names everything that keeps a command line from
leading to an action; a request for help is one of these.
-/

namespace CommandSchema.CommandLine

/-- Why a command line leads to no action. -/
inductive Stop where
  /-- Help is asked for. -/
  | help
  /-- The version is asked for. -/
  | version
  /-- Nothing at all is given, which is answered with help. -/
  | nothingGiven
  /-- Options are given, but no subcommand. -/
  | missingSubcommand
  | unknownSubcommand
  | unknownArgument
  /-- A value is missing, empty, or none of the words that are allowed. -/
  | invalidValue
  /-- A value is not of the form that is asked for. -/
  | malformedValue
  /-- An option that takes no value is given one. -/
  | unexpectedValue
  /-- An option is given again. -/
  | repeated
  /-- A required argument is missing. -/
  | missingArgument
deriving DecidableEq, Repr

/-- The exit code: only help and the version count as success. -/
def Stop.exitCode : Stop → Nat
  | .help => 0
  | .version => 0
  | _ => 2

/-! ## Options -/

/-- An option. -/
inductive Opt where
  | verbose
  | type
  | command
  | format
  | output
  | config
  | strictRefs
  | jobs
  | force
  | help
  | version
deriving DecidableEq, Repr

namespace Opt

/-- The name after two dashes. -/
def name : Opt → String
  | .verbose => "verbose"
  | .type => "type"
  | .command => "command"
  | .format => "format"
  | .output => "output"
  | .config => "config"
  | .strictRefs => "strict-refs"
  | .jobs => "jobs"
  | .force => "force"
  | .help => "help"
  | .version => "version"

/-- The letter after one dash. -/
def letter? : Opt → Option Char
  | .verbose => some 'v'
  | .command => some 'c'
  | .format => some 'f'
  | .output => some 'o'
  | .jobs => some 'j'
  | .help => some 'h'
  | .version => some 'V'
  | _ => none

/-- Whether the option takes a value. -/
def takesValue : Opt → Bool
  | .type | .command | .format | .output | .config | .jobs => true
  | _ => false

end Opt

/-- The part of a command line that options belong to. -/
inductive Level where
  /-- What stands before the subcommand. -/
  | top
  | extract
  | init
deriving DecidableEq, Repr

namespace Level

/-- The options that are known on a level. -/
def options : Level → List Opt
  | .top => [.verbose, .help, .version]
  | .extract =>
    [.verbose, .type, .command, .format, .output, .config, .strictRefs, .jobs, .help]
  | .init => [.verbose, .force, .help]

/-- The option with a name. -/
def named? (level : Level) (name : String) : Option Opt :=
  level.options.find? (·.name = name)

/-- The option with a letter. -/
def lettered? (level : Level) (letter : Char) : Option Opt :=
  level.options.find? (·.letter? = some letter)

end Level

/-! ## Occurrences -/

/-- What the arguments of one level have said so far. -/
structure Given where
  verbosity : Nat := 0
  files : List String := []
  type? : Option String := none
  commands? : Option (List String) := none
  format? : Option OutputFormat := none
  output? : Option String := none
  config? : Option String := none
  strictRefs : Bool := false
  jobs? : Option Nat := none
  force : Bool := false
deriving DecidableEq, Repr

/-- The greatest count of an option that is counted. -/
def maxCount : Nat := 255

/-- The bound on the number of jobs. -/
def jobsBound : Nat := Nat.pow 2 64

/-- The parts of a text between commas. -/
def commaSeparated (s : List Char) : List (List Char) :=
  s.foldr (fun c parts =>
    if c = ',' then [] :: parts
    else match parts with
      | part :: parts => (c :: part) :: parts
      | [] => [[c]]) [[]]

/-- A number of jobs: digits after at most one plus sign. -/
def jobCount? (value : String) : Option Nat :=
  let digits := match value.toList with
    | '+' :: rest => rest
    | s => s
  let n := Decimal.ofDigits digits
  if digits ≠ [] ∧ digits.all Char.isDigit ∧ n < jobsBound then some n else none

/-- A path, which may not be empty. -/
def path (value : String) : Except Stop String :=
  if value.isEmpty then .error .invalidValue else .ok value

namespace Given

/-- Refuses a second occurrence. -/
def once {α : Type} (earlier : Option α) : Except Stop Unit :=
  if earlier.isSome then .error .repeated else .ok ()

/-- What is known after an occurrence of an option that takes no value. -/
def withFlag (g : Given) : Opt → Except Stop Given
  | .verbose => .ok { g with verbosity := min maxCount (g.verbosity + 1) }
  | .strictRefs => if g.strictRefs then .error .repeated else .ok { g with strictRefs := true }
  | .force => if g.force then .error .repeated else .ok { g with force := true }
  | .help => .error .help
  | .version => .error .version
  | _ => .error .invalidValue

/-- What is known after an occurrence of an option with the given value. -/
def withValue (g : Given) (value : String) : Opt → Except Stop Given
  | .type => do
    once g.type?
    return { g with type? := some value }
  | .command =>
    let names := (commaSeparated value.toList).map String.ofList
    .ok { g with commands? := some (g.commands?.getD [] ++ names) }
  | .format => do
    once g.format?
    match OutputFormat.ofWord? value with
    | some format => return { g with format? := some format }
    | none => .error .invalidValue
  | .output => do
    once g.output?
    return { g with output? := some (← path value) }
  | .config => do
    once g.config?
    return { g with config? := some (← path value) }
  | .jobs => do
    once g.jobs?
    match jobCount? value with
    | some n => return { g with jobs? := some n }
    | none => .error .malformedValue
  | o => g.withFlag o

/-- What is known after files. -/
def withFiles (g : Given) (files : List String) : Except Stop Given :=
  if "" ∈ files then .error .invalidValue else .ok { g with files := g.files ++ files }

end Given

end CommandSchema.CommandLine
