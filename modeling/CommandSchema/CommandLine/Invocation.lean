import CommandSchema.CommandLine.Options
import CommandSchema.Extraction

/-!
# CommandSchema.CommandLine.Invocation

Command lines as invocations: a subcommand with its arguments.

Arguments are read from left to right.  A value that stands in an argument of
its own, and files, are looked at only when the next argument of a known form
shows that they are complete; so an argument of an unknown form is reported
before a fault in what directly precedes it.  After `--` every argument is a
file.
-/

namespace CommandSchema.CommandLine

/-! ## Invocations -/

/-- The arguments of an extraction. -/
structure ExtractArguments where
  files : List String
  selection : Selection
  format? : Option OutputFormat
  output? : Option String
  config? : Option String
  strictRefs : Bool
  jobs? : Option Nat
deriving DecidableEq, Repr

/-- What is to be done. -/
inductive Action where
  /-- Write a fresh settings file. -/
  | init (force : Bool)
  | extract (arguments : ExtractArguments)
deriving DecidableEq, Repr

/-- What a command line asks for. -/
structure Invocation where
  /-- How often the option for more reports is given. -/
  verbosity : Nat
  action : Action
deriving DecidableEq, Repr

/-- Which reports are wanted, in the words of the log. -/
def Invocation.directive (i : Invocation) : String :=
  match i.verbosity with
  | 0 => "command_shapes=warn"
  | 1 => "command_shapes=info"
  | 2 => "command_shapes=debug"
  | _ => "command_shapes=trace"

/-! ## Arguments of one level -/

/-- What is read but not yet looked at. -/
inductive Pending where
  /-- An option whose value has to come as the next argument. -/
  | awaiting (option : Opt)
  | valued (option : Opt) (value : String)
  | files (files : List String)
deriving DecidableEq, Repr

/-- The state of reading the arguments of a level. -/
structure Progress where
  given : Given := {}
  pending? : Option Pending := none
deriving DecidableEq, Repr

namespace Progress

/-- Looks at what is pending. -/
def settle (p : Progress) : Except Stop Given :=
  match p.pending? with
  | none => .ok p.given
  | some (.awaiting _) => .error .invalidValue
  | some (.valued option value) => p.given.withValue value option
  | some (.files files) => p.given.withFiles files

/-- An option that takes no value. -/
def flag (p : Progress) (option : Opt) : Except Stop Progress := do
  return ⟨← (← p.settle).withFlag option, none⟩

/-- An option with its value in the same argument. -/
def attached (p : Progress) (option : Opt) (value : String) : Except Stop Progress := do
  return ⟨← (← p.settle).withValue value option, none⟩

/-- An option whose value comes next. -/
def await (p : Progress) (option : Opt) : Except Stop Progress := do
  return ⟨← p.settle, some (.awaiting option)⟩

/-- A file; files in a row stay together. -/
def file (p : Progress) (name : String) : Except Stop Progress :=
  match p.pending? with
  | some (.files files) => .ok { p with pending? := some (.files (files ++ [name])) }
  | _ => do return ⟨← p.settle, some (.files [name])⟩

end Progress

/-- An argument that starts with two dashes, which are left out. -/
def readLong (level : Level) (p : Progress) (s : List Char) : Except Stop Progress :=
  let name := s.takeWhile (· ≠ '=')
  match level.named? (String.ofList name), s.drop name.length with
  | none, _ => .error .unknownArgument
  | some option, [] => if option.takesValue then p.await option else p.flag option
  | some option, _ :: value =>
    if option.takesValue then p.attached option (String.ofList value)
    else .error .unexpectedValue

/-- The letters of an argument that starts with one dash.  The first letter
whose option takes a value takes the rest of the argument, less a leading
equals sign. -/
def readLetters (level : Level) : Progress → List Char → Except Stop Progress
  | p, [] => .ok p
  | p, letter :: rest =>
    match level.lettered? letter with
    | none => .error .unknownArgument
    | some option =>
      if option.takesValue then
        match rest with
        | [] => p.await option
        | '=' :: value => p.attached option (String.ofList value)
        | value => p.attached option (String.ofList value)
      else do readLetters level (← p.flag option) rest

/-- An argument in the form of an option, if it is one. -/
def readOption? (level : Level) (p : Progress) (argument : String) :
    Option (Except Stop Progress) :=
  match argument.toList with
  | '-' :: '-' :: s => some (readLong level p s)
  | '-' :: c :: s => some (readLetters level p (c :: s))
  | _ => none

/-- An argument that is no option: a value that is awaited, or a file. -/
def readPlain (level : Level) (literal : Bool) (p : Progress) (argument : String) :
    Except Stop Progress :=
  match literal, p.pending? with
  | false, some (.awaiting option) => .ok { p with pending? := some (.valued option argument) }
  | _, _ => if level = .extract then p.file argument else .error .unknownArgument

/-- The arguments after a subcommand.  `literal` is set after `--`. -/
def readArguments (level : Level) :
    (literal : Bool) → Progress → List String → Except Stop Given
  | _, p, [] => p.settle
  | true, p, argument :: rest => do
    readArguments level true (← readPlain level true p argument) rest
  | false, p, argument :: rest =>
    if argument = "--" then readArguments level true p rest
    else
      match readOption? level p argument with
      | some next => do readArguments level false (← next) rest
      | none => do readArguments level false (← readPlain level false p argument) rest

/-! ## Subcommands -/

/-- The arguments of an extraction.  The settings file may also be named by
the environment. -/
def extractArguments (environment? : Option String) (given : Given) :
    Except Stop ExtractArguments := do
  let config? ← match given.config?, environment? with
    | none, some value => some <$> path value
    | config?, _ => pure config?
  if given.files = [] ∨ (given.commands?.isSome ∧ given.type? = none) then .error .missingArgument
  else return ⟨given.files, .of given.type? given.commands?, given.format?, given.output?,
    config?, given.strictRefs, given.jobs?⟩

/-- The words that start a subcommand. -/
def subcommands : List String := ["extract", "init", "help"]

/-- The help about a subcommand, which is named by at most one word. -/
def help : List String → Stop
  | [] => .help
  | [name] => if name ∈ subcommands then .help else .unknownSubcommand
  | _ => .unknownSubcommand

/-- The invocation of a subcommand.  Of the levels that ask for reports, the
inner one counts. -/
def subcommand (environment? : Option String) (verbosity : Nat) (name : String)
    (arguments : List String) : Except Stop Invocation :=
  let total (given : Given) := if given.verbosity = 0 then verbosity else given.verbosity
  match name with
  | "extract" => do
    let given ← readArguments .extract false {} arguments
    return ⟨total given, .extract (← extractArguments environment? given)⟩
  | "init" => do
    let given ← readArguments .init false {} arguments
    return ⟨total given, .init given.force⟩
  | _ => .error (help arguments)

/-- Why a command line without a subcommand is refused. -/
def withoutSubcommand (p : Progress) : Stop :=
  if p.given.verbosity = 0 then .nothingGiven else .missingSubcommand

/-- The invocation that a command line asks for, given the settings file that
the environment names. -/
def read (environment? : Option String) : Progress → List String → Except Stop Invocation
  | p, [] => .error (withoutSubcommand p)
  | p, argument :: rest =>
    if argument ∈ subcommands then subcommand environment? p.given.verbosity argument rest
    else if argument = "--" then
      match rest with
      | [] => .error (withoutSubcommand p)
      | next :: _ => .error (if next ∈ subcommands then .unknownArgument else .unknownSubcommand)
    else
      match readOption? .top p argument with
      | some next => do read environment? (← next) rest
      | none => .error .unknownSubcommand

/-- The invocation for the arguments of the program. -/
def invocation (environment? : Option String) (arguments : List String) :
    Except Stop Invocation :=
  read environment? {} arguments

end CommandSchema.CommandLine
