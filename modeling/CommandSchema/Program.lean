import CommandSchema.Batch
import CommandSchema.FileSystem

/-!
# CommandSchema.Program

What the program does to the files and what it says, for each of its
subcommands and for a whole command line.

A `Report` has the texts for the two outputs and, for a run that went wrong,
the reason.  The reason becomes a last line of the error output, and the
exit code tells success, failure and misuse apart.
-/

namespace CommandSchema

open CommandLine (ExtractArguments Invocation Stop)
open Settings (LoadFault)

namespace Program

/-! ## Reports -/

/-- Why a run went wrong. -/
inductive Fault where
  | unsettled (fault : LoadFault)
  /-- Some of the files failed. -/
  | incomplete (failed total : Nat)
  /-- The output cannot be written. -/
  | unwritable (fault : FileFault)
  /-- A settings file is there and may not be replaced. -/
  | settingsExist
  /-- The settings file cannot be written. -/
  | settingsUnwritable (path : String) (fault : FileFault)
deriving DecidableEq, Repr

namespace Fault

/-- The report of a fault. -/
def message : Fault → String
  | .unsettled fault => fault.message
  | .incomplete failed total => s!"command extraction failed for {failed} of {total} files"
  | .unwritable fault => fault.message
  | .settingsExist => "Configuration file already exists. Use --force to overwrite."
  | .settingsUnwritable path _ => s!"Failed to write {path}"

/-- What caused the fault, beyond what the report says. -/
def cause? : Fault → Option FileFault
  | .unsettled fault => fault.cause?
  | .settingsUnwritable _ fault => some fault
  | _ => none

/-- The report of a fault with its cause. -/
def fullMessage (fault : Fault) : String :=
  match fault.cause? with
  | some cause => s!"{fault.message}\n\nCaused by:\n    {cause.message}"
  | none => fault.message

end Fault

/-- What a run says. -/
structure Report where
  stdout : String := ""
  stderr : String := ""
  fault? : Option Fault := none
deriving DecidableEq, Repr

/-- The line about a file that failed. -/
def failureLine (color : Bool) (failure : Failure) : String :=
  String.ofList (Terminal.painted color .alarm "error:") ++ s!" {failure.message}\n"

/-! ## Extraction -/

/-- What a run of the extraction says before anything is written. -/
def batchReport (color : Bool) : Batch → Report
  | .unsettled fault => { fault? := some (.unsettled fault) }
  | .failed failures total =>
    { stderr := String.join (failures.map (failureLine color)),
      fault? := some (.incomplete failures.length total) }
  | .rendered text => { stdout := text }

/-- Runs the extraction.  The text goes to the output file if there is one,
and to the standard output otherwise. -/
def extract (fs : FileSystem) (color : Bool) (arguments : ExtractArguments) :
    FileSystem × Report :=
  match Batch.run fs.read fs.currentPath color arguments, arguments.output? with
  | .rendered text, some path =>
    let (written, fault?) := fs.writeBelow path text.toUTF8
    (written, { fault? := fault?.map .unwritable })
  | batch, _ => (fs, batchReport color batch)

/-! ## Fresh settings -/

/-- Writes a fresh settings file into a directory. -/
def initIn (fs : FileSystem) (directory : String) (force : Bool) : FileSystem × Option Fault :=
  let path := Path.join directory Settings.fileName
  if fs.exists? path && !force then (fs, some .settingsExist)
  else
    match fs.write path Settings.template.toUTF8 with
    | .ok written => (written, none)
    | .error fault => (fs, some (.settingsUnwritable path fault))

/-- What is said about a fresh settings file. -/
def initNotice : String := s!"Created {Settings.fileName} configuration file\n"

/-- Writes a fresh settings file into the current directory. -/
def init (fs : FileSystem) (force : Bool) : FileSystem × Report :=
  match initIn fs "." force with
  | (written, none) => (written, { stdout := initNotice })
  | (same, some fault) => (same, { fault? := some fault })

/-! ## Command lines -/

/-- What is left of a run when it has ended. -/
structure Exit where
  code : Nat
  stdout : String
  stderr : String
deriving DecidableEq, Repr

/-- The line about the version. -/
def versionLine : String := "command-shapes 0.1.0\n"

/-- The answer to a request for help and to misuse. -/
def usage : String :=
  "Usage: command-shapes [-v] extract [--type NAME] [-c NAMES] [-f FORMAT] [-o FILE]\n" ++
  "         [--config FILE] [--strict-refs] [-j JOBS] FILES...\n" ++
  "       command-shapes [-v] init [--force]\n"

/-- The end of a run whose command line leads to no action. -/
def Exit.ofStop : Stop → Exit
  | .version => ⟨Stop.version.exitCode, versionLine, ""⟩
  | .help => ⟨Stop.help.exitCode, usage, ""⟩
  | stop => ⟨stop.exitCode, "", usage⟩

/-- The end of a run with a report. -/
def Exit.ofReport (report : Report) : Exit :=
  match report.fault? with
  | none => ⟨0, report.stdout, report.stderr⟩
  | some fault => ⟨1, report.stdout, report.stderr ++ s!"Error: {fault.fullMessage}\n"⟩

/-- Runs an invocation. -/
def runInvocation (fs : FileSystem) (color : Bool) (invocation : Invocation) :
    FileSystem × Report :=
  match invocation.action with
  | .init force => init fs force
  | .extract arguments => extract fs color arguments

/-- Runs a command line; the environment may name a settings file. -/
def run (fs : FileSystem) (color : Bool) (environment? : Option String)
    (arguments : List String) : FileSystem × Exit :=
  match CommandLine.invocation environment? arguments with
  | .error stop => (fs, Exit.ofStop stop)
  | .ok invocation =>
    let (after, report) := runInvocation fs color invocation
    (after, Exit.ofReport report)

end Program

end CommandSchema
