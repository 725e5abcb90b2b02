import CommandSchema.CommandLine.Invocation
import CommandSchema.Extraction
import CommandSchema.Rendering
import CommandSchema.Settings.Search

/-!
# CommandSchema.Batch

The extraction of several files in one run.

Every file is read and extracted on its own, so the outcomes do not depend on
the order in which that happens.  A run is all or nothing: when a file fails,
nothing is written anywhere, and every file that failed is reported, in the
order in which the files were given.
-/

namespace CommandSchema

open CommandLine (ExtractArguments)
open Settings (Reading LoadFault)

/-- What a run comes to. -/
inductive Batch where
  /-- There are no settings to run under. -/
  | unsettled (fault : LoadFault)
  /-- Some of the files failed. -/
  | failed (failures : List Failure) (total : Nat)
  /-- All files succeeded, and their components have this text. -/
  | rendered (text : String)
deriving DecidableEq

namespace Batch

/-! ## Settings -/

/-- The settings of a run in the given directory. -/
def settings (reading : Reading) (directory : String) (arguments : ExtractArguments) :
    Except LoadFault Settings := do
  let found ← match arguments.config? with
    | some path => Settings.load reading path
    | none => pure (Settings.discover reading directory)
  return if arguments.strictRefs then found.strict else found

/-- The format of the output: the one asked for, or else the one in the
settings. -/
def format (settings : Settings) (arguments : ExtractArguments) : OutputFormat :=
  (arguments.format?.or settings.outputFormat?).getD .json

/-! ## Files -/

/-- The components of one file. -/
def outcome (reading : Reading) (settings : Settings) (selection : Selection) (path : String) :
    Except Failure (List Component) :=
  match reading path with
  | .error _ => .error (.unreadable path)
  | .ok text => Extraction.ofText settings selection path text

/-- The outcomes of several files, in the order of the files. -/
def outcomes (reading : Reading) (settings : Settings) (selection : Selection)
    (paths : List String) : List (Except Failure (List Component)) :=
  paths.map (outcome reading settings selection)

/-- The failure that an outcome is. -/
def failure? {α : Type} : Except Failure α → Option Failure
  | .error f => some f
  | .ok _ => none

/-- The failures among outcomes, in order. -/
def failures {α : Type} (outcomes : List (Except Failure α)) : List Failure :=
  outcomes.filterMap failure?

/-- The components of all outcomes, in order. -/
def components (outcomes : List (Except Failure (List Component))) : List Component :=
  (outcomes.filterMap Except.toOption).flatten

/-! ## Runs -/

/-- A run in the given directory. -/
def run (reading : Reading) (directory : String) (color : Bool) (arguments : ExtractArguments) :
    Batch :=
  match settings reading directory arguments with
  | .error fault => .unsettled fault
  | .ok settings =>
    let outcomes := outcomes reading settings arguments.selection arguments.files
    match failures outcomes with
    | [] => .rendered ((format settings arguments).render color (components outcomes))
    | failures => .failed failures arguments.files.length

/-- The paths that a run may read. -/
def sources (directory : String) (arguments : ExtractArguments) : List String :=
  (match arguments.config? with
    | some path => [path]
    | none => Settings.candidates directory) ++ arguments.files

end Batch

end CommandSchema
