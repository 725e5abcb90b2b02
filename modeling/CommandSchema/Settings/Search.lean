import CommandSchema.FileSystem
import CommandSchema.Settings.File

/-!
# CommandSchema.Settings.Search

Where settings come from.

A settings file that is named has to be there and to hold settings.  Otherwise
the directories from a start upwards are searched, a limited number of them:
a directory whose settings file is missing, unreadable or no settings is passed
over, and the defaults stand in when none is left.

Reading is a function from paths to texts here, so what is said of a search
holds for every state of the files.
-/

namespace CommandSchema.Settings

/-- A state of the files as far as reading shows it. -/
abbrev Reading := String → Except FileFault String

/-- Why a named settings file cannot be used. -/
inductive LoadFault where
  | unreadable (path : String) (fault : FileFault)
  | unusable (path : String) (problem : Problem)
deriving DecidableEq, Repr

namespace LoadFault

/-- The report of a fault. -/
def message : LoadFault → String
  | .unreadable .. => "File system error: Failed to read config file"
  | .unusable path problem => s!"Configuration error: {path}: {problem.message}"

/-- What caused the fault, beyond what the report says. -/
def cause? : LoadFault → Option FileFault
  | .unreadable _ fault => some fault
  | .unusable .. => none

end LoadFault

/-- The settings in a named file. -/
def load (reading : Reading) (path : String) : Except LoadFault Settings :=
  match reading path with
  | .error fault => .error (.unreadable path fault)
  | .ok text => (parse text).mapError (.unusable path)

/-- The greatest number of directories that are searched. -/
def maxDirectories : Nat := 10

/-- The settings files that a search looks at, in its order. -/
def candidates (start : String) : List String :=
  (Path.ancestors maxDirectories start).map (Path.join · fileName)

/-- The settings that a search finds. -/
def discover (reading : Reading) (start : String) : Settings :=
  ((candidates start).findSome? fun path => (load reading path).toOption).getD default

end CommandSchema.Settings
