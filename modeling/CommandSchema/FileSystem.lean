import CommandSchema.Path

/-!
# CommandSchema.FileSystem

Files and directories as a value.

A file system is a list of named entries; the root directory is always there.
Paths are walked step by step: every step starts in a directory, so a missing
one and a file on the way are told apart, and `..` leads out of a directory
only if that directory exists.  An operation that fails says why, in the words
of the system.
-/

namespace CommandSchema

/-- Why an operation on files fails. -/
inductive FileFault where
  | notFound
  | alreadyExists
  | notDirectory
  | isDirectory
  /-- The bytes of a file are no text. -/
  | notText
  /-- Any other reason, in words. -/
  | other (reason : String)
deriving DecidableEq, Repr

/-- The words for a fault. -/
def FileFault.message : FileFault → String
  | .notFound => "No such file or directory (os error 2)"
  | .alreadyExists => "File exists (os error 17)"
  | .notDirectory => "Not a directory (os error 20)"
  | .isDirectory => "Is a directory (os error 21)"
  | .notText => "stream did not contain valid UTF-8"
  | .other reason => reason

/-- What stands under a name. -/
inductive Entry where
  | file (bytes : ByteArray)
  | directory

instance : DecidableEq Entry
  | .file a, .file b =>
    match ByteArray.decEq a b with
    | isTrue h => isTrue (congrArg Entry.file h)
    | isFalse h => isFalse fun hab => h (Entry.file.inj hab)
  | .directory, .directory => isTrue rfl
  | .file _, .directory => isFalse nofun
  | .directory, .file _ => isFalse nofun

/-- The names that lead from the root to an entry. -/
abbrev Location := List (List Char)

/-- Files and directories, and the directory in which relative paths start. -/
structure FileSystem where
  entries : List (Location × Entry) := []
  current : Location := []

namespace FileSystem

/-! ## Entries -/

/-- The entry at a location. -/
def entry? (fs : FileSystem) (place : Location) : Option Entry :=
  if place = [] then some .directory else (fs.entries.find? (·.1 = place)).map (·.2)

/-- The file system with the given entry at a location. -/
def set (fs : FileSystem) (place : Location) (entry : Entry) : FileSystem :=
  { fs with entries := (place, entry) :: fs.entries.filter (·.1 ≠ place) }

/-- The file system without a location and all that is below it. -/
def remove (fs : FileSystem) (place : Location) : FileSystem :=
  { fs with entries := fs.entries.filter (!place.isPrefixOf ·.1) }

/-- The file system with another current directory. -/
def enter (fs : FileSystem) (place : Location) : FileSystem := { fs with current := place }

/-! ## Paths -/

/-- The location that steps lead to.  The last step may lead to nothing. -/
def walk (fs : FileSystem) : Location → List Path.Component → Except FileFault Location
  | place, [] => .ok place
  | place, step :: steps =>
    match fs.entry? place with
    | none => .error .notFound
    | some (.file _) => .error .notDirectory
    | some .directory =>
      match step with
      | .here => walk fs place steps
      | .up => walk fs place.dropLast steps
      | .name name => walk fs (place ++ [name]) steps

/-- The location that a path names. -/
def locate (fs : FileSystem) (path : String) : Except FileFault Location :=
  if path.isEmpty then .error .notFound
  else fs.walk (if Path.isAbsolute path then [] else fs.current) (Path.components path)

/-- The text of the path of the current directory. -/
def currentPath (fs : FileSystem) : String :=
  String.ofList ('/' :: ['/'].intercalate fs.current)

/-! ## Reading -/

/-- The text of a file. -/
def read (fs : FileSystem) (path : String) : Except FileFault String := do
  match fs.entry? (← fs.locate path) with
  | none => .error .notFound
  | some .directory => .error .isDirectory
  | some (.file bytes) =>
    if Path.namesDirectory path then .error .notDirectory
    else
      match String.fromUTF8? bytes with
      | some text => .ok text
      | none => .error .notText

/-- Whether a path leads to something. -/
def exists? (fs : FileSystem) (path : String) : Bool :=
  match fs.locate path with
  | .error _ => false
  | .ok place =>
    match fs.entry? place with
    | none => false
    | some .directory => true
    | some (.file _) => !Path.namesDirectory path

/-- Whether a path leads to a directory. -/
def isDirectory (fs : FileSystem) (path : String) : Bool :=
  match fs.locate path with
  | .error _ => false
  | .ok place => fs.entry? place = some .directory

/-! ## Writing -/

/-- Makes a file, or replaces what is in it. -/
def write (fs : FileSystem) (path : String) (bytes : ByteArray) :
    Except FileFault FileSystem := do
  let place ← fs.locate path
  match fs.entry? place with
  | some .directory => .error .isDirectory
  | some (.file _) =>
    if Path.namesDirectory path then .error .notDirectory else .ok (fs.set place (.file bytes))
  | none =>
    if Path.namesDirectory path then .error .isDirectory else .ok (fs.set place (.file bytes))

/-- Makes a directory in an existing one. -/
def makeDirectory (fs : FileSystem) (path : String) : Except FileFault FileSystem := do
  let place ← fs.locate path
  match fs.entry? place with
  | some _ => .error .alreadyExists
  | none => .ok (fs.set place .directory)

/-- Makes the first directory of a list, each of which is in the next one,
after those that are missing above it.  What was made before a fault
stays. -/
def makeAll (fs : FileSystem) : List String → FileSystem × Option FileFault
  | [] => (fs, none)
  | path :: above =>
    if path.isEmpty then (fs, none)
    else
      match fs.makeDirectory path with
      | .ok made => (made, none)
      | .error .notFound =>
        match fs.makeAll above with
        | (next, some fault) => (next, some fault)
        | (next, none) =>
          match next.makeDirectory path with
          | .ok made => (made, none)
          | .error fault => (next, if next.isDirectory path then none else some fault)
      | .error fault => (fs, if fs.isDirectory path then none else some fault)

/-- Makes a directory and those above it, as far as they are missing. -/
def makeDirectories (fs : FileSystem) (path : String) : FileSystem × Option FileFault :=
  fs.makeAll (Path.ancestors (path.length + 1) path)

/-- Writes a file and makes the directories above it. -/
def writeBelow (fs : FileSystem) (path : String) (bytes : ByteArray) :
    FileSystem × Option FileFault :=
  let (made, fault?) :=
    match Path.parent? path with
    | some above => fs.makeDirectories above
    | none => (fs, none)
  match fault?, made.write path bytes with
  | some fault, _ => (made, some fault)
  | none, .error fault => (made, some fault)
  | none, .ok written => (written, none)

/-! ## Listing -/

/-- The path of a location below another one; a directory's ends in a
slash. -/
def pathBelow (place : Location) : Location × Entry → Option String
  | (other, entry) =>
    let names := other.drop place.length
    if place.isPrefixOf other && !names.isEmpty then
      let path := ['/'].intercalate names
      some (String.ofList (if entry = .directory then path ++ ['/'] else path))
    else none

/-- The paths of all entries below a location, in the order of their code
points. -/
def list (fs : FileSystem) (place : Location) : List String :=
  (fs.entries.filterMap (pathBelow place)).mergeSort (fun a b => decide (a ≤ b))

end FileSystem

end CommandSchema
