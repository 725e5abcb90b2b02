import CommandSchema.Program

/-!
# CommandSchema.Main

The program on the files of the system.

What a run says and whether it writes is decided by pure functions.  This
module reads the files that a run may ask for, and carries out what the run
decides.
-/

namespace CommandSchema.Main

open CommandLine (Action)
open Program (Exit Report)

/-- The fault that an error of the system is. -/
def faultOf : IO.Error → FileFault
  | .noFileOrDirectory .. => .notFound
  | .noSuchThing .. => .notFound
  | .alreadyExists .. => .alreadyExists
  | e => .other (toString e)

/-- The text of a file. -/
def readText (path : String) : IO (Except FileFault String) := do
  try
    let bytes ← IO.FS.readBinFile path
    match String.fromUTF8? bytes with
    | some text => return .ok text
    | none => return .error .notText
  catch e => return .error (faultOf e)

/-- The texts of several files, as a function of the path. -/
def readAll (paths : List String) : IO Settings.Reading := do
  let texts ← paths.mapM fun path => return (path, ← readText path)
  return fun path => ((texts.find? (·.1 = path)).map (·.2)).getD (.error .notFound)

/-- Writes a file, after the directories above it. -/
def writeText (path text : String) : IO (Option FileFault) := do
  try
    match Path.parent? path with
    | some above => if !above.isEmpty then IO.FS.createDirAll above
    | none => pure ()
    IO.FS.writeFile path text
    return none
  catch e => return some (faultOf e)

/-- Whether a path leads to something. -/
def leadsToFile (path : String) : IO Bool := do
  try
    let _ ← IO.FS.Handle.mk path .read
    return true
  catch
    | .noFileOrDirectory .. => return false
    | _ => return true

/-- Runs the extraction in the given directory. -/
def extract (directory : String) (color : Bool) (arguments : CommandLine.ExtractArguments) :
    IO Report := do
  let reading ← readAll (Batch.sources directory arguments)
  match Batch.run reading directory color arguments, arguments.output? with
  | .rendered text, some path =>
    return { fault? := (← writeText path text).map .unwritable }
  | batch, _ => return Program.batchReport color batch

/-- Writes a fresh settings file into the current directory. -/
def init (force : Bool) : IO Report := do
  let path := Path.join "." Settings.fileName
  if (← leadsToFile path) && !force then return { fault? := some .settingsExist }
  try
    IO.FS.writeFile path Settings.template
    return { stdout := Program.initNotice }
  catch e => return { fault? := some (.settingsUnwritable path (faultOf e)) }

/-- Runs a command line. -/
def run (arguments : List String) : IO Exit := do
  match CommandLine.invocation (← IO.getEnv "COMMAND_SHAPES_CONFIG") arguments with
  | .error stop => return Exit.ofStop stop
  | .ok invocation =>
    let color := (← (← IO.getStdout).isTty) && (← IO.getEnv "NO_COLOR").isNone
    match invocation.action with
    | .init force => return Exit.ofReport (← init force)
    | .extract arguments =>
      return Exit.ofReport (← extract (← IO.currentDir).toString color arguments)

end CommandSchema.Main

/-- Runs the program and gives its exit code. -/
def main (arguments : List String) : IO UInt32 := do
  let result ← CommandSchema.Main.run arguments
  (← IO.getStdout).putStr result.stdout
  (← IO.getStderr).putStr result.stderr
  return result.code.toUInt32
