import CommandSchema.Settings
import CommandSchema.Syntax.SourceFile
import CommandSchema.Typing.FileModel

/-!
# CommandSchema.Extraction

The commands of one source file.

A selection says which types and commands are wanted: those of all factory
calls in the file, those of the calls for one type, or the ones named.  Each
request yields one component; the first request that fails fails the file.
-/

namespace CommandSchema

open Syntax

/-- Which commands are wanted from a file. -/
inductive Selection where
  /-- Those of every factory call. -/
  | discovered
  /-- Those of the factory calls for one type. -/
  | discoveredType (typeName : String)
  /-- The named ones of the named type. -/
  | explicit (typeName : String) (commands : List String)
deriving DecidableEq, Repr

/-- The selection that a type and a list of commands make; commands alone
select nothing. -/
def Selection.of : (typeName : Option String) → (commands : Option (List String)) → Selection
  | some typeName, some commands => .explicit typeName commands
  | some typeName, none => .discoveredType typeName
  | none, _ => .discovered

/-- Why the commands of a file cannot be extracted. -/
inductive Failure where
  /-- The file cannot be read. -/
  | unreadable (path : String)
  /-- The text breaks the grammar. -/
  | malformed (path : String) (error : SyntaxError)
  /-- A factory call is not of the required form. -/
  | badCall (path : String) (fault : FactoryFault)
  /-- No factory call is there, or none for the type that is wanted. -/
  | noCall (path : String) (factories : List String) (typeName : Option String)
  /-- The file does not declare the type. -/
  | typeNotFound (path : String) (typeName : String)
  /-- A command is rejected. -/
  | rejected (path : String) (rejection : Rejection)
deriving DecidableEq, Repr

namespace Failure

/-- The report of a failure. -/
def message : Failure → String
  | .unreadable _ => "File system error: Failed to read source file"
  | .malformed path e =>
    s!"Parse error in {path}:{e.position.line}:{e.position.column}: {e.detail}"
  | .badCall path fault => s!"Discovery error in {path}: {Factory.faultMessage fault}"
  | .noCall path factories typeName =>
    let target := match typeName with
      | some name => s!" for `{name}`"
      | none => ""
    let names := " / ".intercalate factories
    s!"Discovery error in {path}: no {names} call found{target}"
  | .typeNotFound path typeName => s!"Type `{typeName}` is not declared in {path}"
  | .rejected path rejection => s!"{path}: {rejection.message}"

end Failure

namespace Extraction

/-- Parses a source text. -/
def parse (path text : String) : Except Failure SourceFile :=
  (SourceFile.parse path text).mapError (.malformed path)

/-- The types and commands that a selection wants from a file. -/
def wanted (settings : Settings) (selection : Selection) (file : SourceFile) :
    Except Failure (List (String × List String)) :=
  match selection with
  | .explicit typeName commands => .ok [(typeName, commands)]
  | .discovered => discovered none fun _ => true
  | .discoveredType typeName => discovered (some typeName) (·.typeName = typeName)
where
  /-- The requests of the factory calls that satisfy a condition. -/
  discovered (typeName : Option String) (keep : Request → Bool) :
      Except Failure (List (String × List String)) :=
    match Factory.requests settings.factoryNames file.root with
    | .error fault => .error (.badCall file.path fault)
    | .ok requests =>
      match requests.filter keep with
      | [] => .error (.noCall file.path settings.factoryNames typeName)
      | kept => .ok (kept.map fun r => (r.typeName, r.commands))

/-- The component with the named commands of a type. -/
def component (settings : Settings) (file : SourceFile) (typeName : String)
    (commands : List String) : Except Failure Component :=
  let scope := Scope.ofTree file.root settings.int32Names
  match scope.declaration? typeName with
  | none => .error (.typeNotFound file.path typeName)
  | some declaration =>
    match Contract.extract scope.model settings.refPolicy declaration commands with
    | .error rejection => .error (.rejected file.path rejection)
    | .ok commands => .ok ⟨file.path, typeName, commands⟩

/-- The components of a parsed file. -/
def ofFile (settings : Settings) (selection : Selection) (file : SourceFile) :
    Except Failure (List Component) := do
  let requests ← wanted settings selection file
  requests.mapM fun (typeName, commands) => component settings file typeName commands

/-- The components of a source text; the path decides on the dialect. -/
def ofText (settings : Settings) (selection : Selection) (path text : String) :
    Except Failure (List Component) := do
  ofFile settings selection (← parse path text)

end Extraction

end CommandSchema
