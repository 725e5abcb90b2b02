import CommandSchema.Syntax.StringLiteral

/-!
# CommandSchema.Factory

The calls by which a file declares its commands.

A factory is called with the type that declares the commands as its type
argument and an object that lists their names:
`make<Type>({ supportedCommands: ['first', 'second'] })`.  All calls in a file
count, at any depth, in the order in which they start.  A call that is not of
this form makes the file's list of requests unreadable, and the fault names
the first requirement that it misses.
-/

namespace CommandSchema

open Syntax

/-- The commands that a factory call asks for. -/
structure Request where
  typeName : String
  commands : List String
  /-- The line that the call starts on. -/
  line : Nat
deriving DecidableEq, Repr

/-- What a factory call has to provide. -/
inductive Requirement where
  | typeArgument
  | options
  | commandList
deriving DecidableEq, Repr

/-- A factory call that misses a requirement. -/
structure FactoryFault where
  factory : String
  line : Nat
  missing : Requirement
deriving DecidableEq, Repr

namespace Factory

/-- The names of factories where no settings say otherwise. -/
def defaultNames : List String := ["codegenNativeCommands"]

/-- The property that lists the commands. -/
def commandsProperty : String := "supportedCommands"

/-- The report of a fault, without the file. -/
def faultMessage (fault : FactoryFault) : String :=
  let factory := "`" ++ fault.factory ++ "`"
  let what := match fault.missing with
    | .typeArgument => s!"{factory} needs the command type as its type argument"
    | .options => s!"{factory} needs an options object"
    | .commandList =>
      s!"{factory} options need `{commandsProperty}` as an array of string literals"
  s!"line {fault.line}: {what}"

/-! ## Finding the calls -/

/-- The text of what a call calls. -/
def callee? (n : Node) : Option String := (n.child? .function).map Node.text

/-- Whether a node is a call of one of the factories. -/
def isCall (factories : List String) (n : Node) : Bool :=
  n.kind = .callExpression && (callee? n).any (· ∈ factories)

/-- The factory calls of a tree, in preorder. -/
def calls (factories : List String) (root : Node) : List Node :=
  root.preorder.filter (isCall factories)

/-! ## Reading a call -/

/-- The name of the command type. -/
def typeName? (call : Node) : Option String := do
  let argument ← (← call.child? .typeArguments).firstNamed?
  if argument.kind = .typeIdentifier ∨ argument.kind = .nestedTypeIdentifier then
    some argument.text
  else none

/-- The object with the options. -/
def options? (call : Node) : Option Node := do
  let argument ← (← call.child? .arguments).firstNamed?
  if argument.kind = .object then some argument else none

/-- The name of a property of an object, a quoted one decoded. -/
def keyName? (pair : Node) : Option String :=
  (pair.child? .key).map fun key =>
    if key.kind = .stringLiteral then key.stringValue else key.text

/-- The value of a string literal. -/
def string? (n : Node) : Option String :=
  if n.kind = .stringLiteral then some n.stringValue else none

/-- The names in the array of commands; all its elements have to be string
literals. -/
def commands? (options : Node) : Option (List String) := do
  let pair ← options.namedChildren.find? fun n =>
    n.kind = .pair && keyName? n = some commandsProperty
  let value ← pair.child? .value
  if value.kind = .array then
    (value.namedChildren.filter (!·.isComment)).mapM string?
  else none

/-- The request that a factory call makes. -/
def read (call : Node) : Except FactoryFault Request :=
  let fault (missing : Requirement) : Except FactoryFault Request :=
    .error ⟨(callee? call).getD "", call.start.line, missing⟩
  match typeName? call with
  | none => fault .typeArgument
  | some typeName =>
    match options? call with
    | none => fault .options
    | some options =>
      match commands? options with
      | none => fault .commandList
      | some commands => .ok ⟨typeName, commands, call.start.line⟩

/-- The requests of all factory calls of a tree, in order, or the fault of the
first call that has one. -/
def requests (factories : List String) (root : Node) :
    Except FactoryFault (List Request) :=
  (calls factories root).mapM read

end Factory

end CommandSchema
