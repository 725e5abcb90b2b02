/-!
# CommandSchema.Command.Rejection

Why a command cannot be extracted.

A `Violation` is the rule that is broken; a `Rejection` adds the command and
the text of the declaration that owns it, so that a report can be traced
without further tools.
-/

namespace CommandSchema

/-- The rule of the contract that a command breaks. -/
inductive Violation where
  /-- The owner has no such member. -/
  | memberNotFound
  /-- The member has some other number of declarations than one. -/
  | ambiguous (count : Nat)
  /-- The member cannot be called in exactly one way. -/
  | notAFunction
  /-- The command has type parameters. -/
  | generic
  /-- A parameter is not a plain one. -/
  | malformedParameter (text : String)
  /-- The result is not void. -/
  | nonVoidResult (typeText : String)
  /-- There is no parameter for the ref. -/
  | missingRef
  /-- The first parameter is not a ref. -/
  | invalidRef (typeText : String)
  /-- A later parameter is of no primitive category. -/
  | unsupportedParameter (name typeText : String)
deriving DecidableEq, Repr

/-- A command that cannot be extracted. -/
structure Rejection where
  command : String
  /-- The text of the declaration that owns the command. -/
  owner : String
  violation : Violation
deriving DecidableEq, Repr

namespace Rejection

/-- The parameter at fault, for the violations that name one. -/
def parameter? (r : Rejection) : Option String :=
  match r.violation with
  | .malformedParameter text => some text
  | .unsupportedParameter name _ => some name
  | _ => none

/-- The report of a rejection. -/
def message (r : Rejection) : String :=
  let command := "`" ++ r.command ++ "`"
  let sentence := match r.violation with
    | .memberNotFound => s!"Cannot find command {command}"
    | .notAFunction => s!"Command {command} should be a function"
    | .ambiguous count => s!"Command {command} must have exactly one declaration, found {count}"
    | .generic => s!"Command {command} should not be generic"
    | .malformedParameter text =>
      s!"Parameter `{text}` of command {command} is not a parameter declaration"
    | .nonVoidResult text => s!"Command {command} should return void, found `{text}`"
    | .missingRef =>
      s!"The first parameter of command {command} should be a component ref, " ++
        "but the command has no parameters"
    | .invalidRef text =>
      s!"The first parameter of command {command} should be a component ref " ++
        s!"like Ref<'ViewName'>, found `{text}`"
    | .unsupportedParameter name text =>
      s!"Parameter `{name}` of command {command} has unsupported type `{text}` " ++
        "(expected string, boolean or Int32)"
  s!"{sentence} in type: {r.owner}"

end Rejection

end CommandSchema
