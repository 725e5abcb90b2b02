/-!
# CommandSchema.Command.Schema

The records that the extraction produces: the commands of a native component,
as generators of native code read them.
-/

namespace CommandSchema

/-- The primitive category of a parameter. -/
inductive ParamKind where
  | string
  | boolean
  | int32
deriving DecidableEq, Repr, Inhabited

/-- The word for a category. -/
def ParamKind.word : ParamKind → String
  | .string => "string"
  | .boolean => "boolean"
  | .int32 => "Int32"

/-- One parameter of a command; the ref of the component is never one. -/
structure Param where
  name : String
  kind : ParamKind
deriving DecidableEq, Repr, Inhabited

/-- A command that met the contract. -/
structure Command where
  name : String
  optional : Bool
  parameters : List Param
deriving DecidableEq, Repr, Inhabited

/-- The categories of a command's parameters, in order. -/
def Command.signature (c : Command) : List ParamKind := c.parameters.map Param.kind

/-- The commands extracted for one type of one file. -/
structure Component where
  path : String
  typeName : String
  commands : List Command
deriving DecidableEq, Repr, Inhabited

end CommandSchema
