import CommandSchema.Command.Schema
import CommandSchema.Json.Value

/-!
# CommandSchema.Command.Record

Schemas as values of JSON.

The names of the fields and the words for the categories are those that
generators of native code expect.  `ofJson?` reads back what `toJson`
writes.
-/

namespace CommandSchema

/-! ## Parameters -/

namespace ParamKind

/-- The word by which a category is known in a record. -/
def annotation : ParamKind → String
  | .string => "StringTypeAnnotation"
  | .boolean => "BooleanTypeAnnotation"
  | .int32 => "Int32TypeAnnotation"

/-- The category that a word of a record means. -/
def ofAnnotation? : String → Option ParamKind
  | "StringTypeAnnotation" => some .string
  | "BooleanTypeAnnotation" => some .boolean
  | "Int32TypeAnnotation" => some .int32
  | _ => none

/-- The record of a category. -/
def toJson (kind : ParamKind) : Json := .object [("type", .string kind.annotation)]

/-- The category that a record holds. -/
def ofJson? (j : Json) : Option ParamKind :=
  match j.record? ["type"] with
  | some [type] => type.string?.bind ofAnnotation?
  | _ => none

end ParamKind

namespace Param

/-- The record of a parameter. -/
def toJson (p : Param) : Json :=
  .object [("name", .string p.name), ("typeAnnotation", p.kind.toJson)]

/-- The parameter that a record holds. -/
def ofJson? (j : Json) : Option Param :=
  match j.record? ["name", "typeAnnotation"] with
  | some [name, kind] => do return ⟨← name.string?, ← ParamKind.ofJson? kind⟩
  | _ => none

end Param

/-! ## Commands and components -/

namespace Command

/-- The record of a command. -/
def toJson (c : Command) : Json :=
  .object [("name", .string c.name), ("optional", .bool c.optional),
    ("parameters", .array (c.parameters.map Param.toJson))]

/-- The command that a record holds. -/
def ofJson? (j : Json) : Option Command :=
  match j.record? ["name", "optional", "parameters"] with
  | some [name, optional, parameters] => do
    return ⟨← name.string?, ← optional.bool?, ← (← parameters.items?).mapM Param.ofJson?⟩
  | _ => none

end Command

namespace Component

/-- The record of a component. -/
def toJson (c : Component) : Json :=
  .object [("path", .string c.path), ("typeName", .string c.typeName),
    ("commands", .array (c.commands.map Command.toJson))]

/-- The component that a record holds. -/
def ofJson? (j : Json) : Option Component :=
  match j.record? ["path", "typeName", "commands"] with
  | some [path, typeName, commands] => do
    return ⟨← path.string?, ← typeName.string?, ← (← commands.items?).mapM Command.ofJson?⟩
  | _ => none

/-- The value that holds several components. -/
def listToJson (components : List Component) : Json :=
  .array (components.map Component.toJson)

/-- The components that a value holds. -/
def listOfJson? (j : Json) : Option (List Component) := do
  (← j.items?).mapM Component.ofJson?

end Component

end CommandSchema
