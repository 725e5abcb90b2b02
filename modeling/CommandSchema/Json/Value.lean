/-!
# CommandSchema.Json.Value

The values of JSON, and the reading of records out of them.

A record is an object that has a value for each of the record's fields.  It
may also stand as an array that holds just those values in order, so that
compact writers, which leave the names out, are understood too.
-/

namespace CommandSchema

/-- A value of JSON. -/
inductive Json where
  | null
  | bool (value : Bool)
  /-- A number keeps its literal, since no schema holds one. -/
  | number (literal : String)
  | string (value : String)
  | array (items : List Json)
  /-- The fields of an object, in the order in which they are written. -/
  | object (fields : List (String × Json))
deriving Repr, Inhabited

namespace Json

/-! ## Scalars -/

/-- The truth value that a value is. -/
def bool? : Json → Option Bool
  | .bool value => some value
  | _ => none

/-- The text that a value is. -/
def string? : Json → Option String
  | .string value => some value
  | _ => none

/-! ## Lists and records -/

/-- The items of an array. -/
def items? : Json → Option (List Json)
  | .array items => some items
  | _ => none

/-- The value of a field of an object. -/
def field? (fields : List (String × Json)) (name : String) : Option Json :=
  (fields.find? (·.1 = name)).map (·.2)

/-- The values of a record's fields, in the order of the names.  Fields that
the record does not know are passed over in an object; an array has to hold
the record's values and nothing else. -/
def record? (names : List String) : Json → Option (List Json)
  | .object fields => names.mapM (field? fields)
  | .array items => if items.length = names.length then some items else none
  | _ => none

end Json

end CommandSchema
