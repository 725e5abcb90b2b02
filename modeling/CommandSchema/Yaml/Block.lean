import CommandSchema.Yaml.Scalar

/-!
# CommandSchema.Yaml.Block

The block layout of YAML for the values of JSON.

An item follows its dash and a field its colon.  The dashes of a list in a
field stand in the column of the field's name; a record in a field is moved
in by two.  Empty containers are written in brackets.  The names of fields
are written bare, so they have to be plain words.
-/

namespace CommandSchema.Yaml

/-- Spaces up to the given column. -/
def margin (column : Nat) : List Char := List.replicate column ' '

/-- A value without parts, up to the end of its last line. -/
def leaf (margin : Nat) : Json → List Char
  | .null => "null\n".toList
  | .bool value => if value then "true\n".toList else "false\n".toList
  | .number literal => literal.toList ++ ['\n']
  | .string value => scalar margin value
  | .array _ => "[]\n".toList
  | .object _ => "\x7b\x7d\n".toList

mutual

/-- What follows the dash of an item, when the dash stands in the given
column. -/
def itemTail (column : Nat) : Json → List Char
  | .array (item :: items) => ' ' :: writeItems (column + 2) false (item :: items)
  | .object (field :: fields) => ' ' :: writeFields (column + 2) false (field :: fields)
  | value => ' ' :: leaf (column + 2) value

/-- What follows the colon of a field, when the name stands in the given
column. -/
def fieldTail (column : Nat) : Json → List Char
  | .array (item :: items) => '\n' :: writeItems column true (item :: items)
  | .object (field :: fields) => '\n' :: writeFields (column + 2) true (field :: fields)
  | value => ' ' :: leaf (column + 2) value

/-- The items of a list; the first one is only moved in when it is told to
be. -/
def writeItems (column : Nat) : (indented : Bool) → List Json → List Char
  | _, [] => []
  | indented, item :: items =>
    (if indented then margin column else []) ++ '-' :: itemTail column item ++
      writeItems column true items

/-- The fields of a record; the first one is only moved in when it is told to
be. -/
def writeFields (column : Nat) : (indented : Bool) → List (String × Json) → List Char
  | _, [] => []
  | indented, (name, value) :: fields =>
    (if indented then margin column else []) ++ name.toList ++ ':' :: fieldTail column value ++
      writeFields column true fields

end

/-- The text of a value as a document. -/
def document : Json → List Char
  | .array (item :: items) => writeItems 0 true (item :: items)
  | .object (field :: fields) => writeFields 0 true (field :: fields)
  | value => leaf 0 value

end CommandSchema.Yaml
