import CommandSchema.Json.Value

/-!
# CommandSchema.Json.Text

The written form of JSON values.

Every item and every field stands on a line of its own, two blanks further in
than its container; an empty container is written as its brackets alone.
Within a text only what JSON forbids is escaped: the quote, the backslash and
the control characters.
-/

namespace CommandSchema.Json

/-! ## Texts -/

/-- The lower-case digit for a number below sixteen. -/
def hexDigit (n : Nat) : Char :=
  if n < 10 then Char.ofNat ('0'.toNat + n) else Char.ofNat ('a'.toNat + (n - 10))

/-- The written form of one character of a text. -/
def escape (c : Char) : List Char :=
  match c with
  | '"' => ['\\', '"']
  | '\\' => ['\\', '\\']
  | '\x08' => ['\\', 'b']
  | '\x0c' => ['\\', 'f']
  | '\n' => ['\\', 'n']
  | '\r' => ['\\', 'r']
  | '\t' => ['\\', 't']
  | c =>
    if c < ' ' then
      ['\\', 'u', '0', '0', hexDigit (c.toNat / 16), hexDigit (c.toNat % 16)]
    else [c]

/-- A text between quotes. -/
def quoted (s : String) : List Char :=
  '"' :: s.toList.flatMap escape ++ ['"']

/-! ## Values -/

/-- The start of a new line at the given depth. -/
def newLine (depth : Nat) : List Char := '\n' :: List.replicate (2 * depth) ' '

mutual

/-- The written form of a value whose container stands at the given depth. -/
def write (depth : Nat) : Json → List Char
  | .null => "null".toList
  | .bool value => if value then "true".toList else "false".toList
  | .number literal => literal.toList
  | .string value => quoted value
  | .array [] => ['[', ']']
  | .array (item :: items) =>
    '[' :: newLine (depth + 1) ++ write (depth + 1) item ++ writeItems (depth + 1) items ++
      newLine depth ++ [']']
  | .object [] => ['\x7b', '\x7d']
  | .object ((name, value) :: fields) =>
    '\x7b' :: newLine (depth + 1) ++ quoted name ++ [':', ' '] ++ write (depth + 1) value ++
      writeFields (depth + 1) fields ++ newLine depth ++ ['\x7d']

/-- The items that follow the first one. -/
def writeItems (depth : Nat) : List Json → List Char
  | [] => []
  | item :: items => ',' :: newLine depth ++ write depth item ++ writeItems depth items

/-- The fields that follow the first one. -/
def writeFields (depth : Nat) : List (String × Json) → List Char
  | [] => []
  | (name, value) :: fields =>
    ',' :: newLine depth ++ quoted name ++ [':', ' '] ++ write depth value ++
      writeFields depth fields

end

/-- The text of a value as a document: the value and a line end. -/
def document (value : Json) : List Char := write 0 value ++ ['\n']

end CommandSchema.Json
