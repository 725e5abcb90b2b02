import CommandSchema.Toml.Scalar

/-!
# CommandSchema.Toml.Document

TOML documents: keys, values, lines, and the table that a document means.

Brackets nest up to a fixed depth, which is also what makes the reading of
values come to an end; the length of the text bounds every repetition.
-/

namespace CommandSchema.Toml

/-! ## Keys -/

/-- Whether the character can stand in a key without quotes. -/
def isKeyChar (c : Char) : Bool := c.isAlphanum || c = '_' || c = '-'

/-- One part of a key. -/
def keyPart : Reader String := fun s =>
  match s.takeWhile isKeyChar with
  | [] => lineString s
  | name => some (String.ofList name, s.drop name.length)

/-- The parts of a key that follow the first one. -/
def moreKeyParts : Nat → Reader (List String)
  | 0, s => some ([], s)
  | n + 1, s =>
    match skipBlanks s with
    | '.' :: rest => do
      let (name, rest) ← keyPart (skipBlanks rest)
      let (names, rest) ← moreKeyParts n rest
      return (name :: names, rest)
    | _ => some ([], s)

/-- A key: the path of its leading parts, and its last part. -/
def key : Reader (List String × String) := fun s => do
  let (name, rest) ← keyPart s
  let (names, rest) ← moreKeyParts rest.length rest
  let parts := name :: names
  return ((parts.dropLast, names.getLastD name), rest)

/-! ## Values -/

/-- A key, the equals sign and a value. -/
def assignment (value : Reader Value) : Reader (List String × String × Value) := fun s => do
  let ((path, name), rest) ← key s
  match skipBlanks rest with
  | '=' :: rest =>
    let (v, rest) ← value (skipBlanks rest)
    return ((path, name, v), rest)
  | _ => none

/-- Items with commas between them, up to the closing bracket; a comma may
follow the last one. -/
def listed {α : Type} (close : Char) (item : Reader α) : Nat → Reader (List α)
  | 0, _ => none
  | n + 1, s => do
    match ← skipLines false s with
    | [] => none
    | c :: rest =>
      if c = close then return ([], rest)
      let (x, rest) ← item (c :: rest)
      match ← skipLines false rest with
      | [] => none
      | d :: rest =>
        if d = ',' then
          let (xs, rest) ← listed close item n rest
          return (x :: xs, rest)
        else if d = close then return ([x], rest)
        else none

/-- The table in braces that the assignments make. -/
def inlineTable? (assignments : List (List String × String × Value)) : Option Value := do
  let fields ← assignments.foldlM (fun fields (path, name, v) => Fields.assign? path name v fields) []
  return .table .inline fields

/-- A value in which brackets nest at most to the given depth. -/
def value : (depth : Nat) → Reader Value
  | depth, '[' :: rest =>
    match depth with
    | 0 => none
    | depth + 1 => do
      let (items, rest) ← listed ']' (value depth) (rest.length + 1) rest
      return (.array items, rest)
  | depth, '\x7b' :: rest =>
    match depth with
    | 0 => none
    | depth + 1 => do
      let (items, rest) ← listed '\x7d' (assignment (value depth)) (rest.length + 1) rest
      return (← inlineTable? items, rest)
  | _, c :: rest =>
    if c = '"' || c = '\'' then (anyString (c :: rest)).map fun (s, rest) => (.string s, rest)
    else
      let run := bareRun (c :: rest)
      (scalar? run).map fun v => (v, (c :: rest).drop run.length)
  | _, [] => none

/-- The depth to which brackets may nest. -/
def maxDepth : Nat := 80

/-! ## Lines -/

/-- What a line says. -/
inductive Statement where
  /-- A header in brackets. -/
  | header (path : List String) (name : String)
  /-- A header in double brackets. -/
  | itemHeader (path : List String) (name : String)
  | assign (path : List String) (name : String) (value : Value)
deriving Repr, Inhabited

/-- A statement, up to the end of its line. -/
def statement : Reader Statement
  | '[' :: '[' :: rest => do
    let ((path, name), rest) ← key (skipBlanks rest)
    match skipBlanks rest with
    | ']' :: ']' :: rest => return (.itemHeader path name, rest)
    | _ => none
  | '[' :: rest => do
    let ((path, name), rest) ← key (skipBlanks rest)
    match skipBlanks rest with
    | ']' :: rest => return (.header path name, rest)
    | _ => none
  | s => do
    let ((path, name, v), rest) ← assignment (value maxDepth) s
    return (.assign path name v, rest)

/-- The statements of a text, which all have to end with their lines. -/
def statementsOf : Nat → List Char → Option (List Statement)
  | 0, _ => none
  | n + 1, s => do
    match ← skipLines false s with
    | [] => return []
    | s =>
      let (first, rest) ← statement s
      if lineEnds rest then return first :: (← statementsOf n rest) else none

/-! ## Documents -/

/-- A document as far as it was read: its table, and the path of the header
that the next assignments belong to. -/
structure Progress where
  fields : Fields
  current : List String
deriving Repr

/-- The document after one more statement. -/
def Progress.next? (p : Progress) : Statement → Option Progress
  | .header path name => do
    return ⟨← Fields.within path (Fields.openHere? name) p.fields, path ++ [name]⟩
  | .itemHeader path name => do
    return ⟨← Fields.within path (Fields.openItemHere? name) p.fields, path ++ [name]⟩
  | .assign path name v => do
    return ⟨← Fields.within p.current (Fields.assign? path name v) p.fields, p.current⟩

/-- The text without the mark of its encoding. -/
def withoutMark : List Char → List Char
  | '\ufeff' :: rest => rest
  | s => s

/-- The table that a text means, if it is a document. -/
def document? (text : String) : Option Fields := do
  let s := withoutMark text.toList
  let statements ← statementsOf (s.length + 1) s
  let last ← statements.foldlM Progress.next? ⟨[], []⟩
  return last.fields

end CommandSchema.Toml
