/-!
# CommandSchema.Toml.Value

The values of TOML, and tables as they are built up line by line.

A table remembers how it came about, since that decides what may still be
added to it: a table with a header cannot get a second one, one that was
spelled out by dotted keys can only grow by dotted keys, and one in braces is
complete.  `open?`, `openItem?` and `assign?` are the three kinds of lines as
steps on the table of the whole document; each refuses a line that would
define something twice.
-/

namespace CommandSchema.Toml

/-- How a table came about. -/
inductive Origin where
  /-- By a header of its own. -/
  | header
  /-- On the way to the table of a longer header. -/
  | implied
  /-- On the way to the last part of a dotted key. -/
  | dotted
  /-- Written in braces. -/
  | inline
deriving DecidableEq, Repr, Inhabited

/-- A value of TOML. -/
inductive Value where
  | string (value : String)
  | integer (value : Int)
  /-- A number with a fraction or an exponent keeps its text. -/
  | float (text : String)
  | boolean (value : Bool)
  /-- A date, a time of day or both keep their text. -/
  | moment (text : String)
  | array (items : List Value)
  | table (origin : Origin) (fields : List (String × Value))
  /-- The tables of repeated headers in double brackets. -/
  | tables (items : List (List (String × Value)))
deriving Repr, Inhabited

/-- The fields of a table, in the order of their first mention. -/
abbrev Fields := List (String × Value)

namespace Fields

/-! ## Access -/

/-- The value of a field. -/
def get? (fields : Fields) (name : String) : Option Value :=
  (fields.find? (·.1 = name)).map (·.2)

/-- The fields with the value of one of them replaced, or with a new field at
the end. -/
def set : Fields → (name : String) → Value → Fields
  | [], name, value => [(name, value)]
  | (other, old) :: fields, name, value =>
    if other = name then (name, value) :: fields else (other, old) :: set fields name value

/-! ## Lines -/

/-- Changes the table that a path of headers leads to.  Missing tables on the
way are made, and repeated tables are entered at the last one. -/
def within : (path : List String) → (Fields → Option Fields) → Fields → Option Fields
  | [], change, fields => change fields
  | name :: path, change, fields =>
    match fields.get? name with
    | none => (within path change []).map fun inner => fields.set name (.table .implied inner)
    | some (.table .inline _) => none
    | some (.table origin inner) =>
      (within path change inner).map fun inner => fields.set name (.table origin inner)
    | some (.tables items) => do
      let inner ← within path change (← items.getLast?)
      return fields.set name (.tables (items.dropLast ++ [inner]))
    | some _ => none

/-- Opens the table with the given name for a header. -/
def openHere? (name : String) (fields : Fields) : Option Fields :=
  match fields.get? name with
  | none => some (fields.set name (.table .header []))
  | some (.table .implied inner) => some (fields.set name (.table .header inner))
  | some _ => none

/-- Adds an empty table to the repeated tables with the given name. -/
def openItemHere? (name : String) (fields : Fields) : Option Fields :=
  match fields.get? name with
  | none => some (fields.set name (.tables [[]]))
  | some (.tables items) => some (fields.set name (.tables (items ++ [[]])))
  | some _ => none

/-- Assigns a value to a field that has none. -/
def assignHere? (name : String) (value : Value) (fields : Fields) : Option Fields :=
  match fields.get? name with
  | none => some (fields ++ [(name, value)])
  | some _ => none

/-- Assigns a value by a dotted key, whose path leads from one table to the
next.  The last table has to be one that dotted keys made. -/
def assign? : (path : List String) → (name : String) → Value → Fields → Option Fields
  | [], name, value, fields => assignHere? name value fields
  | step :: path, name, value, fields =>
    match fields.get? step with
    | none => (assign? path name value []).map fun inner => fields.set step (.table .dotted inner)
    | some (.table .dotted inner) =>
      (assign? path name value inner).map fun inner => fields.set step (.table .dotted inner)
    | some (.table .implied inner) =>
      if path = [] then none
      else (assign? path name value inner).map fun inner => fields.set step (.table .implied inner)
    | some (.tables items) =>
      if path = [] then none
      else do
        let inner ← assign? path name value (← items.getLast?)
        return fields.set step (.tables (items.dropLast ++ [inner]))
    | some _ => none

end Fields

end CommandSchema.Toml
