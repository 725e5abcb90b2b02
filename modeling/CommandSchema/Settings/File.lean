import CommandSchema.Settings
import CommandSchema.Toml.Document

/-!
# CommandSchema.Settings.File

The settings file: its name, its form, and the text of a fresh one.

A section is a table, or a list of the section's values in their order.
Unknown sections and keys are passed over, and a missing key leaves the
default, but a key that is there has to have a value of the right form.
-/

namespace CommandSchema.Settings

open Toml

/-! ## Values -/

/-- A list of strings. -/
def strings? : Value → Option (List String)
  | .array items => items.mapM fun
    | .string s => some s
    | _ => none
  | _ => none

/-- Whether the value is an empty list or table. -/
def isEmptyValue : Value → Bool
  | .array [] => true
  | .table _ [] => true
  | _ => false

/-- A choice by its word; the word may also be the only key of a table, with
an empty value. -/
def choice? {α : Type} (ofWord? : String → Option α) : Value → Option α
  | .string word => ofWord? word
  | .table _ [(word, v)] => if isEmptyValue v then ofWord? word else none
  | _ => none

/-- The value of a key, or the default where there is none. -/
def orDefault {α : Type} (read : Value → Option α) (default : α) : Option Value → Option α
  | none => some default
  | some v => read v

/-! ## Sections -/

/-- The values of a section's keys, in the order of the names. -/
def entries? (names : List String) : Value → Option (List (Option Value))
  | .table _ fields => some (names.map (Fields.get? fields))
  | .array items => some (names.mapIdx fun i _ => items[i]?)
  | .tables items => some (names.mapIdx fun i _ => items[i]?.map (.table .header))
  | _ => none

/-- The section about names of types. -/
def typeNames? (v : Value) : Option TypeNames :=
  match entries? ["int32", "ref_wrappers"] v with
  | some [int32, wrappers] => do
    return ⟨← orDefault strings? Scope.defaultInt32Names int32,
      ← orDefault strings? defaultRefWrappers wrappers⟩
  | _ => none

/-- The section about the ref check. -/
def refCheck? (v : Value) : Option RefCheck :=
  match entries? ["mode"] v with
  | some [mode] => orDefault (choice? RefCheck.ofWord?) .reference mode
  | _ => none

/-- The section about the factories. -/
def factories? (v : Value) : Option (List String) :=
  match entries? ["factories"] v with
  | some [factories] => orDefault strings? Factory.defaultNames factories
  | _ => none

/-- The section about the output.  A table may leave the format open; a list
may not. -/
def output? (v : Value) : Option (Option OutputFormat) :=
  match v, entries? ["format"] v with
  | _, some [some format] => (choice? OutputFormat.ofWord? format).map some
  | .table .., some [none] => some none
  | _, _ => none

/-- The section with a name, if it is there. -/
def section? {α : Type} (read : Value → Option α) (fields : Fields) (name : String) :
    Option (Option α) :=
  match fields.get? name with
  | none => some none
  | some v => (read v).map some

/-- The settings that a table holds. -/
def ofTable? (fields : Fields) : Option Settings := do
  return ⟨← section? typeNames? fields "types", ← section? refCheck? fields "ref_check",
    ← section? factories? fields "discovery", ← section? output? fields "output"⟩

/-! ## Files -/

/-- The name of a settings file. -/
def fileName : String := ".command-shapes.toml"

/-- Why a text gives no settings. -/
inductive Problem where
  /-- The text is no document or not of the right form. -/
  | malformed
  /-- The settings break a rule. -/
  | invalid (fault : Fault)
deriving DecidableEq, Repr

/-- The report of a problem. -/
def Problem.message : Problem → String
  | .malformed => s!"Failed to parse {fileName}"
  | .invalid fault => fault.message

/-- The settings that a text holds, when they meet all rules. -/
def parse (text : String) : Except Problem Settings :=
  match (document? text).bind ofTable? with
  | none => .error .malformed
  | some settings =>
    match settings.fault? with
    | some fault => .error (.invalid fault)
    | none => .ok settings

/-- The text of a fresh settings file, which spells out the defaults. -/
def template : String := "# command-shapes configuration

[types]
# Type names treated as the codegen Int32 type
int32 = [\"Int32\", \"CodegenTypes.Int32\"]
# Ref wrappers accepted when [ref_check] mode is \"string-literal\"
ref_wrappers = [\"Ref\", \"React.Ref\"]

[ref_check]
# \"reference\": the first command parameter must be any type reference
# \"string-literal\": it must be a ref wrapper with one view name literal, e.g. Ref<'MyView'>
mode = \"reference\"

[discovery]
factories = [\"codegenNativeCommands\"]

[output]
format = \"json\"
"

end CommandSchema.Settings
