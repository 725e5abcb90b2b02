import CommandSchema.Command.Contract
import CommandSchema.Factory
import CommandSchema.Typing.Scope

/-!
# CommandSchema.Settings

The settings of an extraction.

A settings file has four sections, each of which may be missing.  What a
missing section or key stands for is said once, in the effective values.
`fault?` holds the rules that the values have to meet beyond their form.
-/

namespace CommandSchema

/-- The forms in which schemas are written. -/
inductive OutputFormat where
  | json
  | yaml
  | terminal
deriving DecidableEq, Repr, Inhabited

/-- The word for a format. -/
def OutputFormat.word : OutputFormat → String
  | .json => "json"
  | .yaml => "yaml"
  | .terminal => "terminal"

/-- The format that a word names. -/
def OutputFormat.ofWord? : String → Option OutputFormat
  | "json" => some .json
  | "yaml" => some .yaml
  | "terminal" => some .terminal
  | _ => none

/-- The word for a ref check. -/
def RefCheck.word : RefCheck → String
  | .reference => "reference"
  | .stringLiteral => "string-literal"

/-- The ref check that a word names. -/
def RefCheck.ofWord? : String → Option RefCheck
  | "reference" => some .reference
  | "string-literal" => some .stringLiteral
  | _ => none

namespace Settings

/-- The names of the wrappers where no settings say otherwise. -/
def defaultRefWrappers : List String := ["Ref", "React.Ref"]

/-- The section about names of types. -/
structure TypeNames where
  /-- The names that stand for the 32-bit integer type. -/
  int32 : List String := Scope.defaultInt32Names
  /-- The names of wrappers that the strict ref check accepts. -/
  refWrappers : List String := defaultRefWrappers
deriving DecidableEq, Repr

end Settings

/-- The contents of a settings file. -/
structure Settings where
  types : Option Settings.TypeNames := none
  refCheck : Option RefCheck := none
  factories : Option (List String) := none
  /-- The section about the output, which may leave the format open. -/
  output : Option (Option OutputFormat) := none
deriving DecidableEq, Repr

namespace Settings

/-- The settings where there is no file. -/
def default : Settings := {}

/-! ## Effective values -/

/-- The names that stand for the 32-bit integer type. -/
def int32Names (s : Settings) : List String := (s.types.getD {}).int32

/-- The check of the ref parameter. -/
def refPolicy (s : Settings) : RefPolicy :=
  ⟨s.refCheck.getD .reference, (s.types.getD {}).refWrappers⟩

/-- The names of the factories. -/
def factoryNames (s : Settings) : List String := s.factories.getD Factory.defaultNames

/-- The format of the output, if the settings choose one. -/
def outputFormat? (s : Settings) : Option OutputFormat := s.output.join

/-- The same settings under the strict ref check. -/
def strict (s : Settings) : Settings := { s with refCheck := some .stringLiteral }

/-! ## Rules beyond the form -/

/-- A rule that settings break. -/
inductive Fault where
  | noInt32Names
  | noRefWrappers
  | noFactories
deriving DecidableEq, Repr

/-- The first rule that the settings break. -/
def fault? (s : Settings) : Option Fault :=
  if s.int32Names = [] then some .noInt32Names
  else if s.refPolicy.check = .stringLiteral ∧ s.refPolicy.wrappers = [] then some .noRefWrappers
  else if s.factoryNames = [] then some .noFactories
  else none

/-- The report of a broken rule. -/
def Fault.message : Fault → String
  | .noInt32Names => "[types] int32 must name at least one type"
  | .noRefWrappers =>
    "[types] ref_wrappers must not be empty when [ref_check] mode is \"string-literal\""
  | .noFactories => "[discovery] factories must name at least one function"

end Settings

end CommandSchema
