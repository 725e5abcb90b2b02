import CommandSchema.Command.Rejection
import CommandSchema.Command.Schema
import CommandSchema.Typing.Model

/-!
# CommandSchema.Command.Contract

The contract of a command, and the extraction of all commands that a request
names.

A command is a member with a single declaration, written either as a method
or as a property whose type can be called in exactly one way.  It returns
void, takes the ref of the component first, and every later parameter is of a
primitive category.  The rules are checked in a fixed order, and the first
one that is broken is reported; the first command that is rejected ends the
extraction, since a schema with a gap would yield code with a gap.
-/

namespace CommandSchema

/-! ## The ref policy -/

/-- How strictly the ref parameter is checked. -/
inductive RefCheck where
  /-- Any reference to a named type will do. -/
  | reference
  /-- It must be a wrapper with one string literal as its argument. -/
  | stringLiteral
deriving DecidableEq, Repr, Inhabited

/-- The check of the ref parameter with the names of the wrappers. -/
structure RefPolicy where
  check : RefCheck
  wrappers : List String
deriving DecidableEq, Repr

namespace RefPolicy

/-- Whether a reference is a wrapper around one string literal. -/
def isWrapped (policy : RefPolicy) (r : Reference) : Bool :=
  r.name ∈ policy.wrappers &&
    match r.arguments with
    | [.stringLiteral _] => true
    | _ => false

/-- Whether the type of the first parameter is accepted, given the reference
that it is. -/
def accepts (policy : RefPolicy) : Option Reference → Bool
  | none => false
  | some r =>
    match policy.check with
    | .reference => true
    | .stringLiteral => policy.isWrapped r

end RefPolicy

namespace Contract

variable {N T : Type}

/-- The text for a type that is left out. -/
def implicitAny : String := "any"

/-! ## From a member to a signature -/

/-- How a command is declared. -/
inductive Style where
  | method
  | property
deriving DecidableEq, Repr

/-- The signature of a command, whichever way it is declared. -/
structure Signature (N T : Type) where
  style : Style
  optional : Bool
  /-- The result type, `none` when it is left out. -/
  result? : Option T
  parameters : List (Parameter N)
deriving Repr

/-- The parameter that stands at a site, if it is a plain one. -/
def plainParameter : ParameterSite N → Except Violation (Parameter N)
  | .plain p => .ok p
  | .other text => .error (.malformedParameter text)

/-- The signature of a property type that can be called in exactly one
way. -/
def signatureOfCall (optional : Bool) :
    List (CallSignature N T) → Except Violation (Signature N T)
  | [call] =>
    if call.typeParameters ≠ 0 then .error .generic
    else do
      let parameters ← call.parameters.mapM plainParameter
      return ⟨.property, optional, some call.result, parameters⟩
  | _ => .error .notAFunction

/-- The signature of a member with the given declaration. -/
def signatureOf (model : TypeModel N T) : Declaration N → Except Violation (Signature N T)
  | .method optional typeParameters sites result? =>
    if typeParameters ≠ 0 then .error .generic
    else do
      let parameters ← sites.mapM plainParameter
      return ⟨.method, optional, result?.map model.resolve, parameters⟩
  | .property _ none => .error .notAFunction
  | .property optional (some type) =>
    signatureOfCall optional (model.callSignatures (model.resolve type))
  | .other _ => .error .notAFunction

/-- Finds the command on the type of its owner and reads its signature. -/
def resolve (model : TypeModel N T) (owner : T) (command : String) :
    Except Violation (Signature N T) :=
  match model.declarations? owner command with
  | none => .error .memberNotFound
  | some [declaration] => signatureOf model declaration
  | some declarations => .error (.ambiguous declarations.length)

/-! ## The shape of a command -/

/-- Checks the type of the ref parameter. -/
def checkRef (model : TypeModel N T) (policy : RefPolicy) (ref : Parameter N) :
    Except Violation Unit :=
  match ref.type? with
  | none => .error (.invalidRef implicitAny)
  | some type =>
    if policy.accepts (model.reference? type) then .ok ()
    else .error (.invalidRef (model.exprText type))

/-- Checks result and ref, and returns the parameters after the ref. -/
def validate (model : TypeModel N T) (policy : RefPolicy) (signature : Signature N T) :
    Except Violation (List (Parameter N)) :=
  match signature.result? with
  | none => .error (.nonVoidResult implicitAny)
  | some result =>
    if model.isVoid result then
      match signature.parameters with
      | [] => .error .missingRef
      | ref :: parameters => do
        checkRef model policy ref
        return parameters
    else .error (.nonVoidResult (model.typeText result))

/-! ## The categories of the parameters -/

/-- The category of a type, if it has one. -/
def classify (model : TypeModel N T) (type : T) : Option ParamKind :=
  if model.isString type then some .string
  else if model.isBoolean type then some .boolean
  else if model.isInt32 type then some .int32
  else none

/-- The record of a parameter of a primitive category. -/
def mapParameter (model : TypeModel N T) (p : Parameter N) : Except Violation Param :=
  match p.type? with
  | none => .error (.unsupportedParameter p.name implicitAny)
  | some type =>
    match classify model (model.resolve type) with
    | some kind => .ok ⟨p.name, kind⟩
    | none => .error (.unsupportedParameter p.name (model.exprText type))

/-- The records of the parameters, in order. -/
def mapParameters (model : TypeModel N T) (parameters : List (Parameter N)) :
    Except Violation (List Param) :=
  parameters.mapM (mapParameter model)

/-! ## Extraction -/

/-- The record of one command on the type of its owner. -/
def command (model : TypeModel N T) (policy : RefPolicy) (owner : T) (name : String) :
    Except Violation Command := do
  let signature ← resolve model owner name
  let parameters ← validate model policy signature
  let params ← mapParameters model parameters
  return ⟨name, signature.optional, params⟩

/-- Names command and owner in a violation. -/
def rejecting {α : Type} (owner name : String) : Except Violation α → Except Rejection α :=
  Except.mapError (⟨name, owner, ·⟩)

/-- The records of all the commands that are asked for, in that order, or the
rejection of the first one that cannot be extracted. -/
def extract (model : TypeModel N T) (policy : RefPolicy) (owner : N) (names : List String) :
    Except Rejection (List Command) :=
  let ownerType := model.resolve owner
  let ownerText := model.exprText owner
  names.mapM fun name => rejecting ownerText name (command model policy ownerType name)

end Contract

end CommandSchema
