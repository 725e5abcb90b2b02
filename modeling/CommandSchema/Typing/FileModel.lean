import CommandSchema.Typing.Model
import CommandSchema.Typing.Resolve

/-!
# CommandSchema.Typing.FileModel

The type model of a file: members, declarations and call signatures, read off
the nodes that resolution leads to.

A member is looked up level by level, and the first level that declares it
hides all later ones, so a declaration in an interface hides those it
inherits.
-/

namespace CommandSchema

open Syntax

namespace Syntax.Node

/-! ## Members and signatures as nodes -/

/-- The name that a member declares: a quoted name decoded, any other one as
it is written. -/
def memberName? (n : Node) : Option String :=
  (n.child? .name).map fun name =>
    if name.kind = .stringLiteral then name.stringValue else name.text

/-- The methods and properties with a name in one member list. -/
def membersNamed (body : Node) (name : String) : List Node :=
  body.namedChildren.filter fun n =>
    (n.kind = .methodSignature || n.kind = .propertySignature) && n.memberName? = some name

/-- The type that an annotation carries; any other node is its own type. -/
def unannotated (n : Node) : Node :=
  if n.kind = .annotatedType then n.firstNamed?.getD n else n

/-- Whether a member carries the optional marker. -/
def isOptional (n : Node) : Bool := n.children.any (·.kind = .questionMark)

/-- The number of type parameters of a signature. -/
def typeParameterCount (n : Node) : Nat :=
  match n.child? .typeParameters with
  | some list => list.namedChildren.countP (·.kind = .typeParameter)
  | none => 0

/-- The result type of a signature, if it is written. -/
def result? (n : Node) : Option Node := (n.child? .returnType).map unannotated

/-- What stands at one place of a parameter list. -/
def parameterSite (n : Node) : ParameterSite Node :=
  let isParameter := n.kind = .requiredParameter ∨ n.kind = .optionalParameter
  match n.child? .pattern with
  | some pattern =>
    if isParameter ∧ pattern.kind = .identifier then
      .plain ⟨pattern.text, (n.child? .type).map unannotated⟩
    else .other n.text
  | none => .other n.text

/-- The places of a signature's parameter list, comments left out. -/
def parameterSites (n : Node) : List (ParameterSite Node) :=
  match n.child? .parameters with
  | some list => (list.namedChildren.filter (!·.isComment)).map parameterSite
  | none => []

/-- The name of a kind of node that declares no command. -/
def otherKind (n : Node) : String :=
  match n.kind with
  | .callSignature => "call_signature"
  | .constructSignature => "construct_signature"
  | .indexSignature => "index_signature"
  | _ => "other"

/-- The declaration that a member is. -/
def declaration (n : Node) : Declaration Node :=
  match n.kind with
  | .methodSignature => .method n.isOptional n.typeParameterCount n.parameterSites n.result?
  | .propertySignature => .property n.isOptional ((n.child? .type).map unannotated)
  | _ => .other n.otherKind

/-! ## References -/

/-- A type argument as the ref check sees it. -/
def typeArgument (n : Node) : TypeArgument :=
  match n.firstNamed? with
  | some literal =>
    if n.kind = .literalType ∧ literal.kind = .stringLiteral then
      .stringLiteral literal.stringValue
    else .other n.text
  | none => .other n.text

/-- The reference that a type expression is, if it is one. -/
def reference? (n : Node) : Option Reference :=
  match n.kind with
  | .typeIdentifier | .nestedTypeIdentifier => some ⟨n.text, []⟩
  | .genericType =>
    some ⟨((n.child? .name).map Node.text).getD "",
      ((n.child? .typeArguments).map fun list => list.namedChildren.map typeArgument).getD []⟩
  | _ => none

end Syntax.Node

namespace ResolvedType

/-- The nodes that declare a member: those of the first level that has
any. -/
def memberSites? (t : ResolvedType) (name : String) : Option (List Node) :=
  match t with
  | .object _ levels =>
    levels.findSome? fun level =>
      match level.flatMap (·.membersNamed name) with
      | [] => none
      | sites => some sites
  | _ => none

/-- The nodes that say how a value of the type can be called. -/
def signatureNodes : ResolvedType → List Node
  | .function signature => [signature]
  | .object _ levels =>
    levels.flatten.flatMap fun body => body.namedChildren.filter (·.kind = .callSignature)
  | _ => []

end ResolvedType

namespace Scope

/-- The call signature that a node is. -/
def callSignature (scope : Scope) (n : Node) : CallSignature Node ResolvedType where
  typeParameters := n.typeParameterCount
  parameters := n.parameterSites
  result := (n.result?.map scope.resolve).getD .any

/-- The type model of the file with this scope. -/
def model (scope : Scope) : TypeModel Node ResolvedType where
  resolve := scope.resolve
  declarations? t name := (t.memberSites? name).map (·.map Node.declaration)
  callSignatures t := t.signatureNodes.map scope.callSignature
  isString := ResolvedType.isString
  isBoolean := ResolvedType.isBoolean
  isInt32 := ResolvedType.isInt32
  isVoid := ResolvedType.isVoid
  reference? := Node.reference?
  exprText := Node.text
  typeText := ResolvedType.text

end Scope

end CommandSchema
