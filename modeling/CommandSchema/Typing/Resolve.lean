import CommandSchema.Typing.Scope

/-!
# CommandSchema.Typing.Resolve

What the type expressions of a file stand for.

A type is resolved within its file: names lead to their first declaration,
aliases to their value, and interfaces to their members together with those
of the interfaces they extend.  Type arguments are not substituted.  Two
guards keep cyclic declarations finite: an alias is not entered again while
it is being resolved, and an interface contributes its members once in a
resolution.  Beyond a fixed number of steps an expression stands for nothing
but its text.
-/

namespace CommandSchema

open Syntax

/-! ## Types -/

/-- A resolved type. -/
inductive ResolvedType where
  | void
  | string
  | stringLiteral (value : String)
  | boolean
  | booleanLiteral (value : Bool)
  | number
  | int32
  | any
  /-- A type with members.  Each level holds the member lists of one interface,
  with all its declarations, or of one object type; the type's own come
  first. -/
  | object (text : String) (levels : List (List Node))
  /-- A function type, with the node that holds its signature. -/
  | function (signature : Node)
  | union (variants : List ResolvedType)
  /-- A reference to a name that the file does not declare. -/
  | unresolved (text : String)
  /-- Anything else: arrays, tuples, intersections and so on. -/
  | other (text : String)
deriving Repr, Inhabited

namespace ResolvedType

mutual

/-- Whether every value of the type is a string. -/
def isString : ResolvedType → Bool
  | .string => true
  | .stringLiteral _ => true
  | .union variants => !variants.isEmpty && areStrings variants
  | _ => false

/-- Whether all of the types are of strings. -/
def areStrings : List ResolvedType → Bool
  | [] => true
  | t :: ts => t.isString && areStrings ts

end

mutual

/-- Whether every value of the type is a truth value. -/
def isBoolean : ResolvedType → Bool
  | .boolean => true
  | .booleanLiteral _ => true
  | .union variants => !variants.isEmpty && areBooleans variants
  | _ => false

/-- Whether all of the types are of truth values. -/
def areBooleans : List ResolvedType → Bool
  | [] => true
  | t :: ts => t.isBoolean && areBooleans ts

end

/-- Whether the type is the 32-bit integer type. -/
def isInt32 : ResolvedType → Bool
  | .int32 => true
  | _ => false

/-- Whether the type is void. -/
def isVoid : ResolvedType → Bool
  | .void => true
  | _ => false

mutual

/-- The text of a type, for messages. -/
def text : ResolvedType → String
  | .void => "void"
  | .string => "string"
  | .stringLiteral value => "'" ++ value ++ "'"
  | .boolean => "boolean"
  | .booleanLiteral value => if value then "true" else "false"
  | .number => "number"
  | .int32 => "Int32"
  | .any => "any"
  | .object text _ => text
  | .function signature => signature.text
  | .union variants => " | ".intercalate (texts variants)
  | .unresolved text => text
  | .other text => text

/-- The texts of several types. -/
def texts : List ResolvedType → List String
  | [] => []
  | t :: ts => t.text :: texts ts

end

/-- The variants of a union; any other type is its own only variant. -/
def variants : ResolvedType → List ResolvedType
  | .union ts => ts
  | t => [t]

/-- The type that a word of the language names. -/
def ofWord : String → ResolvedType
  | "void" => .void
  | "string" => .string
  | "boolean" => .boolean
  | "number" => .number
  | "any" => .any
  | word => .other word

end ResolvedType

/-! ## Resolution -/

namespace Scope

/-- The number of steps beyond which nothing is resolved. -/
def maxDepth : Nat := 32

/-- The type of a literal. -/
def literalType (n : Node) : ResolvedType :=
  match n.firstNamed? with
  | some literal =>
    if literal.kind = .stringLiteral then .stringLiteral literal.stringValue
    else if literal.kind = .trueLiteral then .booleanLiteral true
    else if literal.kind = .falseLiteral then .booleanLiteral false
    else .other n.text
  | none => .other n.text

/-- The types that an interface extends, comments between them included. -/
def bases (n : Node) : List Node :=
  match n.namedChildren.find? (·.kind = .extendsTypeClause) with
  | some clause => clause.namedChildren
  | none => []

/-- The name by which a type is extended. -/
def baseName (base : Node) : String :=
  if base.kind = .genericType then ((base.child? .name).getD base).text else base.text

/-- Whether a name means an interface. -/
def namesInterface (scope : Scope) (name : String) : Bool :=
  (scope.declaration? name).any (·.kind = .interfaceDeclaration)

mutual

/-- The type that a node stands for, when at most the given number of steps
are left.  `path` holds the aliases being resolved, and the state the names
of the interfaces that have contributed their members. -/
def resolveWithin (scope : Scope) :
    Nat → (path : List Node) → Node → StateM (List String) ResolvedType
  | 0, _, n => pure (.other n.text)
  | steps + 1, path, n =>
    match n.kind with
    | .interfaceDeclaration => do
      let name := declaredName n
      let levels ← interfaceLevels scope steps path name
      return .object name levels
    | .typeAliasDeclaration =>
      if n ∈ path then pure (.other n.text)
      else
        match n.child? .value with
        | some value => resolveWithin scope steps (n :: path) value
        | none => pure .any
    | .annotatedType | .parenthesizedType | .readonlyType =>
      match n.firstNamed? with
      | some inner => resolveWithin scope steps path inner
      | none => pure .any
    | .predefinedType => pure (.ofWord n.text)
    | .literalType => pure (literalType n)
    | .typeIdentifier | .nestedTypeIdentifier =>
      if n.text ∈ scope.int32Names then pure .int32
      else
        match scope.declaration? n.text with
        | some declaration => resolveWithin scope steps path declaration
        | none => pure (.unresolved n.text)
    | .genericType =>
      match (n.child? .name).bind fun name => scope.declaration? name.text with
      | some declaration => resolveWithin scope steps path declaration
      | none => pure (.unresolved n.text)
    | .objectType => pure (.object n.text [[n]])
    | .functionType => pure (.function n)
    | .unionType => do
      let types ← n.namedChildren.mapM (resolveWithin scope steps path)
      return .union (types.flatMap ResolvedType.variants)
    | _ => pure (.other n.text)

/-- The levels of the interfaces with a name: their own member lists first,
then those of the types they extend, in source order.  An interface that has
contributed before contributes nothing. -/
def interfaceLevels (scope : Scope) :
    Nat → (path : List Node) → (name : String) → StateM (List String) (List (List Node))
  | 0, _, _ => pure []
  | steps + 1, path, name => do
    if name ∈ (← get) then return []
    modify (name :: ·)
    let merged := scope.interfaces name
    let inherited ← (merged.flatMap bases).mapM fun base =>
      if scope.namesInterface (baseName base) then
        interfaceLevels scope steps path (baseName base)
      else do
        match ← resolveWithin scope steps path base with
        | .object _ levels => return levels
        | _ => return []
    return merged.filterMap (·.child? .body) :: inherited.flatten

end

/-- The type that a node stands for. -/
def resolve (scope : Scope) (n : Node) : ResolvedType :=
  ((scope.resolveWithin (maxDepth + 1) [] n).run []).1

end Scope

end CommandSchema
