import CommandSchema.Typing.Model

/-!
# CommandSchema.Typing.MemoryModel

Types built in memory, with no file behind them.

Every type expression carries the type it stands for, so nothing has to be
looked up, and each predicate of the model holds of exactly one type.  This is
the smallest model on which the whole extraction can run: it separates what
the contract of a command demands from how types are found in a file.
-/

namespace CommandSchema

/-! ## Types -/

/-- A type expression together with the type that it stands for. -/
structure TypeExpr (T : Type) where
  text : String
  type : T
  /-- The reference that the expression is, if it is one. -/
  reference? : Option Reference := none
deriving Repr, Inhabited

/-- A type built in memory. -/
inductive MemoryType where
  | void
  | string
  | boolean
  | int32
  | number
  /-- A type of which only a text is known. -/
  | named (text : String)
  /-- A type with members; a name may be declared several times. -/
  | object (members : List (String × Declaration (TypeExpr MemoryType)))
  /-- A type whose values can be called in the given ways. -/
  | function (signatures : List (CallSignature (TypeExpr MemoryType) MemoryType))
deriving Inhabited

/-- An expression for a type built in memory. -/
abbrev MemoryExpr := TypeExpr MemoryType

namespace MemoryType

/-- The text of a type, for messages. -/
def text : MemoryType → String
  | .void => "void"
  | .string => "string"
  | .boolean => "boolean"
  | .int32 => "Int32"
  | .number => "number"
  | .named text => text
  | .object _ => "\x7b ... \x7d"
  | .function _ => "(...) => unknown"

/-- The declarations of the members with a name, in order. -/
def declarations? (t : MemoryType) (name : String) :
    Option (List (Declaration MemoryExpr)) :=
  match t with
  | .object members =>
    match members.filter (·.1 = name) with
    | [] => none
    | sites => some (sites.map (·.2))
  | _ => none

/-- The ways to call a value of the type. -/
def callSignatures : MemoryType → List (CallSignature MemoryExpr MemoryType)
  | .function signatures => signatures
  | _ => []

/-- Whether the type is that of strings. -/
def isString : MemoryType → Bool
  | .string => true
  | _ => false

/-- Whether the type is that of truth values. -/
def isBoolean : MemoryType → Bool
  | .boolean => true
  | _ => false

/-- Whether the type is the 32-bit integer type. -/
def isInt32 : MemoryType → Bool
  | .int32 => true
  | _ => false

/-- Whether the type is void. -/
def isVoid : MemoryType → Bool
  | .void => true
  | _ => false

/-- The type model of types built in memory. -/
def model : TypeModel MemoryExpr MemoryType where
  resolve := TypeExpr.type
  declarations? := declarations?
  callSignatures := callSignatures
  isString := isString
  isBoolean := isBoolean
  isInt32 := isInt32
  isVoid := isVoid
  reference? := TypeExpr.reference?
  exprText := TypeExpr.text
  typeText := text

end MemoryType

/-! ## Expressions -/

namespace TypeArgument

/-- The text of a type argument. -/
def text : TypeArgument → String
  | .stringLiteral value => "'" ++ value ++ "'"
  | .other text => text

end TypeArgument

namespace Reference

/-- The text of a reference. -/
def text (r : Reference) : String :=
  match r.arguments with
  | [] => r.name
  | arguments => s!"{r.name}<" ++ ", ".intercalate (arguments.map TypeArgument.text) ++ ">"

end Reference

namespace TypeExpr

/-- The expression that is the text of its type. -/
def ofType (type : MemoryType) : MemoryExpr := ⟨type.text, type, none⟩

/-- The name of the 32-bit integer type, which is a reference. -/
def int32 : MemoryExpr := ⟨"Int32", .int32, some ⟨"Int32", []⟩⟩

/-- A reference to a type of which only the text is known. -/
def ofReference (r : Reference) : MemoryExpr := ⟨r.text, .named r.text, some r⟩

/-- The ref of a component. -/
def viewRef (view : String) : MemoryExpr := ofReference ⟨"Ref", [.stringLiteral view]⟩

/-- A function type that can be called in the given ways. -/
def ofSignatures (signatures : List (CallSignature MemoryExpr MemoryType)) : MemoryExpr :=
  ⟨"(...) => void", .function signatures, none⟩

/-- The declaration of an interface with the given members. -/
def component (name : String) (members : List (String × Declaration MemoryExpr)) : MemoryExpr :=
  ⟨s!"interface {name} \x7b ... \x7d", .object members, none⟩

end TypeExpr

end CommandSchema
