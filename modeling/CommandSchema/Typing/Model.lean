/-!
# CommandSchema.Typing.Model

What the extraction of commands has to know about types.

`TypeModel N T` answers questions about type expressions of type `N` and the
types of type `T` that they stand for.  The extraction asks nothing else, so
it works alike over a parsed file and over types built in memory, and what is
proved of it for every model holds for both.
-/

namespace CommandSchema

/-! ## Declarations as a model reports them -/

/-- A plain parameter: a name with an optional type. -/
structure Parameter (N : Type) where
  name : String
  type? : Option N
deriving DecidableEq, Repr, Inhabited

/-- What stands in a parameter list. -/
inductive ParameterSite (N : Type) where
  /-- A plain parameter. -/
  | plain (parameter : Parameter N)
  /-- Anything else, with its text. -/
  | other (text : String)
deriving DecidableEq, Repr, Inhabited

/-- One declaration of a member. -/
inductive Declaration (N : Type) where
  /-- `name(…): R`; the result type is `none` when it is left out. -/
  | method (optional : Bool) (typeParameters : Nat) (parameters : List (ParameterSite N))
      (result? : Option N)
  /-- `name: T`; the type is `none` when it is left out. -/
  | property (optional : Bool) (type? : Option N)
  /-- Neither of these. -/
  | other (kind : String)
deriving DecidableEq, Repr, Inhabited

/-- A way to call a value of some type. -/
structure CallSignature (N T : Type) where
  typeParameters : Nat
  parameters : List (ParameterSite N)
  result : T
deriving DecidableEq, Repr, Inhabited

/-- A type argument of a reference, as far as the ref check looks at it. -/
inductive TypeArgument where
  | stringLiteral (value : String)
  | other (text : String)
deriving DecidableEq, Repr

/-- A type expression that refers to a name. -/
structure Reference where
  name : String
  arguments : List TypeArgument
deriving DecidableEq, Repr

/-! ## The model -/

/-- Answers about type expressions and types. -/
structure TypeModel (N T : Type) where
  /-- The type that an expression or a declaration stands for. -/
  resolve : N → T
  /-- The declarations of the member with the given name, in source order;
  `none` when the type has no such member. -/
  declarations? : T → String → Option (List (Declaration N))
  /-- The ways to call a value of the type. -/
  callSignatures : T → List (CallSignature N T)
  isString : T → Bool
  isBoolean : T → Bool
  isInt32 : T → Bool
  isVoid : T → Bool
  /-- The reference that an expression is, if it is one. -/
  reference? : N → Option Reference
  /-- The text of an expression, for messages. -/
  exprText : N → String
  /-- The text of a type, for messages. -/
  typeText : T → String

end CommandSchema
