import CommandSchema.Syntax.StringLiteral

/-!
# CommandSchema.Typing.Scope

The names that a file declares as types.

Only interfaces and type aliases at the top level count, also behind `export`
and `declare`; what stands in a module, a block or a function does not.  One
name may be declared several times: the first declaration says what the name
means, and all interfaces of that name are merged into one.
-/

namespace CommandSchema

open Syntax

/-- What the names in a file mean: the declarations at its top level, in
source order, and the names that stand for the 32-bit integer type. -/
structure Scope where
  declarations : List Node
  int32Names : List String
deriving Repr

namespace Scope

/-- The names of the integer type where no settings say otherwise. -/
def defaultInt32Names : List String := ["Int32", "CodegenTypes.Int32"]

/-! ## Collecting declarations -/

/-- Whether a node declares a type, under a name. -/
def isTypeDeclaration (n : Node) : Bool :=
  (n.kind = .interfaceDeclaration || n.kind = .typeAliasDeclaration) && (n.child? .name).isSome

/-- Whether the declarations inside a statement count as its own. -/
def isTransparent (n : Node) : Bool :=
  n.kind = .exportStatement || n.kind = .ambientDeclaration

mutual

/-- The type declarations that a statement brings to the top level. -/
def declarationsOf : Node → List Node
  | ⟨kind, role, text, start, children⟩ =>
    let n : Node := ⟨kind, role, text, start, children⟩
    if n.kind = .interfaceDeclaration ∨ n.kind = .typeAliasDeclaration then
      if isTypeDeclaration n then [n] else []
    else if isTransparent n then declarationsOfAll children
    else []

/-- The type declarations of several statements. -/
def declarationsOfAll : List Node → List Node
  | [] => []
  | n :: ns => declarationsOf n ++ declarationsOfAll ns

end

/-- The scope of a tree. -/
def ofTree (root : Node) (int32Names : List String) : Scope :=
  ⟨declarationsOfAll root.children, int32Names⟩

/-! ## Looking names up -/

/-- The name that a declaration declares. -/
def declaredName (n : Node) : String := ((n.child? .name).map Node.text).getD ""

/-- All declarations of a name, in source order. -/
def declarationsNamed (scope : Scope) (name : String) : List Node :=
  scope.declarations.filter (declaredName · = name)

/-- The first declaration of a name. -/
def declaration? (scope : Scope) (name : String) : Option Node :=
  scope.declarations.find? (declaredName · = name)

/-- The interfaces that are merged under a name, in source order. -/
def interfaces (scope : Scope) (name : String) : List Node :=
  (scope.declarationsNamed name).filter (·.kind = .interfaceDeclaration)

/-- The declared names, each once, in the order of their code points. -/
def declaredNames (scope : Scope) : List String :=
  ((scope.declarations.map declaredName).mergeSort (fun a b => decide (a ≤ b))).eraseReps

end Scope

end CommandSchema
