/-!
# CommandSchema.Syntax.Node

The concrete syntax tree of a TypeScript file.

A `Node` keeps what the analyses of this library look at: its kind, the part
it plays in its parent, its verbatim source text, where it starts, and its
children in source order.  Comments are nodes like any other and stand
wherever the grammar lets white space stand.  Of the punctuation only the
optional marker `?` has a node, since it alone changes what a member means.

Nothing here depends on how a tree was made: every definition over `Node` is
a function on arbitrary trees.
-/

namespace CommandSchema.Syntax

/-- A place in a source text: the line, and the column counted in bytes of
UTF-8, both from one. -/
structure Position where
  line : Nat
  column : Nat
deriving DecidableEq, Repr, Inhabited

/-- What a node is.  The kinds that no analysis tells apart share the
`other…` constructors. -/
inductive Kind where
  | program
  | comment
  | questionMark
  -- declarations
  | exportStatement
  | ambientDeclaration
  | interfaceDeclaration
  | typeAliasDeclaration
  | extendsTypeClause
  | interfaceBody
  | otherStatement
  -- members
  | methodSignature
  | propertySignature
  | callSignature
  | constructSignature
  | indexSignature
  | typeParameters
  | typeParameter
  | formalParameters
  | requiredParameter
  | optionalParameter
  | annotatedType
  | annotatedPredicate
  | annotatedAssertion
  -- types
  | parenthesizedType
  | readonlyType
  | predefinedType
  | literalType
  | typeIdentifier
  | nestedTypeIdentifier
  | genericType
  | typeArguments
  | objectType
  | functionType
  | unionType
  | otherType
  -- expressions
  | callExpression
  | arguments
  | object
  | pair
  | array
  | identifier
  | stringLiteral
  | stringFragment
  | escapeSequence
  | trueLiteral
  | falseLiteral
  | number
  | propertyName
  | computedName
  | otherExpression
deriving DecidableEq, Repr, Inhabited

/-- The part a child plays in its parent. -/
inductive Role where
  | name
  | typeParameters
  | parameters
  | returnType
  | type
  | value
  | body
  | pattern
  | function
  | typeArguments
  | arguments
  | key
deriving DecidableEq, Repr, Inhabited

/-- A node of the tree. -/
structure Node where
  kind : Kind
  role : Option Role
  /-- The source text from the first to the last token of the node. -/
  text : String
  start : Position
  children : List Node
deriving Repr, Inhabited

namespace Node

/-! ## Equality

Two nodes are equal when they agree in everything, the position included, so
within one parsed file equality tells the declarations apart. -/

mutual

private def decideEq : (m n : Node) → Decidable (m = n)
  | ⟨k, r, t, s, cs⟩, ⟨k', r', t', s', cs'⟩ =>
    if hs : s = s' then
      if hk : k = k' then
        if hr : r = r' then
          if ht : t = t' then
            match decideEqs cs cs' with
            | isTrue hc => isTrue (by subst hs hk hr ht hc; rfl)
            | isFalse hc => isFalse (by intro h; injection h; contradiction)
          else isFalse (by intro h; injection h; contradiction)
        else isFalse (by intro h; injection h; contradiction)
      else isFalse (by intro h; injection h; contradiction)
    else isFalse (by intro h; injection h; contradiction)

private def decideEqs : (ms ns : List Node) → Decidable (ms = ns)
  | [], [] => isTrue rfl
  | [], _ :: _ => isFalse (by intro h; cases h)
  | _ :: _, [] => isFalse (by intro h; cases h)
  | m :: ms, n :: ns =>
    match decideEq m n with
    | isTrue hm =>
      match decideEqs ms ns with
      | isTrue hms => isTrue (by subst hm hms; rfl)
      | isFalse hms => isFalse (by intro h; injection h; contradiction)
    | isFalse hm => isFalse (by intro h; injection h; contradiction)

end

instance : DecidableEq Node := decideEq

/-! ## Children -/

/-- Whether the node stands for more than punctuation. -/
def isNamed (n : Node) : Bool := n.kind != .questionMark

/-- The children that stand for more than punctuation, comments included. -/
def namedChildren (n : Node) : List Node := n.children.filter isNamed

/-- The first of the named children. -/
def firstNamed? (n : Node) : Option Node := n.namedChildren.head?

/-- The first child that plays the given part. -/
def child? (n : Node) (role : Role) : Option Node :=
  n.children.find? (·.role = some role)

/-- The same node in another part. -/
def withRole (n : Node) (role : Role) : Node := { n with role := some role }

/-- Whether the node is a comment. -/
def isComment (n : Node) : Bool := n.kind = .comment

/-! ## Preorder -/

mutual

/-- The node and all nodes below it, each before its children and siblings in
source order. -/
def preorder : Node → List Node
  | ⟨k, r, t, s, cs⟩ => ⟨k, r, t, s, cs⟩ :: preorderAll cs

/-- The preorders of a list of nodes, one after the other. -/
def preorderAll : List Node → List Node
  | [] => []
  | n :: ns => n.preorder ++ preorderAll ns

end

theorem preorderAll_eq_flatMap (ns : List Node) :
    preorderAll ns = ns.flatMap preorder := by
  induction ns with
  | nil => rfl
  | cons n ns ih => simp [preorderAll, ih]

end Node

end CommandSchema.Syntax
