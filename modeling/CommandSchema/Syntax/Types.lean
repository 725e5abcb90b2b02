import CommandSchema.Syntax.Reader

/-!
# CommandSchema.Syntax.Types

The grammar of types: type expressions, the members of object types and
interfaces, signatures and their parameters.

Every rule takes a reader for the goals it contains.  Unions and
intersections nest to the left, a leading bar makes a union of what follows
it alone, and the operators bind in the order intersection, union, condition;
what follows the arrow of a function type and the word `readonly` extends as
far as it can.
-/

namespace CommandSchema.Syntax.Reader

variable (sub : Goal → Reader Node)

/-! ## Names -/

/-- Words that begin an expression of their own, so that none of them names a
parameter or a variable. -/
def expressionWords : List String :=
  ["class", "delete", "false", "function", "null", "super", "this", "true", "typeof", "void"]

/-- Reads the name of a member: a word, a private name, a string, a number or
an expression in brackets. -/
def propertyName : Reader Node := do
  match ← rest with
  | [] => fail
  | c :: after =>
    if c = '"' ∨ c = '\'' then stringLiteral
    else if c = '[' then
      node .computedName do
        mark "["
        bracketed (child (sub .expression))
        mark "]"
    else if c = '#' then
      guard (Scan.wordLength after ≠ 0)
      leaf .propertyName (1 + Scan.wordLength after)
    else
      match Scan.numberLength (c :: after) with
      | 0 => anyWord .propertyName
      | n => leaf .number n

/-- The characters, letters apart, that the name of a member starts with. -/
def propertyNameStarts : List Char :=
  ['"', '\'', '[', '#', '*', '0', '1', '2', '3', '4', '5', '6', '7', '8', '9']

/-- Reads a modifier of a member: the word has to be followed by the member
it modifies on the same line. -/
def modifier (w : String) : Reader Bool := do
  if ← wordThen w propertyNameStarts then
    optional do
      word w
      guard (!(← brokenOff))
  else pure false

/-- Reads all of the given modifiers that stand here, in any order. -/
def modifiers (words : List String) : Reader Unit :=
  repeatWhile do
    words.anyM modifier

/-! ## Annotations -/

/-- Reads a list of type arguments, which is not empty. -/
def typeArguments : Reader Node :=
  node .typeArguments do
    mark "<"
    bracketed do
      child (sub .type)
      repeatWhile do
        if (← accept ",") && !(← at? ">") then child (sub .type); pure true else pure false
    mark ">"

/-- Reads `: T`. -/
def annotatedType : Reader Node :=
  node .annotatedType do
    mark ":"
    child (sub .type)

/-- Reads `= e` into the open node, if it stands here. -/
def initializer : Reader Unit := do
  if ← optional (markNot "=" ['=', '>']) then childAs .value (sub .assignment)

/-- Whether a type predicate `x is T` stands here. -/
def atPredicate : Reader Bool :=
  succeeds do
    trivia
    let _ ← anyWord .identifier
    guard (!(← brokenOff))
    word "is"

/-- Whether an assertion `asserts x` stands here.  In a result the word never
names a type. -/
def atAssertion : Reader Bool := succeeds (word "asserts")

/-- Reads `x is T` into the open node. -/
def predicate : Reader Unit := do
  child (anyWord .identifier)
  word "is"
  child (sub .type)

/-- Reads `asserts x` or `asserts x is T` into the open node. -/
def assertion : Reader Unit := do
  word "asserts"
  if ← atPredicate then predicate sub else child (anyWord .identifier)

/-- Reads the annotation of a return type, which may also be a predicate or
an assertion. -/
def annotatedResult : Reader Node := do
  if ← succeeds (do mark ":"; guard (← atAssertion)) then
    node .annotatedAssertion do mark ":"; assertion sub
  else if ← succeeds (do mark ":"; guard (← atPredicate)) then
    node .annotatedPredicate do mark ":"; predicate sub
  else annotatedType sub

/-! ## Parameters -/

/-- Reads the optional marker as a child. -/
def questionMark : Reader Bool := optional do
  trivia
  guard ((← rest).head? = some '?')
  collect (← leaf .questionMark 1)

/-- Reads a decorator. -/
def decorator : Reader Node := do
  let start ← cursor
  guard ((start.rest.drop 1).head?.any fun c => Scan.isWordStart c || c = '(')
  node .otherExpression do
    mark "@"
    if ← at? "(" then
      mark "("
      bracketed (child (sub .expression))
      mark ")"
    else
      trivia
      let nameStart ← cursor
      let first ← anyWord .identifier
      let name ← nodeFrom nameStart .otherExpression [first] do
        repeatWhile do
          if (← at? ".") && !(← at? "...") then
            mark "."
            child (anyWord .propertyName)
            pure true
          else pure false
      let callee := if name.children.length = 1 then first else name
      let call := nodeFrom nameStart .callExpression [callee.withRole .function] do
        if ← at? "<" then childAs .typeArguments (typeArguments sub)
        childAs .arguments do
          node .arguments do
            mark "("
            bracketed (listUntil ")" (child (sub .assignment)))
      if (← at? "(") || (← at? "<") then collect (← call) else collect callee
/-- Reads all decorators that stand here. -/
def decorators : Reader Unit :=
  repeatWhile do
    if ← at? "@" then child (decorator sub); pure true else pure false

/-- Reads one parameter. -/
def parameter : Reader Node := do
  let n ← node .requiredParameter do
    decorators sub
    repeatWhile do
      ["public", "private", "protected", "override", "readonly"].anyM fun w => do
        if ← wordThen w ['{', '['] then acceptWord w else pure false
    if (← nextWord) = "this" then childAs .pattern (anyWord .otherExpression)
    else childAs .pattern (sub .pattern)
    let _ ← questionMark
    if ← at? ":" then childAs .type (annotatedType sub)
    initializer sub
  if n.children.any (·.kind = .questionMark) then
    return { n with kind := .optionalParameter }
  else return n

/-- Reads a parameter list. -/
def parameters : Reader Node :=
  node .formalParameters do
    mark "("
    bracketed (listUntil ")" (child (parameter sub)))

/-- Reads one type parameter. -/
def typeParameter : Reader Node :=
  node .typeParameter do
    if ← wordThen "const" [] then word "const"
    childAs .name (anyWord .typeIdentifier)
    if ← acceptWord "extends" then child (sub .type)
    if ← optional (markNot "=" ['>']) then child (sub .type)

/-- Reads a list of type parameters, which is not empty. -/
def typeParameters : Reader Node :=
  node .typeParameters do
    mark "<"
    bracketed do
      child (typeParameter sub)
      repeatWhile do
        if (← accept ",") && !(← at? ">") then child (typeParameter sub); pure true
        else pure false
    mark ">"

/-- Reads type parameters, parameters and return type into the open node. -/
def callSignature : Reader Unit := do
  if ← at? "<" then childAs .typeParameters (typeParameters sub)
  childAs .parameters (parameters sub)
  if ← at? ":" then childAs .returnType (annotatedResult sub)

/-! ## Members -/

/-- Reads the sign and the word `readonly` in front of an index signature. -/
def indexModifiers : Reader Unit := do
  if ← orElse (accept "-") (pure false) then word "readonly"
  else if ← accept "+" then word "readonly"
  else
    let _ ← acceptWord "readonly"

/-- Whether an index signature or a mapped type stands here. -/
def atIndexSignature : Reader Bool :=
  succeeds do
    indexModifiers
    mark "["
    trivia
    let _ ← anyWord .identifier
    guard ((← at? ":") || (← nextWord) = "in")

/-- Reads an index signature or the clause of a mapped type. -/
def indexSignature : Reader Node :=
  node .indexSignature do
    indexModifiers
    mark "["
    bracketed do
      child (anyWord .identifier)
      if ← accept ":" then child (sub .type)
      else
        word "in"
        child (sub .type)
        if ← acceptWord "as" then child (sub .type)
    mark "]"
    for sign in ["-", "+"] do
      if ← at? (sign ++ "?:") then mark sign
    if ← at? "?:" then mark "?"
    child (annotatedType sub)

/-- Reads the modifiers of a member of an object type, which stand in a fixed
order. -/
def memberModifiers : Reader Unit := do
  let _ ← ["public", "private", "protected"].anyM modifier
  let _ ← modifier "static"
  let _ ← modifier "override"
  let _ ← modifier "readonly"

/-- Reads a method or a property: modifiers, a name, the optional marker, and
a signature or an annotation. -/
def namedMember : Reader Node := do
  let start ← cursor
  let method : Reader Node := nodeFrom start .methodSignature [] do
    memberModifiers
    let _ ← modifier "async"
    if !(← accept "*") then
      if !(← modifier "get") then
        let _ ← modifier "set"
    childAs .name (propertyName sub)
    let _ ← questionMark
    guard ((← at? "(") || (← at? "<"))
    guard (!(← brokenOff))
    callSignature sub
  let property : Reader Node := nodeFrom start .propertySignature [] do
    memberModifiers
    childAs .name (propertyName sub)
    let _ ← questionMark
    if ← at? ":" then childAs .type (annotatedType sub)
  orElse method property

/-- Reads one member of an object type. -/
def member : Reader Node := do
  if (← at? "(") || (← at? "<") then node .callSignature (callSignature sub)
  else if ← atIndexSignature then indexSignature sub
  else if ← succeeds (constructStart) then
    node .constructSignature do
      constructStart
      callSignature sub
  else namedMember sub
where
  /-- The words in front of the parameters of a constructor. -/
  constructStart : Reader Unit := do
    let _ ← acceptWord "abstract"
    word "new"
    guard ((← at? "(") || (← at? "<"))

/-- Whether the braces of an object type close here.  An exact object type has
bars inside its braces, and each brace may have one without the other. -/
def atObjectEnd : Reader Bool := do
  return (← at? closeBrace) || (← at? ("|" ++ closeBrace))

/-- Reads the members between the braces of an object type or an
interface. -/
def memberList (kind : Kind) : Reader Node :=
  node kind do
    mark openBrace
    if (← rest).head? = some '|' then advance 1
    within ({ · with breakable := true, operators := false, inOperator := true }) do
      let separated ← orElse (accept ",") (pure false)
      let separated ← if separated then pure true else accept ";"
      if separated || !(← atObjectEnd) then
        child (member sub)
        repeatWhile do
          if ← atObjectEnd then pure false
          else
            if ← at? "," then mark "," else semicolon
            if ← atObjectEnd then pure false
            else child (member sub); pure true
    let _ ← accept "|"
    mark closeBrace

/-! ## Primary types -/

/-- The words that are types of their own. -/
def predefinedTypes : List String :=
  ["any", "number", "boolean", "string", "symbol", "void", "unknown", "never", "object"]

/-- Whether an arrow follows the parenthesis that stands here. -/
def arrowFollows : Reader Bool := do
  trivia
  match ← rest with
  | '(' :: after =>
    match Scan.afterBracket? (← read).size 0 after with
    | some text => return "=>".toList.isPrefixOf (Scan.skipTrivia (← read).size text)
    | none => return false
  | _ => return false

/-- Reads `.` and a word; never the start of an ellipsis. -/
def dotName (kind : Kind) : Reader Unit := do
  mark "."
  guard ((← rest).head? ≠ some '.')
  child (anyWord kind)

/-- Reads the type arguments of a named type, if there are any. -/
def withTypeArguments (start : Cursor) (name : Node) : Reader Node := do
  if ← at? "<" then
    orElse
      (nodeFrom start .genericType [name.withRole .name] do
        childAs .typeArguments (typeArguments sub))
      (pure name)
  else pure name

/-- Reads a reference to a named type, with its type arguments. -/
def typeReference : Reader Node := do
  let start ← cursor
  let first ← anyWord .typeIdentifier
  let dotted ← nodeFrom start .nestedTypeIdentifier [first] do
    repeatWhile (optional (dotName .typeIdentifier))
  withTypeArguments sub start (if dotted.children.length = 1 then first else dotted)

/-- Reads the arguments of a call. -/
def callArguments : Reader Node :=
  node .arguments do
    mark "("
    bracketed (listUntil ")" (child (argument ())))
where
  /-- Reads one argument, which may be spread. -/
  argument (_ : Unit) : Reader Node := do
    if ← at? "..." then
      node .otherExpression do
        mark "..."
        child (sub .assignment)
    else sub .assignment

/-- Reads the type that an imported module exports under some name. -/
def importType : Reader Node := do
  let start ← cursor
  let call ← node .callExpression do
    childAs .function (anyWord .otherExpression)
    childAs .arguments (callArguments sub)
  if ← at? "." then
    nodeFrom start .otherType [call] do
      repeatWhile (optional (dotName .propertyName))
  else pure call

/-- Reads the type of a value, `typeof x`. -/
def typeQuery : Reader Node :=
  node .otherType do
    word "typeof"
    if (← nextWord) = "import" then child (importType sub)
    else
      child (anyWord .otherExpression)
      repeatWhile (optional (dotName .propertyName))
      if ← at? "<" then
        let _ ← optional (child (typeArguments sub))

/-- Reads one entry of a tuple type. -/
def tupleEntry : Reader Node := do
  if ← at? "..." then
    node .otherType do
      mark "..."
      if ← succeeds labelled then labelled; child (annotatedType sub)
      else child (sub .type)
  else if ← succeeds labelled then
    node .otherType do
      labelled
      child (annotatedType sub)
  else
    let start ← cursor
    let t ← sub .type
    if ← at? "?" then nodeFrom start .otherType [t] (mark "?") else pure t
where
  /-- Reads the label of an entry. -/
  labelled : Reader Unit := do
    child (anyWord .identifier)
    let _ ← accept "?"
    guard (← at? ":")

/-- Reads a literal type. -/
def literalType (p : Reader Node) : Reader Node := node .literalType (child p)

/-- Reads a number with an optional sign. -/
def signedNumber : Reader Node :=
  node .number do
    if !(← accept "-") then
      let _ ← accept "+"
    trivia
    let n := Scan.numberLength (← rest)
    guard (n ≠ 0)
    advance n

/-- Reads a type that starts with a word. -/
def wordType : Reader Node := do
  let w ← nextWord
  if w ∈ predefinedTypes then leaf .predefinedType w.length
  else if w = "true" then literalType (anyWord .trueLiteral)
  else if w = "false" then literalType (anyWord .falseLiteral)
  else if w = "null" ∨ w = "undefined" then literalType (anyWord .otherExpression)
  else if w = "this" ∨ w = "const" then anyWord .otherType
  else if w = "typeof" then typeQuery sub
  else if w = "import" then withTypeArguments sub (← cursor) (← importType sub)
  else if w = "unique" then
    node .predefinedType do word "unique"; word "symbol"
  else if w = "keyof" then
    node .otherType do
      word "keyof"
      child (sub .primaryType)
  else typeReference sub

/-- Reads a type that no operator or suffix is applied to. -/
def atomicType : Reader Node := do
  match ← rest with
  | [] => fail
  | c :: _ =>
    if c = '(' then
      node .parenthesizedType do
        mark "("
        bracketed (child (sub .type))
        mark ")"
    else if c = '{' then memberList sub .objectType
    else if c = '[' then
      node .otherType do
        mark "["
        bracketed (listUntil "]" (child (tupleEntry sub)))
    else if c = '"' ∨ c = '\'' then literalType stringLiteral
    else if c = '\x60' then template .otherType (sub .type)
    else if c = '*' then leaf .otherType 1
    else if c = '?' then
      node .otherType do
        mark "?"
        child (sub .primaryType)
    else if c = '-' ∨ c = '+' ∨ Scan.isDigit c ∨ c = '.' then literalType signedNumber
    else wordType sub

/-- Reads the suffixes `[]` and `[T]` of a type. -/
def suffixes (start : Cursor) (t : Node) : Reader Node :=
  loop (fun t => do
    if (← at? "[") && !(← brokenOff) then
      let u ← nodeFrom start .otherType [t] do
        mark "["
        if ← at? "]" then pure () else bracketed (child (sub .type))
        mark "]"
      return some u
    else return none) t

/-! ## Operators on types -/

/-- Reads what follows the arrow of a function type. -/
def functionResult : Reader Node := do
  if ← atAssertion then node .otherType (assertion sub)
  else if ← atPredicate then node .otherType (predicate sub)
  else sub .type

/-- Reads an operand of the operators on types.  The words `abstract`, `new`,
`readonly` and `infer` always belong to the operand that they begin; none of
them is the name of a type here. -/
def typeOperand : Reader Node := do
  let start ← cursor
  let w ← nextWord
  if (← at? "<") || (← peek arrowFollows) then
    node .functionType do
      if ← at? "<" then childAs .typeParameters (typeParameters sub)
      childAs .parameters (parameters sub)
      mark "=>"
      childAs .returnType (functionResult sub)
  else if w = "abstract" ∨ w = "new" then
    node .otherType do
      let _ ← acceptWord "abstract"
      word "new"
      if ← at? "<" then child (typeParameters sub)
      child (parameters sub)
      mark "=>"
      child (sub .primaryType)
  else if w = "readonly" then
    node .readonlyType do
      word "readonly"
      child (sub .type)
  else if w = "infer" then
    node .otherType do
      word "infer"
      child (anyWord .typeIdentifier)
      let _ ← optional do
        word "extends"
        child (sub .type)
  else suffixes sub start (← atomicType sub)

/-- Reads an operand behind signs, each of which makes a node of its own.  The
number bounds the signs. -/
def signedOperand (sign : String) (kind : Kind) (operand : Reader Node) : Nat → Reader Node
  | 0 => operand
  | n + 1 => do
    if ← at? sign then
      node kind do
        mark sign
        child (signedOperand sign kind operand n)
    else operand

/-- Reads operands joined by an infix sign, nested to the left. -/
def joined (sign : String) (kind : Kind) (operand : Reader Node) : Reader Node := do
  let start ← cursor
  let operand := signedOperand sign kind operand (← read).size
  loop (fun left => do
    if (← at? sign) && !(← at? (sign ++ closeBrace)) then
      let u ← nodeFrom start kind [left] do
        mark sign
        child operand
      return some u
    else return none) (← operand)

/-- Reads a union of intersections. -/
def unionType : Reader Node :=
  joined "|" .unionType (joined "&" .otherType (typeOperand sub))

/-- Reads a type. -/
def typeExpression : Reader Node := do
  let start ← cursor
  let t ← unionType sub
  if (← nextWord) = "extends" && !(← brokenOff) then
    nodeFrom start .otherType [t] do
      word "extends"
      child (sub .type)
      mark "?"
      child (sub .type)
      mark ":"
      child (sub .type)
  else pure t

end CommandSchema.Syntax.Reader
