import CommandSchema.Syntax.Types

/-!
# CommandSchema.Syntax.Expressions

The grammar of expressions: literals, calls, operators, functions, classes and
patterns.

What the library looks for in an expression are calls, object and array
literals and strings; these have kinds of their own, and the callee of a call
keeps its verbatim text.  Infix operators are read without regard to their
precedence, since no analysis asks for it.
-/

namespace CommandSchema.Syntax.Reader

variable (sub : Goal → Reader Node)

/-! ## Patterns -/

/-- Reads a pattern that binds names: a word, or names taken out of an object
or an array. -/
def bindingPattern : Reader Node := do
  match ← rest with
  | '{' :: _ =>
    node .otherExpression do
      mark openBrace
      bracketed (listUntil closeBrace (child (property ())))
  | '[' :: _ =>
    node .otherExpression do
      mark "["
      bracketed do
        repeatWhile do
          if ← at? "]" then pure false
          else if ← accept "," then pure true
          else
            child (element ())
            if ← at? "]" then pure false else accept ","
      mark "]"
  | '.' :: _ =>
    node .otherExpression do
      mark "..."
      child (sub .pattern)
  | _ =>
    if (← nextWord) = "undefined" then anyWord .otherExpression
    else wordExcept expressionWords .identifier
where
  /-- Reads a nested pattern with an optional default. -/
  element (_ : Unit) : Reader Node := do
    let start ← cursor
    let p ← sub .pattern
    if ← succeeds (markNot "=" ['=', '>']) then
      nodeFrom start .otherExpression [p] (initializer sub)
    else pure p
  /-- Reads one property of an object pattern. -/
  property (_ : Unit) : Reader Node := do
    let start ← cursor
    if ← at? "..." then sub .pattern
    else
      let key ← propertyName sub
      nodeFrom start .otherExpression [key] do
        if ← accept ":" then child (element ())
        else
          guard (key.kind = .propertyName)
          initializer sub

/-! ## Functions and classes -/

/-- Reads the parts of a function that follow its name. -/
def functionTail : Reader Unit := do
  callSignature sub
  child (sub .block)

/-- Reads a function that is an expression. -/
def functionExpression : Reader Node :=
  node .otherExpression do
    let _ ← acceptWord "async"
    word "function"
    let _ ← accept "*"
    if !((← at? "(") || (← at? "<")) then child (anyWord .identifier)
    functionTail sub

/-- Reads one member of a class. -/
def classMember : Reader Node := do
  if ← at? "@" then decorator sub
  else if ← succeeds (do word "static"; mark openBrace) then
    node .otherStatement do
      word "static"
      child (sub .block)
  else if ← atIndexSignature then
    node .otherStatement do
      child (indexSignature sub)
      memberEnd
  else
    node .otherStatement do
      modifiers ["declare", "public", "private", "protected", "static", "override", "readonly",
        "abstract", "accessor", "async", "get", "set"]
      let _ ← accept "*"
      child (propertyName sub)
      if !(← accept "?") then
        if ← succeeds (do mark "!"; mark ":") then mark "!"
      if (← at? "(") || (← at? "<") then
        callSignature sub
        if ← at? openBrace then child (sub .block)
        else memberEnd
      else
        if ← at? ":" then child (annotatedType sub)
        within ({ · with operators := true }) (initializer sub)
        memberEnd
where
  /-- Reads the end of a member without a body. -/
  memberEnd : Reader Unit := do
    if ← at? "," then mark "," else semicolon

/-- Reads the parts of a class that follow its name. -/
def classTail : Reader Unit := do
  if ← at? "<" then child (typeParameters sub)
  if ← acceptWord "extends" then
    commaSeparated do
      child (sub .unary)
      if ← at? "<" then child (typeArguments sub)
  if ← acceptWord "implements" then commaSeparated (child (sub .type))
  mark openBrace
  within ({ · with breakable := true, operators := false, inOperator := true }) do
    repeatWhile do
      if ← at? closeBrace then pure false
      else if ← accept ";" then pure true
      else child (classMember sub); pure true
  mark closeBrace

/-- Reads a class that is an expression. -/
def classExpression : Reader Node :=
  node .otherExpression do
    decorators sub
    word "class"
    let w ← nextWord
    if w ≠ "" ∧ w ≠ "extends" ∧ w ≠ "implements" then child (anyWord .typeIdentifier)
    classTail sub

/-! ## Literals of objects and arrays -/

/-- Reads one property of an object literal. -/
def objectProperty : Reader Node := do
  let start ← cursor
  if ← at? "..." then
    node .otherExpression do
      mark "..."
      child (sub .assignment)
  else if (← at? "*") || (← ["async", "get", "set"].anyM (wordThen · propertyNameStarts)) then
    node .otherExpression do
      repeatWhile do
        ["async", "get", "set"].anyM fun w => do
          if ← wordThen w propertyNameStarts then acceptWord w else pure false
      let _ ← accept "*"
      child (propertyName sub)
      functionTail sub
  else
    let key ← propertyName sub
    if ← at? ":" then
      nodeFrom start .pair [key.withRole .key] do
        mark ":"
        childAs .value (sub .assignment)
    else if (← at? "(") || (← at? "<") then
      nodeFrom start .otherExpression [key] (functionTail sub)
    else
      guard (key.kind = .propertyName)
      nodeFrom start .otherExpression [key] do
        initializer sub

/-- Reads an object literal. -/
def objectLiteral : Reader Node :=
  node .object do
    mark openBrace
    bracketed (listUntil closeBrace (child (objectProperty sub)))

/-- Reads an array literal, in which elements may be left out. -/
def arrayLiteral : Reader Node :=
  node .array do
    mark "["
    bracketed do
      repeatWhile do
        if ← at? "]" then pure false
        else if ← accept "," then pure true
        else
          child (callArguments.argument sub ())
          if ← at? "]" then pure false else accept ","
    mark "]"

/-- Reads a regular expression. -/
def regularExpression : Reader Node := do
  let text ← rest
  match bodyLength? false (text.drop 1) with
  | some n =>
    let flags := ((text.drop (n + 1)).takeWhile fun c => 'a' ≤ c && c ≤ 'z').length
    guard (n ≠ 1)
    leaf .otherExpression (1 + n + flags)
  | none => fail
where
  /-- The length of the body with its closing slash; inside a class of
  characters a slash stands for itself. -/
  bodyLength? : Bool → List Char → Option Nat
    | _, [] => none
    | _, '\n' :: _ => none
    | inClass, '\\' :: c :: s => if c = '\n' then none else (bodyLength? inClass s).map (· + 2)
    | true, ']' :: s => (bodyLength? false s).map (· + 1)
    | false, '[' :: s => (bodyLength? true s).map (· + 1)
    | false, '/' :: _ => some 1
    | inClass, _ :: s => (bodyLength? inClass s).map (· + 1)

/-! ## Primary expressions -/

/-- Reads an expression in parentheses, which may carry a type. -/
def parenthesized : Reader Node :=
  node .otherExpression do
    mark "("
    bracketed do
      child (sub .expression)
      if ← at? ":" then child (annotatedType sub)
    mark ")"

/-- Reads a call of `import`, or a property of it. -/
def importExpression : Reader Node := do
  let start ← cursor
  let word ← anyWord .otherExpression
  if ← at? "." then nodeFrom start .otherExpression [word] (dotName .propertyName)
  else
    nodeFrom start .callExpression [word.withRole .function] do
      childAs .arguments (callArguments sub)

/-- Reads an expression that starts with a word. -/
def wordExpression : Reader Node := do
  let w ← nextWord
  if w = "function" ∨ (w = "async" ∧ (← succeeds (do word "async"; word "function"))) then
    functionExpression sub
  else if w = "class" then classExpression sub
  else if w = "true" then anyWord .trueLiteral
  else if w = "false" then anyWord .falseLiteral
  else if w ∈ ["null", "this", "super", "undefined"] then anyWord .otherExpression
  else if w = "import" then importExpression sub
  else wordExcept expressionWords .identifier

/-- Reads an expression that no operator is applied to. -/
def primaryExpression : Reader Node := do
  match ← rest with
  | [] => fail
  | c :: after =>
    if c = '(' then parenthesized sub
    else if c = '[' then arrayLiteral sub
    else if c = '{' then objectLiteral sub
    else if c = '"' ∨ c = '\'' then stringLiteral
    else if c = '\x60' then template .otherExpression (sub .expression)
    else if c = '/' then regularExpression
    else if c = '@' then classExpression sub
    else if c = '<' then
      guard ((← read).dialect = .tsx)
      sub .element
    else if c = '#' then
      guard (Scan.wordLength after ≠ 0)
      leaf .otherExpression (1 + Scan.wordLength after)
    else
      match Scan.numberLength (c :: after) with
      | 0 => wordExpression sub
      | n => leaf .number n

/-! ## Member access and calls -/

/-- Whether type arguments that have just been read may end an expression:
nothing that starts an operand follows them. -/
def typeArgumentsEnd : Reader Bool := do
  match ← nextChar? with
  | none => return true
  | some c =>
    let operandWord := Scan.isWordStart c && !(← brokenOff) &&
      (← nextWord) ∉ ["as", "satisfies", "in", "instanceof", "of", "implements"]
    return !(operandWord || Scan.isDigit c || c ∈ ['"', '\'', '\x60', '[', '@', '#'])

/-- Reads one suffix of an expression: a property, an index, arguments, type
arguments, a template, an assertion, or a step by one.  With `calls` unset
only properties and indices are read, as in the target of `new`. -/
def suffix (calls : Bool) (start : Cursor) (e : Node) : Reader (Option Node) := do
  if ← brokenOff then return none
  match ← nextChar? with
  | some '.' =>
    if ← at? "..." then return none
    return some (← nodeFrom start .otherExpression [e] (do mark "."; property))
  | some '[' =>
    return some (← nodeFrom start .otherExpression [e] do
      mark "["
      bracketed (child (sub .expression))
      mark "]")
  | some '?' =>
    if !calls || !(← at? "?.") then return none
    orElse (do return some (← optionalStep)) (pure none)
  | some '(' =>
    if !calls then return none
    return some (← call (pure ()))
  | some '<' =>
    if !calls then return none
    orElse (do return some (← applied)) (pure none)
  | some '\x60' =>
    if !calls then return none
    return some (← nodeFrom start .callExpression [e.withRole .function] do
      childAs .arguments (template .otherExpression (sub .expression)))
  | some '!' =>
    if !calls || (← at? "!=") then return none
    return some (← nodeFrom start .otherExpression [e] (mark "!"))
  | some c =>
    if calls && (c = '+' || c = '-') && ((← at? "++") || (← at? "--")) then
      return some (← nodeFrom start .otherExpression [e] (do trivia; advance 2))
    else return none
  | none => return none
where
  /-- Reads the name of a property. -/
  property : Reader Unit := do
    trivia
    match ← rest with
    | '#' :: _ => child (propertyName sub)
    | _ => child (anyWord .propertyName)
  /-- Reads a call of `e`, after what `before` reads. -/
  call (before : Reader Unit) : Reader Node :=
    nodeFrom start .callExpression [e.withRole .function] do
      before
      childAs .arguments (callArguments sub)
  /-- Reads `e` applied to type arguments: a call, or the applied expression
  alone. -/
  applied : Reader Node :=
    orElse
      (call (childAs .typeArguments (typeArguments sub)))
      (do
        let n ← nodeFrom start .otherExpression [e] (childAs .typeArguments (typeArguments sub))
        guard (← typeArgumentsEnd)
        pure n)
  /-- Reads a step after `?.`. -/
  optionalStep : Reader Node := do
    guard (← succeeds do
      mark "?."
      guard (!((← rest).head?.any Scan.isDigit)))
    if ← succeeds (do mark "?."; guard ((← at? "(") || (← at? "<"))) then
      call do
        mark "?."
        if ← at? "<" then childAs .typeArguments (typeArguments sub)
    else
      nodeFrom start .otherExpression [e] do
        mark "?."
        if ← at? "[" then
          mark "["
          bracketed (child (sub .expression))
          mark "]"
        else property

/-- Reads all suffixes of an expression. -/
def suffixed (calls : Bool) (start : Cursor) (e : Node) : Reader Node :=
  loop (suffix sub calls start) e

/-- Reads an object creation. -/
def newExpression : Reader Node :=
  node .otherExpression do
    word "new"
    if ← at? "." then dotName .propertyName
    else
      trivia
      let start ← cursor
      let target ←
        if (← nextWord) = "new" then sub .unary
        else suffixed sub false start (← primaryExpression sub)
      collect target
      if ← at? "<" then
        let _ ← optional (child (typeArguments sub))
      if (← at? "(") && !(← brokenOff) then child (callArguments sub)

/-! ## Operators -/

/-- The words that are operators in front of an operand. -/
def prefixWords : List String := ["typeof", "void", "delete", "await"]

/-- The characters, letters apart, that an operand starts with. -/
def operandStarts : List Char :=
  ['(', '[', '{', '"', '\'', '\x60', '/', '<', '+', '-', '!', '~', '#', '@', '0', '1', '2', '3', '4',
    '5', '6', '7', '8', '9', '.']

/-- Reads an operand with the operators in front of it. -/
def unaryExpression : Reader Node := do
  let start ← cursor
  match start.rest with
  | [] => fail
  | c :: _ =>
    if c ∈ ['!', '~', '+', '-'] then
      node .otherExpression do
        if (← at? "++") || (← at? "--") then advance 2 else advance 1
        child (sub .unary)
    else if c = '<' ∧ (← read).dialect = .typeScript then
      node .otherExpression do
        child (typeArguments sub)
        child (sub .unary)
    else
      let w ← nextWord
      if w ∈ prefixWords ∧ (← wordThen w operandStarts) then
        node .otherExpression do
          word w
          child (sub .unary)
      else if w = "new" then
        suffixed sub true start (← newExpression sub)
      else suffixed sub true start (← primaryExpression sub)

/-- The infix operators, longer ones first. -/
def infixSigns : List String :=
  ["===", "!==", ">>>", "**", "&&", "||", "??", ">>", "<<", "<=", ">=", "==", "!=", "+", "-", "*", "/",
    "%", "<", ">", "&", "^", "|"]

/-- The infix operators that an equals sign does not turn into an
assignment. -/
def comparisonSigns : List String := ["===", "!==", "<=", ">=", "==", "!="]

/-- The operators that assign. -/
def assignmentSigns : List String :=
  [">>>=", "**=", "&&=", "||=", "??=", ">>=", "<<=", "+=", "-=", "*=", "/=", "%=", "&=", "^=", "|="]

/-- Reads an infix operator. -/
def infixSign : Reader Unit := do
  trivia
  let text ← rest
  match infixSigns.find? (·.toList.isPrefixOf text) with
  | some sign =>
    guard (sign ∈ comparisonSigns ∨ (text.drop sign.length).head? ≠ some '=')
    advance sign.length
  | none =>
    if (← nextWord) = "instanceof" then word "instanceof"
    else
      guard (← read).inOperator
      word "in"

/-- Reads operands joined by infix operators and type assertions. -/
def infixExpression : Reader Node := do
  let start ← cursor
  let first ← sub .unary
  loop (fun left => do
    if ← brokenOff then return none
    let w ← nextWord
    if w = "as" ∨ w = "satisfies" then
      return some (← nodeFrom start .otherExpression [left] do
        word w
        child (sub .type))
    else if ← succeeds infixSign then
      return some (← nodeFrom start .otherExpression [left] do
        infixSign
        child (sub .unary))
    else return none) first

/-- Whether the question mark of a conditional expression stands here. -/
def atCondition : Reader Bool :=
  succeeds do
    guard (!(← brokenOff))
    mark "?"
    match ← rest with
    | '?' :: _ => fail
    | '.' :: c :: _ => guard (Scan.isDigit c)
    | _ => pure ()

/-- Reads an infix expression with the branches of a condition. -/
def conditionalExpression : Reader Node := do
  let start ← cursor
  let test ← infixExpression sub
  if ← atCondition then
    nodeFrom start .otherExpression [test] do
      mark "?"
      orElse
        (do within ({ · with inOperator := true }) (child (sub .assignment)); mark ":")
        (do
          within ({ · with inOperator := true, arrowReturn := false }) (child (sub .assignment))
          mark ":")
      child (sub .assignment)
  else pure test

/-- Reads the body of an arrow function. -/
def arrowBody : Reader Unit := do
  mark "=>"
  if ← at? openBrace then child (sub .block) else child (sub .assignment)

/-- Whether parameters with an arrow, or with a return type, stand here. -/
def atArrowParameters : Reader Bool := do
  trivia
  match ← rest with
  | '(' :: after =>
    match Scan.afterBracket? (← read).size 0 after with
    | some text =>
      let text := Scan.skipTrivia (← read).size text
      return "=>".toList.isPrefixOf text ||
        ((← read).arrowReturn && text.head? = some ':')
    | none => return false
  | '<' :: _ => return true
  | _ => return false

/-- Reads an arrow function. -/
def arrowFunction : Reader Node :=
  node .otherExpression do
    if ← succeeds (do word "async"; guard ((← nextWord) ≠ "" || (← at? "(") || (← at? "<"))) then
      word "async"
    if (← at? "(") || (← at? "<") then
      guard (← peek atArrowParameters)
      callSignature sub
    else child (wordExcept expressionWords .identifier)
    arrowBody sub

/-- Whether an arrow function may stand here. -/
def atArrowFunction : Reader Bool := do
  match ← nextChar? with
  | some '(' => peek atArrowParameters
  | some '<' => return true
  | some c =>
    if !Scan.isWordStart c then return false
    else
      succeeds do
        trivia
        if ← optional (do
            word "async"
            guard (!(← brokenOff))
            guard ((← peek atArrowParameters) || (← nextWord) ≠ "")) then
          if !(← peek atArrowParameters) then
            trivia
            let _ ← anyWord .identifier
            mark "=>"
        else
          let _ ← anyWord .identifier
          mark "=>"
  | none => return false

/-- Reads an expression without commas. -/
def assignmentExpression : Reader Node := do
  let start ← cursor
  if ← atArrowFunction then orElse (arrowFunction sub) (plain start)
  else if ← succeeds (do word "yield"; guard (!(← at? ":") && !(← at? "="))) then
    node .otherExpression do
      word "yield"
      let _ ← accept "*"
      let c ← nextChar?
      if c.any (fun c => Scan.isWordStart c || c ∈ operandStarts) && !(← brokenOff) then
        child (sub .assignment)
  else plain start
where
  /-- Reads anything but an arrow function. -/
  plain (start : Cursor) : Reader Node := do
    let left ← conditionalExpression sub
    if ← brokenOff then return left
    if ← succeeds assignmentSign then
      nodeFrom start .otherExpression [left] do
        assignmentSign
        child (sub .assignment)
    else return left
  /-- Reads an operator that assigns. -/
  assignmentSign : Reader Unit := do
    trivia
    let text ← rest
    match assignmentSigns.find? (·.toList.isPrefixOf text) with
    | some sign => advance sign.length
    | none => markNot "=" ['=', '>']

/-- Reads expressions separated by commas. -/
def sequenceExpression : Reader Node := do
  let start ← cursor
  let first ← sub .assignment
  loop (fun left => do
    if ← at? "," then
      return some (← nodeFrom start .otherExpression [left] do
        mark ","
        child (sub .assignment))
    else return none) first

end CommandSchema.Syntax.Reader
