import CommandSchema.Syntax.Elements

/-!
# CommandSchema.Syntax.Statements

The grammar of statements and declarations, and the table that gives every
goal its rule.

Interfaces, type aliases and the statements that may wrap them have kinds of
their own; all other statements are read for what they contain.
-/

namespace CommandSchema.Syntax.Reader

variable (sub : Goal → Reader Node)

/-! ## Variables, functions and classes -/

/-- Reads one variable with its type and value; answers whether it has a
value. -/
def declarator : Reader Bool := do
  let d ← node .otherExpression do
    childAs .name (bindingPattern sub)
    let _ ← optional do
      mark "!"
      guard (← at? ":")
    if ← at? ":" then childAs .type (annotatedType sub)
    initializer sub
  collect d
  return (d.child? .value).isSome

/-- Reads variables separated by commas; answers whether the last one has a
value. -/
def declarators : Reader Bool := do
  trivia
  let first ← declarator sub
  loop (fun _ => do
    if ← accept "," then
      trivia
      return some (← declarator sub)
    else return none) first

/-- Reads a declaration of variables. -/
def variableDeclaration : Reader Node :=
  node .otherStatement do
    trivia
    let _ ← wordExcept [] .otherExpression
    let valued ← declarators sub
    within ({ · with operators := valued }) semicolon

/-- Reads a function with a name, or only its signature. -/
def functionDeclaration : Reader Node :=
  node .otherStatement do
    let _ ← acceptWord "async"
    word "function"
    let _ ← accept "*"
    childAs .name (anyWord .identifier)
    callSignature sub
    if ← at? openBrace then child (sub .block)
    else
      if !(← endsHere true) then mark ";"

/-- Reads a class with a name. -/
def classDeclaration : Reader Node :=
  node .otherStatement do
    decorators sub
    let _ ← acceptWord "abstract"
    word "class"
    childAs .name (anyWord .typeIdentifier)
    classTail sub

/-! ## Types and modules -/

/-- Reads an interface. -/
def interfaceDeclaration : Reader Node :=
  node .interfaceDeclaration do
    word "interface"
    childAs .name (anyWord .typeIdentifier)
    if ← at? "<" then childAs .typeParameters (typeParameters sub)
    if (← nextWord) = "extends" then child (extendsClause ())
    childAs .body (memberList sub .interfaceBody)
where
  /-- Reads the interfaces that are extended. -/
  extendsClause (_ : Unit) : Reader Node :=
    node .extendsTypeClause do
      word "extends"
      commaSeparated (childAs .type (typeReference sub))

/-- Reads a type alias. -/
def typeAlias : Reader Node :=
  node .typeAliasDeclaration do
    word "type"
    childAs .name (anyWord .typeIdentifier)
    if ← at? "<" then childAs .typeParameters (typeParameters sub)
    markNot "=" ['=', '>']
    childAs .value (sub .type)
    within ({ · with operators := false }) semicolon

/-- Reads an enumeration. -/
def enumDeclaration : Reader Node :=
  node .otherStatement do
    let _ ← acceptWord "const"
    word "enum"
    childAs .name (anyWord .identifier)
    mark openBrace
    bracketed (listUntil closeBrace do
      child (propertyName sub)
      initializer sub)

/-- Reads a name with dots. -/
def dottedName : Reader Node :=
  node .otherExpression do
    child (anyWord .identifier)
    repeatWhile (optional (dotName .identifier))

/-- Reads a module or a namespace. -/
def moduleDeclaration : Reader Node :=
  node .otherStatement do
    trivia
    let _ ← anyWord .otherExpression
    match ← nextChar? with
    | some c =>
      if c = '"' ∨ c = '\'' then child stringLiteral else child dottedName
    | none => fail
    if ← at? openBrace then child (sub .block)

/-- Reads a name for an imported entity. -/
def importAlias : Reader Node :=
  node .otherStatement do
    word "import"
    let _ ← optional do
      word "type"
      guard ((← nextWord) ≠ "")
    child (anyWord .identifier)
    mark "="
    if ← succeeds (do word "require"; mark "(") then
      word "require"
      mark "("
      child stringLiteral
      mark ")"
    else child dottedName
    within ({ · with operators := false }) semicolon

/-! ## Declarations -/

/-- Whether the word that stands here starts a declaration with a name. -/
def atDeclaration : Reader Bool := do
  let w ← nextWord
  if w = "var" ∨ w = "const" then return true
  else if w = "let" then wordThen "let" ['{', '[']
  else if w = "function" then
    succeeds do
      word "function"
      let _ ← accept "*"
      guard ((← nextWord) ≠ "")
  else if w = "async" then
    succeeds do
      word "async"
      guard (!(← brokenOff))
      word "function"
      let _ ← accept "*"
      guard ((← nextWord) ≠ "")
  else if w = "class" then
    succeeds do
      word "class"
      guard ((← nextWord) ∉ ["", "extends", "implements"])
  else if w = "abstract" then succeeds do word "abstract"; word "class"
  else if w = "module" then wordThen w ['"', '\'']
  else if w ∈ ["interface", "type", "enum", "namespace"] then wordThen w []
  else if w = "declare" then
    succeeds do
      word "declare"
      guard ((← nextWord) ∈ ["var", "let", "const", "function", "async", "class", "abstract", "interface",
        "type", "enum", "namespace", "module", "import", "global", "declare"])
  else if w = "import" then
    succeeds do
      word "import"
      let _ ← optional do
        word "type"
        guard ((← nextWord) ≠ "")
      trivia
      let _ ← anyWord .identifier
      mark "="
  else return (← at? "@")

/-- Reads a declaration with a name. -/
def declaration : Reader Node := do
  let w ← nextWord
  if w = "const" ∧ (← succeeds (do word "const"; word "enum")) then enumDeclaration sub
  else if w = "var" ∨ w = "let" ∨ w = "const" then variableDeclaration sub
  else if w = "function" ∨ w = "async" then functionDeclaration sub
  else if w = "interface" then interfaceDeclaration sub
  else if w = "type" then typeAlias sub
  else if w = "enum" then enumDeclaration sub
  else if w = "namespace" ∨ w = "module" then moduleDeclaration sub
  else if w = "import" then importAlias
  else if w = "declare" then ambientDeclaration ()
  else classDeclaration sub
where
  /-- Reads a declaration without an implementation. -/
  ambientDeclaration (_ : Unit) : Reader Node :=
    node .ambientDeclaration do
      word "declare"
      if ← succeeds (do word "global"; mark openBrace) then
        word "global"
        child (sub .block)
      else
        guard (← atDeclaration)
        child (sub .statement)

/-! ## Imports and exports -/

/-- Reads the text that names a module. -/
def moduleName : Reader Unit := do
  child stringLiteral
  for w in ["with", "assert"] do
    let _ ← optional do
      word w
      child (objectLiteral sub)

/-- Reads names in braces, each with an optional second name. -/
def specifiers : Reader Unit := do
  mark openBrace
  bracketed (listUntil closeBrace do
    for w in ["type", "typeof"] do
      let _ ← optional do
        word w
        guard (!(← at? ",") && !(← at? closeBrace) && (← nextWord) ≠ "as")
    child name
    if ← acceptWord "as" then child name)
where
  /-- Reads one of the names. -/
  name : Reader Node := do
    match ← rest with
    | c :: _ => if c = '"' ∨ c = '\'' then stringLiteral else anyWord .identifier
    | [] => fail

/-- Reads an import. -/
def importStatement : Reader Node := do
  if ← atDeclaration then importAlias
  else
    node .otherStatement do
      word "import"
      for w in ["type", "typeof"] do
        let _ ← optional do
          word w
          guard ((← at? "*") || (← at? openBrace) ||
            (← succeeds (do
              trivia
              let _ ← anyWord .identifier
              guard ((← nextWord) = "from" || (← at? ","))
              guard !(← at? "'"))))
      match ← nextChar? with
      | some c =>
        if c = '"' ∨ c = '\'' then moduleName sub
        else
          if Scan.isWordStart c then
            child (anyWord .identifier)
            if ← accept "," then names
          else names
          word "from"
          moduleName sub
      | none => fail
      within ({ · with operators := false }) semicolon
where
  /-- Reads the names that are not the default. -/
  names : Reader Unit := do
    if ← accept "*" then
      word "as"
      child (anyWord .identifier)
    else specifiers

/-- Reads an export. -/
def exportStatement : Reader Node :=
  node .exportStatement do
    decorators sub
    word "export"
    let finish := within ({ · with operators := false }) semicolon
    if ← acceptWord "default" then
      if ← atDeclaration then child (sub .statement)
      else
        child (sub .expression)
        semicolon
    else if ← succeeds (do word "type"; guard ((← at? openBrace) || (← at? "*"))) then
      word "type"
      listed
      finish
    else if (← at? "*") || (← at? openBrace) then
      listed
      finish
    else if ← accept "=" then
      child (sub .expression)
      semicolon
    else if ← acceptWord "as" then
      word "namespace"
      child (anyWord .identifier)
      finish
    else
      guard (← atDeclaration)
      child (declaration sub)
where
  /-- Reads the names that are exported, and the module they come from. -/
  listed : Reader Unit := do
    if ← accept "*" then
      if ← acceptWord "as" then
        trivia
        child (specifiers.name)
      word "from"
      moduleName sub
    else
      specifiers
      if (← nextWord) = "from" && !(← brokenOff) then
        word "from"
        moduleName sub

/-! ## Control flow -/

/-- Reads a condition in parentheses. -/
def condition : Reader Unit := child (parenthesized sub)

/-- Reads the head of a loop over the elements of a value. -/
def eachHead : Reader Unit := do
  if ← ["var", "let", "const"].anyM (wordThen · ['{', '[']) then
    child (anyWord .otherExpression)
    child (bindingPattern sub)
    initializer sub
  else within ({ · with inOperator := false }) (child (sub .unary))
  if !(← acceptWord "of") then word "in"
  child (sub .expression)
  mark ")"

/-- Reads the head of a loop with a counter. -/
def countedHead : Reader Unit := do
  if !(← accept ";") then
    within ({ · with inOperator := false }) do
      if ← ["var", "let", "const"].anyM (wordThen · ['{', '[']) then
        child (anyWord .otherExpression)
        let _ ← declarators sub
      else child (sub .expression)
    mark ";"
  if !(← accept ";") then
    child (sub .expression)
    mark ";"
  if !(← accept ")") then
    child (sub .expression)
    mark ")"

/-- Reads the clauses of a choice between cases. -/
def switchBody : Reader Unit := do
  mark openBrace
  repeatWhile do
    if ← at? closeBrace then pure false
    else
      if ← acceptWord "default" then pure ()
      else
        word "case"
        child (sub .expression)
      mark ":"
      repeatWhile do
        if (← at? closeBrace) || (← nextWord) = "case" || (← wordColon "default") then pure false
        else child (sub .statement); pure true
      pure true
  mark closeBrace
where
  /-- Whether the given word and a colon come next. -/
  wordColon (w : String) : Reader Bool := succeeds do word w; mark ":"

/-- Reads a statement that starts with a word of its own; the words are
those of `controlWords`. -/
def controlStatement (w : String) : Reader Unit := do
  word w
  if w = "if" then
    condition sub
    child (sub .statement)
    if ← acceptWord "else" then child (sub .statement)
  else if w = "for" then
    let _ ← acceptWord "await"
    mark "("
    bracketed (orElse (eachHead sub) (countedHead sub))
    child (sub .statement)
  else if w = "while" ∨ w = "with" then
    condition sub
    child (sub .statement)
  else if w = "do" then
    child (sub .statement)
    word "while"
    condition sub
    let _ ← optional semicolon
  else if w = "switch" then
    condition sub
    within ({ · with breakable := true }) (switchBody sub)
  else if w = "try" then
    child (sub .block)
    if ← acceptWord "catch" then
      if ← accept "(" then
        bracketed do
          child (bindingPattern sub)
          if ← at? ":" then child (annotatedType sub)
        mark ")"
      child (sub .block)
    if ← acceptWord "finally" then child (sub .block)
  else if w = "return" ∨ w = "throw" then
    if !((← brokenOff) || (← at? ";")) then child (sub .expression)
    semicolon
  else if w = "break" ∨ w = "continue" then
    if !(← brokenOff) && (← nextWord) ≠ "" then child (anyWord .identifier)
    semicolon
  else semicolon

/-- The words that start a statement which is no declaration. -/
def controlWords : List String :=
  ["if", "for", "while", "with", "do", "switch", "try", "return", "throw", "break", "continue",
    "debugger"]

/-- Reads a statement. -/
def statement : Reader Node := do
  match ← nextChar? with
  | none => fail
  | some '{' => sub .block
  | some ';' => leaf .otherStatement 1
  | some '@' =>
    orElse (exportStatement sub) (classDeclaration sub)
  | some _ =>
    let w ← nextWord
    if w ∈ controlWords then node .otherStatement (controlStatement sub w)
    else if w = "export" then exportStatement sub
    else if w = "import" ∧ !(← succeeds (do word "import"; guard ((← at? "(") || (← at? ".")))) then
      importStatement sub
    else if ← atDeclaration then declaration sub
    else if w ≠ "" ∧ (← succeeds (do word w; mark ":")) then
      node .otherStatement do
        word w
        mark ":"
        child (sub .statement)
    else
      node .otherStatement do
        child (sub .expression)
        semicolon

/-- Reads statements in braces. -/
def block : Reader Node :=
  node .otherStatement do
    mark openBrace
    repeatWhile do
      if ← at? closeBrace then pure false
      else child (sub .statement); pure true
    mark closeBrace

/-! ## The whole grammar -/

/-- The rule for every goal. -/
def rules : Goal → Reader Node
  | .statement =>
    within ({ · with breakable := true, operators := true, inOperator := true, arrowReturn := true })
      (statement sub)
  | .block => block sub
  | .expression => within ({ · with operators := true }) (sequenceExpression sub)
  | .assignment => within ({ · with operators := true }) (assignmentExpression sub)
  | .unary => within ({ · with operators := true }) (unaryExpression sub)
  | .pattern => bindingPattern sub
  | .type => within ({ · with operators := false }) (typeExpression sub)
  | .primaryType => within ({ · with operators := false }) (typeOperand sub)
  | .element => element sub

/-- Reads a whole file.  A rule moves over a character before it comes back
to itself, so a bound on the depth that is larger than the text suffices. -/
def program : Reader Node := do
  let sub := ofRules rules (8 * ((← read).size + 2))
  node .program do
    if "#!".toList.isPrefixOf (← rest) then
      advance ((← rest).takeWhile (· ≠ '\n')).length
    repeatWhile do
      trivia
      if (← rest).isEmpty then pure false
      else child (sub .statement); pure true

end CommandSchema.Syntax.Reader
