import CommandSchema.Syntax.Expressions

/-!
# CommandSchema.Syntax.Elements

The grammar of elements, the tagged expressions of the second dialect.  The
text between tags stands for itself, and an attribute in quotes has no
escapes: its value is the text between the quotes.
-/

namespace CommandSchema.Syntax.Reader

variable (sub : Goal → Reader Node)

/-- Reads the name of an element or an attribute: words joined by hyphens,
dots and colons. -/
def elementName : Reader Unit := do
  trivia
  let _ ← anyWord .identifier
  repeatWhile do
    match ← rest with
    | c :: after =>
      let n := (after.takeWhile fun c => Scan.isWordChar c || c = '-').length
      if c ∈ ['-', '.', ':'] && (n ≠ 0 || c = '-') then advance (n + 1); pure true
      else pure false
    | [] => pure false

/-- Reads an expression in braces, which may be missing or spread. -/
def elementExpression : Reader Node :=
  node .otherExpression do
    mark openBrace
    bracketed do
      let _ ← accept "..."
      if ← at? closeBrace then trivia else child (sub .expression)
    mark closeBrace

/-- Reads the quoted value of an attribute. -/
def attributeString : Reader Node :=
  node .stringLiteral do
    match ← rest with
    | quote :: body =>
      let inside := (body.takeWhile (· ≠ quote)).length
      guard (inside < body.length)
      advance 1
      if inside ≠ 0 then collect (← leaf .stringFragment inside)
      advance 1
    | [] => fail

/-- Reads one attribute. -/
def elementAttribute : Reader Node := do
  if ← at? openBrace then elementExpression sub
  else
    node .otherExpression do
      elementName
      if ← accept "=" then
        match ← nextChar? with
        | some '{' => child (elementExpression sub)
        | some '<' => child (sub .element)
        | some c =>
          guard (c = '"' ∨ c = '\'')
          child attributeString
        | none => fail

/-- Reads an element with everything between its tags. -/
def element : Reader Node :=
  node .otherExpression do
    mark "<"
    if ← accept ">" then content
    else
      elementName
      if ← at? "<" then child (typeArguments sub)
      repeatWhile do
        if (← at? ">") || (← at? "/") then pure false
        else child (elementAttribute sub); pure true
      if ← accept "/" then mark ">"
      else
        mark ">"
        content
where
  /-- Reads what stands between two tags, and the closing tag. -/
  content : Reader Unit := do
    repeatWhile do
      match ← rest with
      | '<' :: _ =>
        if ← succeeds (do mark "<"; mark "/") then pure false
        else collect (← sub .element); pure true
      | '{' :: _ => collect (← elementExpression sub); pure true
      | c :: after =>
        guard (c ≠ '>' ∧ c ≠ '}')
        advance (1 + (after.takeWhile (· ∉ ['<', '>', '{', '}'])).length)
        pure true
      | [] => fail
    mark "<"
    mark "/"
    if !(← at? ">") then elementName
    mark ">"

end CommandSchema.Syntax.Reader
