import CommandSchema.Syntax.Cursor
import CommandSchema.Syntax.StringLiteral

/-!
# CommandSchema.Syntax.Reader

Readers of source text: functions that consume the front of the text and
collect the children of the node under construction.

A reader fails at a cursor, the place where no token of the grammar fits;
`orElse` goes on with its second reader and reports the further of two
failures.  Every token is preceded by blanks and comments (`trivia`), and a
comment becomes a child of the node whose tokens stand on both its sides:
`node` opens a node at its first token and closes it after its last one, so a
comment before or after all tokens is left to the parent.

Recursion goes through `Goal`: a rule of the grammar gets a reader for every
goal and never calls itself, and `Reader.run` ties the knot with a bound on
the depth.
-/

namespace CommandSchema.Syntax

/-- The two languages of source files. -/
inductive Dialect where
  /-- With type assertions `<T>x`. -/
  | typeScript
  /-- With elements `<Tag>…</Tag>` in their place. -/
  | tsx
deriving DecidableEq, Repr, Inhabited

/-- What surrounds the text being read. -/
structure Context where
  dialect : Dialect
  /-- The number of characters of the whole text. -/
  size : Nat
  /-- Whether a line break may end the construct being read. -/
  breakable : Bool := true
  /-- Whether an expression is being read, rather than a type. -/
  operators : Bool := false
  /-- Whether `in` is an operator. -/
  inOperator : Bool := true
  /-- Whether a parenthesis before a colon may start an arrow function. -/
  arrowReturn : Bool := true

/-- The state of a reader: where it is, and the children collected for the
open node, latest first. -/
structure ReaderState where
  cursor : Cursor
  collected : List Node
deriving Inhabited

/-- A reader of source text. -/
abbrev Reader (α : Type) := ReaderT Context (StateT ReaderState (Except Cursor)) α

/-- The parts of the grammar that contain each other. -/
inductive Goal where
  | statement
  | block
  | expression
  | assignment
  | unary
  | pattern
  | type
  | primaryType
  | element
deriving DecidableEq, Repr

namespace Reader

variable {α : Type}

/-! ## Where the reader is -/

/-- The current place. -/
def cursor : Reader Cursor := fun _ s => .ok (s.cursor, s)

/-- The text that is left. -/
def rest : Reader (List Char) := fun _ s => .ok (s.cursor.rest, s)

/-- Gives up at the current place. -/
def fail : Reader α := fun _ s => .error s.cursor

/-- Gives up unless the condition holds. -/
def guard (b : Bool) : Reader Unit := if b then pure () else fail

/-- Tries the first reader, and the second one from the same place when the
first fails. -/
def orElse (p q : Reader α) : Reader α := fun ctx s =>
  match p ctx s with
  | .ok r => .ok r
  | .error e =>
    match q ctx s with
    | .ok r => .ok r
    | .error e' => .error (if e'.offset < e.offset then e else e')

instance : HOrElse (Reader α) (Reader α) (Reader α) := ⟨fun p q => orElse p (q ())⟩

/-- Reads what `p` reads, or nothing. -/
def optional (p : Reader Unit) : Reader Bool :=
  orElse (do p; pure true) (pure false)

/-- What `p` would answer, without moving. -/
def peek (p : Reader α) : Reader α := fun ctx s =>
  match p ctx s with
  | .ok (a, _) => .ok (a, s)
  | .error e => .error e

/-- Whether `p` succeeds here. -/
def succeeds (p : Reader Unit) : Reader Bool := peek (optional p)

/-- Reads in a changed context. -/
def within (f : Context → Context) (p : Reader α) : Reader α := fun ctx => p (f ctx)

/-- Reads inside brackets: no line break ends anything, `in` is an operator
and arrows are welcome. -/
def bracketed (p : Reader α) : Reader α :=
  within ({ · with breakable := false, inOperator := true, arrowReturn := true }) p

/-- Repeats a step until it answers `none`.  No more steps are taken than
there are characters left. -/
def loop (step : α → Reader (Option α)) (a : α) : Reader α := fun ctx s =>
  go (ctx.size - s.cursor.offset + 1) a ctx s
where
  /-- The loop with its bound. -/
  go : Nat → α → Reader α
    | 0, a => pure a
    | n + 1, a => do
      match ← step a with
      | none => pure a
      | some b => go n b

/-- Repeats a reader until it answers `false`. -/
def repeatWhile (step : Reader Bool) : Reader Unit :=
  loop (fun _ => do if ← step then pure (some ()) else pure none) ()

/-! ## Nodes -/

/-- Moves over `n` characters. -/
def advance (n : Nat) : Reader Unit := fun _ s =>
  .ok ((), { s with cursor := s.cursor.advance n })

/-- Adds a child to the open node. -/
def collect (n : Node) : Reader Unit := fun _ s =>
  .ok ((), { s with collected := n :: s.collected })

/-- Reads a node that starts at `start` and already has the given children;
`p` collects the other ones. -/
def nodeFrom (start : Cursor) (kind : Kind) (first : List Node) (p : Reader Unit) :
    Reader Node := fun ctx s =>
  match p ctx ⟨s.cursor, first.reverse⟩ with
  | .error e => .error e
  | .ok ((), t) =>
    .ok (⟨kind, none, start.textTo t.cursor, start.position, t.collected.reverse⟩,
      ⟨t.cursor, s.collected⟩)

/-- Reads a node whose first token stands here. -/
def node (kind : Kind) (p : Reader Unit) : Reader Node := do
  nodeFrom (← cursor) kind [] p

/-- A node without children over the next `n` characters. -/
def leaf (kind : Kind) (n : Nat) : Reader Node := node kind (advance n)

/-! ## Blanks and comments -/

/-- Reads one comment. -/
def comment (n : Nat) : Reader Unit := do collect (← leaf .comment n)

/-- Skips blanks and collects comments. -/
def trivia : Reader Unit :=
  repeatWhile do
    advance (Scan.blankLength (← rest))
    match Scan.commentLength? (← rest) with
    | some n => comment n; pure true
    | none => pure false

/-- Collects the node read by `p`, after the blanks and comments before
it. -/
def child (p : Reader Node) : Reader Unit := do
  trivia
  collect (← p)

/-- Collects the node read by `p` in the given part. -/
def childAs (role : Role) (p : Reader Node) : Reader Unit := do
  trivia
  collect ((← p).withRole role)

/-! ## Tokens -/

/-- Whether the text here, after blanks and comments, starts with `token`. -/
def at? (token : String) : Reader Bool := fun ctx s =>
  let text := Scan.skipTrivia ctx.size s.cursor.rest
  .ok (token.toList.isPrefixOf text, s)

/-- The character that comes after the blanks and comments here. -/
def nextChar? : Reader (Option Char) := fun ctx s =>
  .ok ((Scan.skipTrivia ctx.size s.cursor.rest).head?, s)

/-- The word that comes after the blanks and comments here, empty when none
does. -/
def nextWord : Reader String := fun ctx s =>
  let text := Scan.skipTrivia ctx.size s.cursor.rest
  .ok (String.ofList (text.take (Scan.wordLength text)), s)

/-- Reads a mark. -/
def mark (token : String) : Reader Unit := do
  trivia
  guard (token.toList.isPrefixOf (← rest))
  advance token.length

/-- Reads a mark that none of the given characters may follow. -/
def markNot (token : String) (after : List Char) : Reader Unit := do
  trivia
  let text ← rest
  guard (token.toList.isPrefixOf text && !((text.drop token.length).head?.any (· ∈ after)))
  advance token.length

/-- Reads a mark if it comes next. -/
def accept (token : String) : Reader Bool := optional (mark token)

/-- Reads the given word. -/
def word (w : String) : Reader Unit := do
  trivia
  let text ← rest
  guard (text.take (Scan.wordLength text) = w.toList)
  advance w.length

/-- Reads the given word if it comes next. -/
def acceptWord (w : String) : Reader Bool := optional (word w)

/-- Reads any word as a node, which has to stand here. -/
def anyWord (kind : Kind) : Reader Node := do
  let n := Scan.wordLength (← rest)
  guard (n ≠ 0)
  leaf kind n

/-- Reads a word that is not among the given ones. -/
def wordExcept (reserved : List String) (kind : Kind) : Reader Node := do
  let text ← rest
  let w := text.take (Scan.wordLength text)
  guard (w ≠ [] ∧ String.ofList w ∉ reserved)
  leaf kind w.length

/-- Whether the next word is the given one and a word, or one of the given
characters, comes after it. -/
def wordThen (w : String) (starts : List Char) : Reader Bool :=
  succeeds do
    word w
    let c ← nextChar?
    guard (c.any fun c => Scan.isWordStart c || c ∈ starts)

/-- Reads items separated by commas up to a closing mark, which is read too;
a comma may precede it. -/
def listUntil (close : String) (item : Reader Unit) : Reader Unit := do
  repeatWhile do
    if ← at? close then pure false
    else
      item
      accept ","
  mark close

/-- Reads one or more items separated by commas. -/
def commaSeparated (item : Reader Unit) : Reader Unit := do
  item
  repeatWhile do
    if ← accept "," then item; pure true else pure false

/-! ## Ends of statements -/

/-- Collects the comments that stand before a line break; with `true` when
the statement ends there. -/
def endsHere (bodyFollows : Bool) : Reader Bool := do
  repeatWhile do
    let text ← rest
    if (← read).breakable && Scan.statementEnds (← read).operators bodyFollows text then
      pure false
    else
      let blanks := (text.takeWhile fun c => Scan.isBlank c && c ≠ '\n').length
      match Scan.commentLength? (text.drop blanks) with
      | some n => advance blanks; comment n; pure true
      | none => pure false
  return (← read).breakable && Scan.statementEnds (← read).operators bodyFollows (← rest)

/-- Whether the construct read so far ends at the line break here. -/
def brokenOff : Reader Bool := peek (endsHere false)

/-- Reads the end of a statement: a line break where it may end one, or a
semicolon. -/
def semicolon : Reader Unit := do
  if ← within ({ · with breakable := true }) (endsHere false) then pure ()
  else mark ";"

/-! ## String literals -/

/-- Collects the pieces of a string literal as children. -/
def stringPieces : List StringLiteral.Piece → Reader Unit
  | [] => pure ()
  | piece :: pieces => do
    let kind := match piece with
      | .fragment _ => Kind.stringFragment
      | .escape _ => Kind.escapeSequence
    collect (← leaf kind piece.text.length)
    stringPieces pieces

/-- Reads a string literal, which has to stand here. -/
def stringLiteral : Reader Node :=
  node .stringLiteral do
    match ← rest with
    | quote :: body =>
      guard (quote = '"' ∨ quote = '\'')
      advance 1
      match StringLiteral.pieces quote body with
      | .ok (pieces, _) => stringPieces pieces; advance 1
      | .error left => advance (body.length - left.length); fail
    | [] => fail

/-! ## Templates -/

/-- The opening brace, as a mark. -/
def openBrace : String := "\x7b"

/-- The closing brace, as a mark. -/
def closeBrace : String := "\x7d"

/-- Reads the inside of a template up to its closing quote; `hole` reads what
stands between the braces of a substitution. -/
def templateParts (hole : Reader Node) : Reader Unit :=
  repeatWhile do
    match ← rest with
    | '\x60' :: _ => pure false
    | '$' :: '{' :: _ =>
      advance 2
      bracketed (child hole)
      mark closeBrace
      pure true
    | '\\' :: after =>
      match StringLiteral.escapeLength? after with
      | some n => advance (n + 1); pure true
      | none => fail
    | _ :: after =>
      advance (1 + (after.takeWhile fun c => c ≠ '\x60' && c ≠ '$' && c ≠ '\\').length)
      pure true
    | [] => fail

/-- Reads a template, quotes included. -/
def template (kind : Kind) (hole : Reader Node) : Reader Node :=
  node kind do
    mark "\x60"
    templateParts hole
    mark "\x60"

/-! ## Tying the knot -/

/-- A reader for each goal, from rules that read one level in terms of the
level below.  The number bounds the depth. -/
def ofRules (rules : (Goal → Reader Node) → Goal → Reader Node) : Nat → Goal → Reader Node
  | 0, _ => fail
  | n + 1, goal => rules (ofRules rules n) goal

end Reader

end CommandSchema.Syntax
