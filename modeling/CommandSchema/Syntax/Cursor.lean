import CommandSchema.Syntax.Node

/-!
# CommandSchema.Syntax.Cursor

A place in a source text together with the text after it, and the scans over
characters that need no tree: white space, comments, words, numbers, brackets
that belong together, and the places where a line break ends a statement.

Every scan takes the remaining characters and returns how many of them belong
to what it looks for, or the characters after it; `Cursor.advance` then moves
over them and keeps line and column.
-/

namespace CommandSchema.Syntax

/-- A place in a text: what follows it, its position, and the number of
characters before it. -/
structure Cursor where
  rest : List Char
  position : Position
  offset : Nat
deriving Repr, Inhabited

namespace Cursor

/-- The start of a text. -/
def start (text : List Char) : Cursor := ⟨text, ⟨1, 1⟩, 0⟩

/-- The position after a character: a line feed starts a new line, any other
character moves by its length in bytes. -/
def stepPosition (p : Position) (c : Char) : Position :=
  if c = '\n' then ⟨p.line + 1, 1⟩ else ⟨p.line, p.column + c.utf8Size⟩

/-- Moves over the next `n` characters, or to the end of the text. -/
def advance (n : Nat) (c : Cursor) : Cursor :=
  match n, c with
  | n + 1, ⟨ch :: rest, p, k⟩ => advance n ⟨rest, stepPosition p ch, k + 1⟩
  | _, c => c

/-- The text between a cursor and a later one. -/
def textTo (c d : Cursor) : String := String.ofList (c.rest.take (d.offset - c.offset))

end Cursor

/-! ## Character classes -/

namespace Scan

/-- The space separators that are not ASCII. -/
def isSpaceSeparator (c : Char) : Bool :=
  c = '\u00a0' || c = '\u1680' || ('\u2000' ≤ c && c ≤ '\u200a') || c = '\u202f' ||
    c = '\u205f' || c = '\u3000'

/-- The ASCII white space, line ends included. -/
def isAsciiSpace (c : Char) : Bool :=
  c = ' ' || ('\t' ≤ c && c ≤ '\r')

/-- What may stand between any two tokens: white space, line ends, the byte
order mark and the two invisible joiners of words. -/
def isBlank (c : Char) : Bool :=
  isAsciiSpace c || isSpaceSeparator c || c = '\ufeff' || c = '\u2028' || c = '\u2029' ||
    c = '\u2060' || c = '\u200b'

/-- The characters that end a word although they are printable. -/
def isWordBreaker (c : Char) : Bool :=
  c ∈ [':', ';', '\x60', '"', '\'', '@', '#', '.', ',', '|', '^', '&', '<', '=', '>', '+', '-',
    '*', '/', '\\', '%', '?', '!', '~', '(', ')', '[', ']', '{', '}']

/-- A character inside a word.  All of Unicode is admitted except control
characters, blanks and the punctuation of the language. -/
def isWordChar (c : Char) : Bool :=
  ' ' < c && !isBlank c && !isWordBreaker c

/-- A character that a word may start with: no digit. -/
def isWordStart (c : Char) : Bool := isWordChar c && !('0' ≤ c && c ≤ '9')

/-- A decimal digit. -/
def isDigit (c : Char) : Bool := '0' ≤ c && c ≤ '9'

/-! ## Blanks and comments -/

/-- Whether a character ends a line comment. -/
def endsLineComment (c : Char) : Bool :=
  c = '\n' || c = '\r' || c = '\u2028' || c = '\u2029'

/-- The length of the rest of a block comment, its closing mark included;
`none` when the comment is not closed. -/
def blockCommentLength? : List Char → Option Nat
  | '*' :: '/' :: _ => some 2
  | _ :: rest => (blockCommentLength? rest).map (· + 1)
  | [] => none

/-- The length of the comment at the front of a text. -/
def commentLength? : List Char → Option Nat
  | '/' :: '/' :: rest => some (2 + (rest.takeWhile (!endsLineComment ·)).length)
  | '/' :: '*' :: rest => (blockCommentLength? rest).map (· + 2)
  | _ => none

/-- The number of blanks at the front of a text. -/
def blankLength (s : List Char) : Nat := (s.takeWhile isBlank).length

/-- The text after all blanks and comments at its front.  The first argument
bounds the number of comments. -/
def skipTrivia : Nat → List Char → List Char
  | 0, s => s
  | n + 1, s =>
    let s := s.dropWhile isBlank
    match commentLength? s with
    | some k => skipTrivia n (s.drop k)
    | none => s

/-! ## Words and numbers -/

/-- The length of an escaped code point in a word, the backslash included. -/
def wordEscapeLength? : List Char → Option Nat
  | '\\' :: 'u' :: '{' :: rest =>
    let digits := rest.takeWhile (fun c => c.isDigit || ('a' ≤ c && c ≤ 'f') || ('A' ≤ c && c ≤ 'F'))
    if digits ≠ [] ∧ (rest.drop digits.length).head? = some '}' then some (digits.length + 4) else none
  | '\\' :: 'u' :: rest =>
    let digits := (rest.take 4).takeWhile
      (fun c => c.isDigit || ('a' ≤ c && c ≤ 'f') || ('A' ≤ c && c ≤ 'F'))
    if digits.length = 4 then some 6 else none
  | _ => none

/-- The length of the rest of a word.  The first argument counts the characters
of an escape that are still to come. -/
def wordTailLength : Nat → List Char → Nat
  | _, [] => 0
  | n + 1, _ :: rest => 1 + wordTailLength n rest
  | 0, c :: rest =>
    if isWordChar c then 1 + wordTailLength 0 rest
    else
      match wordEscapeLength? (c :: rest) with
      | some (k + 1) => 1 + wordTailLength k rest
      | _ => 0

/-- The length of the word at the front of a text, zero when there is none. -/
def wordLength (s : List Char) : Nat :=
  match s with
  | [] => 0
  | c :: _ => if isWordStart c || (wordEscapeLength? s).isSome then wordTailLength 0 s else 0

/-- The length of a run of digits of a class, in which single underscores may
stand between digits. -/
def digitsLength (isDigit : Char → Bool) : List Char → Nat
  | [] => 0
  | '_' :: c :: rest => if isDigit c then 2 + digitsLength isDigit rest else 0
  | c :: rest => if isDigit c then 1 + digitsLength isDigit rest else 0

/-- The length of an exponent, zero when there is none. -/
def exponentLength : List Char → Nat
  | e :: s =>
    if e = 'e' ∨ e = 'E' then
      let sign := if s.head? = some '+' ∨ s.head? = some '-' then 1 else 0
      match digitsLength isDigit (s.drop sign) with
      | 0 => 0
      | n => 1 + sign + n
    else 0
  | [] => 0

/-- The length of the number at the front of a text, zero when there is
none. -/
def numberLength (s : List Char) : Nat :=
  let withSuffix (n : Nat) : Nat := if (s.drop n).head? = some 'n' then n + 1 else n
  let isHex (c : Char) : Bool := isDigit c || ('a' ≤ c && c ≤ 'f') || ('A' ≤ c && c ≤ 'F')
  match s with
  | '0' :: x :: rest =>
    if x = 'x' ∨ x = 'X' then withSuffix (2 + digitsLength isHex rest)
    else if x = 'b' ∨ x = 'B' then withSuffix (2 + digitsLength (fun c => c = '0' || c = '1') rest)
    else if x = 'o' ∨ x = 'O' then withSuffix (2 + digitsLength (fun c => '0' ≤ c && c ≤ '7') rest)
    else decimal s withSuffix
  | _ => decimal s withSuffix
where
  /-- A decimal number: digits, a fraction and an exponent, or digits and the
  suffix of a big integer. -/
  decimal (s : List Char) (withSuffix : Nat → Nat) : Nat :=
    match digitsLength isDigit s with
    | 0 =>
      match s with
      | '.' :: rest =>
        match digitsLength isDigit rest with
        | 0 => 0
        | n => 1 + n + exponentLength (rest.drop n)
      | _ => 0
    | n =>
      match s.drop n with
      | '.' :: rest =>
        let m := n + 1 + digitsLength isDigit rest
        m + exponentLength (s.drop m)
      | 'n' :: _ => withSuffix n
      | after => n + exponentLength after

/-! ## Quotes and brackets

Before a parenthesis is read it has to be known whether an arrow follows its
closing partner.  The scans below find that partner; they look inside quotes
and comments only to skip them. -/

/-- The text after a closing quote; a backslash hides the character after
it. -/
def afterQuote (quote : Char) : List Char → List Char
  | [] => []
  | '\\' :: _ :: rest => afterQuote quote rest
  | c :: rest => if c = quote then rest else afterQuote quote rest

/-- The text after the bracket that closes the innermost open one, `none`
when it is missing.  The first argument bounds the number of tokens looked
at, the second counts the brackets opened meanwhile. -/
def afterBracket? : Nat → Nat → List Char → Option (List Char)
  | 0, _, _ => none
  | _ + 1, _, [] => none
  | n + 1, depth, c :: rest =>
    if c = '(' ∨ c = '[' ∨ c = '{' then afterBracket? n (depth + 1) rest
    else if c = ')' ∨ c = ']' ∨ c = '}' then
      match depth with
      | 0 => some rest
      | d + 1 => afterBracket? n d rest
    else if c = '"' ∨ c = '\'' ∨ c = '\x60' then afterBracket? n depth (afterQuote c rest)
    else
      match commentLength? (c :: rest) with
      | some k => afterBracket? n depth ((c :: rest).drop k)
      | none => afterBracket? n depth rest

/-! ## Line breaks that end a statement -/

/-- Whether a statement may end before the given text, which starts a new
line.  `operators` says that an infix operator could stand here: then an
opening parenthesis or bracket goes on with the expression.  `bodyFollows`
says that a function body could stand here. -/
def breakEnds (operators bodyFollows : Bool) (s : List Char) : Bool :=
  match skipTrivia s.length s with
  | [] => true
  | c :: rest =>
    if c ∈ ['\x60', ',', '.', ';', '*', '%', '>', '<', '=', '?', '^', '|', '&', '/', ':'] then false
    else if c = '{' then !bodyFollows
    else if c = '(' ∨ c = '[' then !operators
    else if c = '+' then rest.head? = some '+'
    else if c = '-' then rest.head? = some '-'
    else if c = '!' then rest.head? ≠ some '='
    else if c = 'i' then
      match rest with
      | 'n' :: rest =>
        if !(rest.head?.any Char.isAlpha) then false
        else if "stanceof".toList.isPrefixOf rest then (rest.drop 8).head?.any Char.isAlpha
        else true
      | _ => true
    else true

/-- Whether a statement that is complete before the given text ends there
without a semicolon: at the end of the text, before a closing brace, and at a
line break after which nothing goes on with the statement. -/
def statementEnds (operators bodyFollows : Bool) : List Char → Bool
  | [] => true
  | c :: rest =>
    if c = '}' then
      if (rest.dropWhile isAsciiSpace).head? = some ':' then operators else true
    else if c = '\n' then breakEnds operators bodyFollows rest
    else if isAsciiSpace c then statementEnds operators bodyFollows rest
    else false

end Scan

end CommandSchema.Syntax
