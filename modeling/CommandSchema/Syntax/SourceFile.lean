import CommandSchema.Path
import CommandSchema.Syntax.Statements

/-!
# CommandSchema.Syntax.SourceFile

Source files: the choice of the dialect by the path, parsing, and the report
of a syntax error.

A text that breaks the grammar is refused as a whole, since a partly read
declaration could silently lose members.  The report names the part at fault:
a single stray token, or a run of characters that start no token, when the
text is well formed without it, and the whole text otherwise.
-/

namespace CommandSchema.Syntax

/-- The dialect of a file: the one with elements for paths whose extension is
`tsx`. -/
def Dialect.ofPath (path : String) : Dialect :=
  if Path.extension? path = some "tsx" then .tsx else .typeScript

/-- The part of a text that breaks the grammar. -/
structure SyntaxError where
  position : Position
  /-- The verbatim text of the part. -/
  text : String
deriving DecidableEq, Repr

namespace SyntaxError

/-- How many characters of the part a report shows. -/
def shownCharacters : Nat := 40

/-- The first line of the part, cut off where it gets too long. -/
def excerpt (e : SyntaxError) : String :=
  let line := e.text.toList.takeWhile (· ≠ '\n')
  let line :=
    if line.length < e.text.length ∧ line.getLast? = some '\r' then line.dropLast else line
  String.ofList (line.take shownCharacters)

/-- What is wrong, without the place. -/
def detail (e : SyntaxError) : String := "Syntax error near `" ++ e.excerpt ++ "`"

end SyntaxError

/-- A parsed file. -/
structure SourceFile where
  path : String
  dialect : Dialect
  root : Node
deriving Repr, Inhabited

namespace SourceFile

/-- Reads a text by the whole grammar. -/
def readProgram (dialect : Dialect) (text : List Char) : Except Cursor Node :=
  match Reader.program { dialect, size := text.length } ⟨Cursor.start text, []⟩ with
  | .ok (root, _) => .ok root
  | .error c => .error c

/-- The quote of the string that is still open after the given part of a
line.  The first argument is the quote open at its start; a backslash hides
the character after it. -/
def openQuote? : Option Char → List Char → Option Char
  | q, [] => q
  | none, c :: rest => openQuote? (if c = '"' ∨ c = '\'' then some c else none) rest
  | some q, '\\' :: _ :: rest => openQuote? (some q) rest
  | some q, c :: rest => openQuote? (if c = q then none else some q) rest

/-- The part of a text without its trailing blanks. -/
def withoutTrailingBlanks (s : List Char) : List Char :=
  (s.reverse.dropWhile Scan.isBlank).reverse

/-- The length of the part at fault at the front of a text.  Inside a string,
where only an escape can be at fault, the part reaches up to the closing
quote; elsewhere it is a token, or a run of characters that start no token.
An opening bracket is never at fault alone, for its partner is missing or left
over. -/
def strayLength (quote? : Option Char) (s : List Char) : Nat :=
  let startsNothing (c : Char) : Bool := c = '@' || c = '#' || c < ' '
  match quote?, s with
  | _, [] => 0
  | some quote, s => (withoutTrailingBlanks (s.takeWhile (· ≠ quote))).length
  | none, c :: rest =>
    if c ∈ ['(', '[', '{'] then 0
    else if c = '\\' then 1 + (rest.takeWhile Char.isAlphanum).length
    else if startsNothing c then (s.takeWhile startsNothing).length
    else max 1 (max (Scan.wordLength s) (Scan.numberLength s))

/-- The text between its first and its last character that is not blank. -/
def wholeText (text : List Char) : SyntaxError :=
  let start := (Cursor.start text).advance (Scan.blankLength text)
  ⟨start.position, String.ofList (withoutTrailingBlanks start.rest)⟩

/-- The part at fault when reading stops at the given place. -/
def errorAt (dialect : Dialect) (text : List Char) (at' : Cursor) : SyntaxError :=
  let before := (text.take at'.offset).reverse.takeWhile (· ≠ '\n')
  let n := strayLength (openQuote? none before.reverse) at'.rest
  let without := text.take at'.offset ++ at'.rest.drop n
  match at'.rest, readProgram dialect without with
  | _ :: _, .ok _ => ⟨at'.position, String.ofList (at'.rest.take n)⟩
  | _, _ => wholeText text

/-- Parses a text as the file at the given path. -/
def parse (path : String) (text : String) : Except SyntaxError SourceFile :=
  let dialect := Dialect.ofPath path
  match readProgram dialect text.toList with
  | .ok root => .ok ⟨path, dialect, root⟩
  | .error c => .error (errorAt dialect text.toList c)

end SourceFile

end CommandSchema.Syntax
