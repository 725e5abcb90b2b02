/-!
# CommandSchema.Toml.Text

The texts of TOML: comments and blank lines, and strings in their four forms.

A reader takes the characters that are left and gives what it read with the
characters after it, or nothing where the text breaks the grammar.
-/

namespace CommandSchema.Toml

/-- A reader of one part of a text. -/
abbrev Reader (α : Type) := List Char → Option (α × List Char)

/-! ## Blanks and comments -/

/-- Whether the character is a blank within a line. -/
def isBlank (c : Char) : Bool := c = ' ' || c = '\t'

/-- Whether the character may stand in a line of text: control characters
other than the tab may not. -/
def isText (c : Char) : Bool := c = '\t' || (' ' ≤ c && c ≠ '\x7f')

/-- The text after the blanks at its front. -/
def skipBlanks (s : List Char) : List Char := s.dropWhile isBlank

/-- The text after blanks, line ends and comments. -/
def skipLines : (inComment : Bool) → List Char → Option (List Char)
  | _, [] => some []
  | _, '\n' :: rest => skipLines false rest
  | _, '\r' :: '\n' :: rest => skipLines false rest
  | true, c :: rest => if isText c then skipLines true rest else none
  | false, '#' :: rest => skipLines true rest
  | false, c :: rest => if isBlank c then skipLines false rest else some (c :: rest)

/-- Whether nothing but blanks and a comment is left of the line. -/
def lineEnds (s : List Char) : Bool :=
  match skipBlanks s with
  | [] => true
  | '\n' :: _ => true
  | '\r' :: '\n' :: _ => true
  | '#' :: _ => true
  | _ => false

/-! ## Characters of strings -/

/-- The value of a digit in radix sixteen. -/
def hexValue? (c : Char) : Option Nat :=
  if c.isDigit then some (c.toNat - '0'.toNat)
  else if 'a' ≤ c ∧ c ≤ 'f' then some (c.toNat - 'a'.toNat + 10)
  else if 'A' ≤ c ∧ c ≤ 'F' then some (c.toNat - 'A'.toNat + 10)
  else none

/-- The character with the code that the digits denote. -/
def coded? (digits : List Char) : Option Char := do
  let code ← digits.foldlM (fun n c => (hexValue? c).map (16 * n + ·)) 0
  if code.isValidChar then some (Char.ofNat code) else none

/-- The character that a letter means after a backslash. -/
def escaped? : Char → Option Char
  | 'b' => some '\x08'
  | 't' => some '\t'
  | 'n' => some '\n'
  | 'f' => some '\x0c'
  | 'r' => some '\r'
  | 'e' => some '\x1b'
  | '"' => some '"'
  | '\\' => some '\\'
  | _ => none

/-- A character in front of what was read. -/
def prepend (c : Char) : Option (List Char × List Char) → Option (List Char × List Char) :=
  Option.map fun (text, rest) => (c :: text, rest)

/-- A character in front of what was read, if both are there. -/
def prepend? (c : Option Char) (read : Option (List Char × List Char)) :
    Option (List Char × List Char) :=
  c.bind fun c => prepend c read

/-- The number of quotes of a run that belong to the text when the run closes
a string of several lines: those before the last three, two at the most. -/
def spareQuotes (quote : Char) (s : List Char) : Option Nat :=
  let run := (s.take 5).takeWhile (· = quote)
  if 3 ≤ run.length then some (run.length - 3) else none

/-! ## Strings with escapes -/

/-- Whether only blanks stand before the next line end. -/
def breaksLine (s : List Char) : Bool :=
  match skipBlanks s with
  | '\n' :: _ => true
  | '\r' :: '\n' :: _ => true
  | _ => false

/-- The text up to the quote that closes it on the same line. -/
def escapedLine : Reader (List Char)
  | [] => none
  | '"' :: rest => some ([], rest)
  | '\\' :: 'x' :: a :: b :: rest => prepend? (coded? [a, b]) (escapedLine rest)
  | '\\' :: 'u' :: a :: b :: c :: d :: rest => prepend? (coded? [a, b, c, d]) (escapedLine rest)
  | '\\' :: 'U' :: a :: b :: c :: d :: e :: f :: g :: h :: rest =>
    prepend? (coded? [a, b, c, d, e, f, g, h]) (escapedLine rest)
  | '\\' :: c :: rest => prepend? (escaped? c) (escapedLine rest)
  | c :: rest => if isText c then prepend c (escapedLine rest) else none

/-- The text up to the three quotes that close it.  While `joining` is set,
blanks and line ends are left out; a backslash at the end of a line sets
it. -/
def escapedLines : (joining : Bool) → Reader (List Char)
  | _, [] => none
  | joining, '\r' :: '\n' :: rest =>
    if joining then escapedLines true rest
    else prepend '\r' (prepend '\n' (escapedLines false rest))
  | joining, '\n' :: rest =>
    if joining then escapedLines true rest else prepend '\n' (escapedLines false rest)
  | _, '\\' :: 'x' :: a :: b :: rest => prepend? (coded? [a, b]) (escapedLines false rest)
  | _, '\\' :: 'u' :: a :: b :: c :: d :: rest =>
    prepend? (coded? [a, b, c, d]) (escapedLines false rest)
  | _, '\\' :: 'U' :: a :: b :: c :: d :: e :: f :: g :: h :: rest =>
    prepend? (coded? [a, b, c, d, e, f, g, h]) (escapedLines false rest)
  | _, '\\' :: c :: rest =>
    if breaksLine (c :: rest) then escapedLines true (c :: rest)
    else prepend? (escaped? c) (escapedLines false rest)
  | joining, c :: rest =>
    match spareQuotes '"' (c :: rest) with
    | some spare => some (List.replicate spare '"', (c :: rest).drop (spare + 3))
    | none =>
      if joining && isBlank c then escapedLines true rest
      else if isText c then prepend c (escapedLines false rest)
      else none

/-! ## Literal strings -/

/-- The text up to the quote that closes it on the same line, as it stands. -/
def literalLine : Reader (List Char)
  | [] => none
  | '\'' :: rest => some ([], rest)
  | c :: rest => if isText c then prepend c (literalLine rest) else none

/-- The text up to the three quotes that close it, as it stands. -/
def literalLines : Reader (List Char)
  | [] => none
  | '\r' :: '\n' :: rest => prepend '\r' (prepend '\n' (literalLines rest))
  | '\n' :: rest => prepend '\n' (literalLines rest)
  | c :: rest =>
    match spareQuotes '\'' (c :: rest) with
    | some spare => some (List.replicate spare '\'', (c :: rest).drop (spare + 3))
    | none => if isText c then prepend c (literalLines rest) else none

/-! ## Strings -/

/-- The text after a line end at its front. -/
def skipLineEnd : List Char → List Char
  | '\n' :: rest => rest
  | '\r' :: '\n' :: rest => rest
  | s => s

/-- A string on one line. -/
def lineString : Reader String
  | '"' :: rest => (escapedLine rest).map fun (text, rest) => (String.ofList text, rest)
  | '\'' :: rest => (literalLine rest).map fun (text, rest) => (String.ofList text, rest)
  | _ => none

/-- A string in any of its forms. -/
def anyString : Reader String
  | '"' :: '"' :: '"' :: rest =>
    (escapedLines false (skipLineEnd rest)).map fun (text, rest) => (String.ofList text, rest)
  | '\'' :: '\'' :: '\'' :: rest =>
    (literalLines (skipLineEnd rest)).map fun (text, rest) => (String.ofList text, rest)
  | s => lineString s

end CommandSchema.Toml
