import CommandSchema.Json.Text
import CommandSchema.Yaml.Reserved

/-!
# CommandSchema.Yaml.Scalar

The written forms of a text in YAML.

A text is written bare where that is possible, else between single quotes,
and between double quotes, with escapes, where single quotes would change it.
A text with line ends is written as a literal block, line by line, unless its
blanks or its characters forbid that.  `style` makes the choice from features
of the text alone.
-/

namespace CommandSchema.Yaml

/-! ## Characters -/

/-- Whether the character ends a line. -/
def isBreak (c : Char) : Bool :=
  c = '\n' || c = '\r' || c = '\u0085' || c = '\u2028' || c = '\u2029'

/-- Whether the character is a line end, a blank, or the mark of the end. -/
def isBlank (c : Char) : Bool := isBreak c || c = ' ' || c = '\t' || c = '\x00'

/-- Whether what comes next is a blank or the end. -/
def blankNext : List Char → Bool
  | [] => true
  | c :: _ => isBlank c

/-- Whether the character may stand unescaped. -/
def isPrintable (c : Char) : Bool :=
  c = '\n' || (' ' ≤ c && c ≤ '~') ||
    ('\u00a0' ≤ c && c ≠ '\ufeff' && c ≠ '\ufffe' && c ≠ '\uffff')

/-! ## Features of a text -/

/-- Whether the character cannot start a bare text. -/
def isIndicator (c : Char) : Bool :=
  c ∈ ['#', ',', '[', ']', '\x7b', '\x7d', '&', '*', '!', '|', '>', '\'', '"', '%', '@', '\x60']

/-- Whether the start of the text has a meaning of its own. -/
def startsSpecially : List Char → Bool
  | '-' :: '-' :: '-' :: _ => true
  | '.' :: '.' :: '.' :: _ => true
  | c :: rest => isIndicator c || ((c = '?' || c = ':' || c = '-') && blankNext rest)
  | [] => false

/-- Whether a colon before a blank or a hash after one stands in the text that
follows the given character. -/
def hasMark : (previous : Char) → List Char → Bool
  | _, [] => false
  | previous, c :: rest =>
    (c = ':' && blankNext rest) || (c = '#' && isBlank previous) || hasMark c rest

/-- Whether two neighbours in the text satisfy the two conditions. -/
def hasPair (first second : Char → Bool) : List Char → Bool
  | a :: b :: rest => (first a && second b) || hasPair first second (b :: rest)
  | _ => false

/-- Whether the character is the space. -/
def isSpace (c : Char) : Bool := c = ' '

/-- Whether the text starts or ends with a space or a line end. -/
def isPadded (s : List Char) : Bool :=
  let pads (c : Char) : Bool := isSpace c || isBreak c
  s.head?.any pads || s.getLast?.any pads

/-- Whether only double quotes preserve the text: it has an unprintable
character, or a space at the end of a line. -/
def needsEscapes (s : List Char) : Bool :=
  !s.all isPrintable || hasPair isSpace isBreak s

/-! ## Styles -/

/-- How a text is written. -/
inductive Style where
  | bare
  | singleQuoted
  | doubleQuoted
  | literal
deriving DecidableEq, Repr

/-- Whether the text can stand bare. -/
def allowsBare (s : List Char) : Bool :=
  !(needsEscapes s || isPadded s || s.any isBreak || startsSpecially s ||
    s.tail?.any (hasMark (s.headD ' ')))

/-- Whether the text can stand between single quotes. -/
def allowsSingle (s : List Char) : Bool := !(needsEscapes s || hasPair isBreak isSpace s)

/-- Whether the text can stand as a literal block. -/
def allowsLiteral (s : List Char) : Bool := !(needsEscapes s || s.getLast?.any isSpace)

/-- The style of a text. -/
def style (text : String) : Style :=
  let s := text.toList
  if '\n' ∈ s then if allowsLiteral s then .literal else .doubleQuoted
  else if !isReserved text && allowsBare s then .bare
  else if allowsSingle s then .singleQuoted
  else .doubleQuoted

/-! ## Single quotes -/

/-- The text inside single quotes.  A quote is doubled; what follows a line
end is moved in by the given margin, the closing quote too. -/
def singleQuotedBody (margin : Nat) : (afterBreak : Bool) → List Char → List Char
  | afterBreak, [] => if afterBreak then List.replicate margin ' ' else []
  | afterBreak, c :: rest =>
    if isBreak c then c :: singleQuotedBody margin true rest
    else
      (if afterBreak then List.replicate margin ' ' else []) ++
        (if c = '\'' then ['\'', '\''] else [c]) ++ singleQuotedBody margin false rest

/-! ## Double quotes -/

/-- The upper-case digits of a number in radix sixteen, as many as asked
for. -/
def hexDigits : (count : Nat) → Nat → List Char
  | 0, _ => []
  | count + 1, n => hexDigits count (n / 16) ++ [(Json.hexDigit (n % 16)).toUpper]

/-- The escape for a character. -/
def escapeCode (c : Char) : List Char :=
  match c with
  | '\x00' => ['0']
  | '\x07' => ['a']
  | '\x08' => ['b']
  | '\t' => ['t']
  | '\n' => ['n']
  | '\x0b' => ['v']
  | '\x0c' => ['f']
  | '\r' => ['r']
  | '\x1b' => ['e']
  | '"' => ['"']
  | '\\' => ['\\']
  | '\u0085' => ['N']
  | '\u2028' => ['L']
  | '\u2029' => ['P']
  | c =>
    if c.toNat ≤ 0xff then 'x' :: hexDigits 2 c.toNat
    else if c.toNat ≤ 0xffff then 'u' :: hexDigits 4 c.toNat
    else 'U' :: hexDigits 8 c.toNat

/-- The written form of a character between double quotes. -/
def doubleQuotedChar (c : Char) : List Char :=
  if !isPrintable c || isBreak c || c = '"' || c = '\\' then '\\' :: escapeCode c else [c]

/-! ## Literal blocks -/

/-- The line of a literal block that says how it is to be read: whether its
margin has to be told because the text starts with a blank, and what becomes
of the line ends after the text. -/
def literalHeader (s : List Char) : List Char :=
  let margin := if s.head?.any fun c => isSpace c || isBreak c then ['2'] else []
  let ending := match s.reverse with
    | [] => ['-']
    | [c] => if isBreak c then ['+'] else ['-']
    | c :: d :: _ => if !isBreak c then ['-'] else if isBreak d then ['+'] else []
  '|' :: margin ++ ending ++ ['\n']

/-- The lines of a literal block; lines that are empty get no margin. -/
def literalBody (margin : Nat) : (afterBreak : Bool) → List Char → List Char
  | _, [] => []
  | afterBreak, c :: rest =>
    if isBreak c then c :: literalBody margin true rest
    else
      (if afterBreak then List.replicate margin ' ' else []) ++
        c :: literalBody margin false rest

/-! ## The whole text -/

/-- The written form of a text up to the end of its last line; lines after the
first are moved in by the margin. -/
def scalar (margin : Nat) (text : String) : List Char :=
  let s := text.toList
  match style text with
  | .bare => s ++ ['\n']
  | .singleQuoted => '\'' :: singleQuotedBody margin false s ++ ['\'', '\n']
  | .doubleQuoted => '"' :: s.flatMap doubleQuotedChar ++ ['"', '\n']
  | .literal =>
    literalHeader s ++ literalBody margin true s ++
      if s.getLast?.any isBreak then [] else ['\n']

end CommandSchema.Yaml
