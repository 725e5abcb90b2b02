import CommandSchema.Syntax.Node

/-!
# CommandSchema.Syntax.StringLiteral

Quoted string literals: how the text between the quotes splits into pieces,
and what each piece stands for.

`pieces` reads the body of a literal.  A piece is either a run of characters
that stand for themselves or one escape sequence, so `value` is the
concatenation of what the pieces stand for.  An escape that names no
character keeps its text and loses the backslash.
-/

namespace CommandSchema.Syntax.StringLiteral

/-! ## Character classes -/

/-- A digit of base eight. -/
def isOctalDigit (c : Char) : Bool := '0' ≤ c && c ≤ '7'

/-- The value of a digit of base sixteen, in either case. -/
def hexDigit? (c : Char) : Option Nat :=
  if '0' ≤ c ∧ c ≤ '9' then some (c.toNat - '0'.toNat)
  else if 'a' ≤ c ∧ c ≤ 'f' then some (c.toNat - 'a'.toNat + 10)
  else if 'A' ≤ c ∧ c ≤ 'F' then some (c.toNat - 'A'.toNat + 10)
  else none

/-- A digit of base sixteen. -/
def isHexDigit (c : Char) : Bool := (hexDigit? c).isSome

/-- The characters after which a carriage return or a question mark in an
escape is taken along. -/
def isLineEnd (c : Char) : Bool :=
  c = '\n' || c = '\u2028' || c = '\u2029'

/-! ## Splitting a body into pieces -/

/-- A piece of the text between the quotes. -/
inductive Piece where
  /-- Characters that stand for themselves. -/
  | fragment (text : List Char)
  /-- One escape sequence, the backslash included. -/
  | escape (text : List Char)
deriving DecidableEq, Repr

/-- The source text of a piece. -/
def Piece.text : Piece → List Char
  | .fragment text => text
  | .escape text => text

/-- How many characters after a backslash belong to its escape sequence;
`none` when they form no escape at all.  Of several readings the longest is
taken. -/
def escapeLength? : List Char → Option Nat
  | [] => none
  | 'x' :: rest =>
    if (rest.take 2).length = 2 ∧ (rest.take 2).all isHexDigit then some 3 else none
  | 'u' :: '{' :: rest =>
    let digits := rest.takeWhile isHexDigit
    if digits ≠ [] ∧ (rest.drop digits.length).head? = some '}' then
      some (digits.length + 3)
    else none
  | 'u' :: rest =>
    if (rest.take 4).length = 4 ∧ (rest.take 4).all isHexDigit then some 5 else none
  | c :: rest =>
    if isOctalDigit c then
      some (1 + ((rest.take 2).takeWhile isOctalDigit).length)
    else if (c = '\r' ∨ c = '?') ∧ rest.head?.any isLineEnd then some 2
    else some 1

/-- Puts a character that stands for itself in front of the pieces. -/
def consChar (c : Char) : List Piece → List Piece
  | .fragment text :: pieces => .fragment (c :: text) :: pieces
  | pieces => .fragment [c] :: pieces

/-- Reads the body of a literal and its closing quote, and returns the pieces
with what follows the quote.  A literal ends on the line it starts on: a bare
line break, an ill-formed escape or the end of the text is an error, reported
as the text from there on. -/
def pieces (quote : Char) (s : List Char) :
    Except (List Char) (List Piece × List Char) :=
  match s with
  | [] => .error []
  | c :: rest =>
    if c = quote then .ok ([], rest)
    else if c = '\\' then
      match escapeLength? rest with
      | none => .error (c :: rest)
      | some n =>
        match pieces quote (rest.drop n) with
        | .error e => .error e
        | .ok (ps, after) => .ok (.escape (c :: rest.take n) :: ps, after)
    else if c = '\n' ∨ c = '\r' then .error (c :: rest)
    else
      match pieces quote rest with
      | .error e => .error e
      | .ok (ps, after) => .ok (consChar c ps, after)
termination_by s.length
decreasing_by all_goals simp +arith

/-! ## What the pieces stand for -/

/-- The number written by the digits of base sixteen, `none` for no digits or
for a character that is no digit. -/
def hexNumber? (digits : List Char) : Option Nat :=
  if digits = [] then none
  else digits.foldlM (fun n c => (hexDigit? c).map (16 * n + ·)) 0

/-- The character with the given code point, `none` for surrogates and for
numbers beyond the last code point. -/
def charOfCode? (n : Nat) : Option Char :=
  if h : n.isValidChar then some (Char.ofNatAux n h) else none

/-- The characters that the escape sequence with the given text after the
backslash stands for.  An escape that names no character stands for its own
text. -/
def decodeBody (body : List Char) : List Char :=
  let named (digits : List Char) : List Char :=
    match (hexNumber? digits).bind charOfCode? with
    | some c => [c]
    | none => body
  match body with
  | ['n'] => ['\n']
  | ['t'] => ['\t']
  | ['r'] => ['\r']
  | ['b'] => ['\x08']
  | ['f'] => ['\x0c']
  | ['v'] => ['\x0b']
  | ['0'] => ['\x00']
  | '\n' :: _ => []
  | '\r' :: _ => []
  | 'u' :: '{' :: digits => named (digits.takeWhile (· ≠ '}'))
  | 'u' :: digits => named digits
  | 'x' :: digits => named digits
  | _ => body

/-- The characters that an escape sequence stands for, its text given with
the backslash. -/
def decodeEscape : List Char → List Char
  | '\\' :: body => decodeBody body
  | body => decodeBody body

/-- The characters that a piece stands for. -/
def Piece.value : Piece → List Char
  | .fragment text => text
  | .escape text => decodeEscape text

end CommandSchema.Syntax.StringLiteral

namespace CommandSchema.Syntax.Node

/-- The text that a child of a string literal stands for: an escape sequence
decoded, anything else as it is written. -/
def pieceValue (n : Node) : String :=
  if n.kind = .escapeSequence then String.ofList (StringLiteral.decodeEscape n.text.toList)
  else n.text

/-- The value of a string literal: what its pieces stand for, in order. -/
def stringValue (n : Node) : String :=
  String.join (n.namedChildren.map pieceValue)

end CommandSchema.Syntax.Node
