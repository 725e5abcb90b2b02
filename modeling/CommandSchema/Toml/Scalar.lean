import CommandSchema.Decimal
import CommandSchema.Toml.Text
import CommandSchema.Toml.Value

/-!
# CommandSchema.Toml.Scalar

The values of TOML that are written without quotes or brackets: truth values,
numbers, and dates and times of day.

Each is a run of characters with a grammar of its own, and the grammars do not
overlap, so the order in which they are tried does not matter.
-/

namespace CommandSchema.Toml

/-! ## Digits -/

/-- The digits of a group without the underscores between them; an underscore
has to have a digit on both sides. -/
def ungrouped? (isDigit : Char → Bool) : List Char → Option (List Char)
  | [] => none
  | [c] => if isDigit c then some [c] else none
  | c :: '_' :: rest =>
    if isDigit c then (ungrouped? isDigit rest).map (c :: ·) else none
  | c :: rest => if isDigit c then (ungrouped? isDigit rest).map (c :: ·) else none

/-- Decimal digits that do not start with a needless zero. -/
def wholeDigits? (s : List Char) : Option (List Char) := do
  let digits ← ungrouped? Char.isDigit s
  match digits with
  | '0' :: _ :: _ => none
  | _ => some digits

/-- The number that digits of a radix denote. -/
def ofRadix? (radix : Nat) (s : List Char) : Option Nat := do
  let digits ← ungrouped? (fun c => (hexValue? c).any (· < radix)) s
  digits.foldlM (fun n c => (hexValue? c).map (radix * n + ·)) 0

/-- Whether the text starts with a minus sign. -/
def isNegative (s : List Char) : Bool := s.head? = some '-'

/-! ## Numbers -/

/-- An integer that fits 128 bits. -/
def integer? (s : List Char) : Option Value :=
  match s with
  | '0' :: 'x' :: digits => bounded (ofRadix? 16 digits)
  | '0' :: 'o' :: digits => bounded (ofRadix? 8 digits)
  | '0' :: 'b' :: digits => bounded (ofRadix? 2 digits)
  | _ =>
    let value := (wholeDigits? (Decimal.unsigned s)).map Decimal.ofDigits
    if isNegative s then
      value.bind fun n => if n ≤ Nat.pow 2 127 then some (.integer (-(n : Int))) else none
    else bounded value
where
  /-- The integer, if it is not too large. -/
  bounded (value : Option Nat) : Option Value :=
    value.bind fun n => if n < Nat.pow 2 128 then some (.integer n) else none

/-- Whether the text is an exponent without its letter. -/
def isExponent (s : List Char) : Bool :=
  (ungrouped? Char.isDigit (Decimal.unsigned s)).isSome

/-- Whether the text is what may follow the whole part of a float. -/
def isFloatTail : List Char → Bool
  | '.' :: rest =>
    let fraction := rest.takeWhile fun c => c.isDigit || c = '_'
    (ungrouped? Char.isDigit fraction).isSome &&
      match rest.drop fraction.length with
      | [] => true
      | e :: exponent => (e = 'e' || e = 'E') && isExponent exponent
  | e :: exponent => (e = 'e' || e = 'E') && isExponent exponent
  | [] => false

/-- A number with a fraction or an exponent that a double can hold, or one of
the words for the numbers that are not finite. -/
def float? (s : List Char) : Option Value :=
  let body := Decimal.unsigned s
  let whole := body.takeWhile fun c => c.isDigit || c = '_'
  let value := Value.float (String.ofList s)
  if body = ['i', 'n', 'f'] ∨ body = ['n', 'a', 'n'] then some value
  else if (wholeDigits? whole).isSome ∧ isFloatTail (body.drop whole.length) ∧
      (Decimal.ofText? (body.filter (· ≠ '_'))).any Decimal.isFiniteDouble then
    some value
  else none

/-! ## Dates and times -/

/-- The number that a fixed count of digits denotes. -/
def fixed? (digits : List Char) : Option Nat :=
  if digits.all Char.isDigit then some (Decimal.ofDigits digits) else none

/-- The number of days of a month. -/
def daysIn (year month : Nat) : Nat :=
  if month = 2 then
    if year % 4 = 0 ∧ (year % 100 ≠ 0 ∨ year % 400 = 0) then 29 else 28
  else if month ∈ [4, 6, 9, 11] then 30
  else 31

/-- The text after a date at its front. -/
def afterDate? : List Char → Option (List Char)
  | a :: b :: c :: d :: '-' :: e :: f :: '-' :: g :: h :: rest => do
    let year ← fixed? [a, b, c, d]
    let month ← fixed? [e, f]
    let day ← fixed? [g, h]
    if 1 ≤ month ∧ month ≤ 12 ∧ 1 ≤ day ∧ day ≤ daysIn year month then some rest else none
  | _ => none

/-- The text after hours and minutes at its front. -/
def afterMinutes? : List Char → Option (List Char)
  | a :: b :: ':' :: c :: d :: rest => do
    let hours ← fixed? [a, b]
    let minutes ← fixed? [c, d]
    if hours ≤ 23 ∧ minutes ≤ 59 then some rest else none
  | _ => none

/-- The text after a fraction of a second, which may be missing. -/
def afterFraction? : List Char → Option (List Char)
  | '.' :: rest =>
    if rest.head?.any Char.isDigit then some (rest.dropWhile Char.isDigit) else none
  | s => some s

/-- The text after a time of day at its front; the seconds may be missing. -/
def afterTime? (s : List Char) : Option (List Char) := do
  match ← afterMinutes? s with
  | ':' :: a :: b :: rest =>
    let seconds ← fixed? [a, b]
    if seconds ≤ 60 then afterFraction? rest else none
  | rest => some rest

/-- Whether the text is nothing or an offset from universal time. -/
def isOffset : List Char → Bool
  | [] => true
  | ['Z'] => true
  | ['z'] => true
  | '+' :: rest => afterMinutes? rest = some []
  | '-' :: rest => afterMinutes? rest = some []
  | _ => false

/-- A date, a time of day, or both with a separator between them. -/
def moment? (s : List Char) : Option Value :=
  let ok :=
    match afterDate? s with
    | some [] => true
    | some (c :: rest) =>
      (c = 'T' || c = 't' || c = ' ') && (afterTime? rest).any isOffset
    | none => afterTime? s = some []
  if ok then some (.moment (String.ofList s)) else none

/-! ## Scalars -/

/-- Whether the character can stand in a value without quotes. -/
def isBare (c : Char) : Bool :=
  c.isAlphanum || c = '_' || c = '-' || c = '+' || c = '.' || c = ':'

/-- The run of characters at the front that forms a value.  A blank belongs to
it between a date and a time of day. -/
def bareRun (s : List Char) : List Char :=
  let run := s.takeWhile isBare
  match s.drop run.length with
  | ' ' :: c :: rest =>
    if (afterDate? run) = some [] ∧ c.isDigit then
      run ++ ' ' :: (c :: rest).takeWhile isBare
    else run
  | _ => run

/-- The value that a run of characters denotes. -/
def scalar? (s : List Char) : Option Value :=
  if s = "true".toList then some (.boolean true)
  else if s = "false".toList then some (.boolean false)
  else (integer? s <|> float? s) <|> moment? s

end CommandSchema.Toml
