/-!
# CommandSchema.Decimal

Decimal texts, and whether the number that one denotes is finite as a
double.

A decimal text is a sign, digits with at most one point among or beside them,
and an exponent; all but the digits may be left out.  A number is too large
for a double when rounding takes it beyond the largest finite one.  The
comparison is exact: the exponent is only raised to a power once the number
of digits has placed the number near the bound.
-/

namespace CommandSchema

/-- The number `mantissa · 10 ^ exponent`; the sign is left out. -/
structure Decimal where
  mantissa : Nat
  exponent : Int
deriving DecidableEq, Repr

namespace Decimal

/-! ## Reading -/

/-- The number that digits denote. -/
def ofDigits (digits : List Char) : Nat :=
  digits.foldl (fun n c => 10 * n + (c.toNat - '0'.toNat)) 0

/-- The text without a leading sign. -/
def unsigned : List Char → List Char
  | '+' :: rest => rest
  | '-' :: rest => rest
  | s => s

/-- The exponent that a text denotes: nothing, or `e`, a sign and digits. -/
def exponent? : List Char → Option Int
  | [] => some 0
  | e :: rest =>
    let digits := unsigned rest
    if (e = 'e' ∨ e = 'E') ∧ digits ≠ [] ∧ digits.all Char.isDigit then
      some (if rest.head? = some '-' then -(ofDigits digits : Int) else ofDigits digits)
    else none

/-- The number that a text without a sign denotes. -/
def ofUnsigned? (s : List Char) : Option Decimal :=
  let whole := s.takeWhile Char.isDigit
  let (fraction, rest) := match s.dropWhile Char.isDigit with
    | '.' :: rest => (rest.takeWhile Char.isDigit, rest.dropWhile Char.isDigit)
    | rest => ([], rest)
  if whole = [] ∧ fraction = [] then none
  else (exponent? rest).map fun e => ⟨ofDigits (whole ++ fraction), e - fraction.length⟩

/-- The number that a text denotes, up to its sign. -/
def ofText? (s : List Char) : Option Decimal := ofUnsigned? (unsigned s)

/-! ## Doubles -/

/-- The least number that no longer rounds to a finite double: half a unit in
the last place above the largest one. -/
def doubleBound : Nat := Nat.pow 2 1024 - Nat.pow 2 970

/-- The number of digits of a number, none for zero. -/
def digitCount (n : Nat) : Nat := if n = 0 then 0 else (toString n).length

/-- Whether the number is finite as a double. -/
def isFiniteDouble (d : Decimal) : Bool :=
  let magnitude : Int := digitCount d.mantissa + d.exponent
  if d.mantissa = 0 ∨ magnitude < 309 then true
  else if 309 < magnitude then false
  else d.mantissa * Nat.pow 10 d.exponent.toNat < doubleBound * Nat.pow 10 (-d.exponent).toNat

end Decimal

end CommandSchema
