import CommandSchema.Decimal

/-!
# CommandSchema.Yaml.Reserved

The texts that cannot stand bare in YAML because a reader would not take them
for texts: the empty one, the words for null and the truth values, and
numbers.
-/

namespace CommandSchema.Yaml

/-! ## Numbers -/

/-- The value of a digit in any of the radixes up to sixteen. -/
def digitValue? (c : Char) : Option Nat :=
  if c.isDigit then some (c.toNat - '0'.toNat)
  else if 'a' ≤ c ∧ c ≤ 'f' then some (c.toNat - 'a'.toNat + 10)
  else if 'A' ≤ c ∧ c ≤ 'F' then some (c.toNat - 'A'.toNat + 10)
  else none

/-- The number that digits of a radix denote; at least one is needed. -/
def ofRadix? (radix : Nat) (digits : List Char) : Option Nat :=
  if digits = [] then none
  else digits.foldlM (fun n c => do
    let d ← digitValue? c
    if d < radix then some (radix * n + d) else none) 0

/-- The number after a radix mark. -/
def marked? : List Char → Option Nat
  | '0' :: 'x' :: digits => ofRadix? 16 digits
  | '0' :: 'o' :: digits => ofRadix? 8 digits
  | '0' :: 'b' :: digits => ofRadix? 2 digits
  | _ => none

/-- Whether the text is an integer with a radix mark that fits 128 bits, a
negative one in two's complement. -/
def isMarkedInteger : List Char → Bool
  | '-' :: s => (marked? s).any (· ≤ Nat.pow 2 127)
  | '+' :: s => (marked? s).any (· < Nat.pow 2 128)
  | s => (marked? s).any (· < Nat.pow 2 128)

/-- Whether the text is a zero followed by more digits, which is no number but
looks like one. -/
def isZeroPadded (s : List Char) : Bool :=
  match Decimal.unsigned s with
  | '0' :: d :: digits => (d :: digits).all Char.isDigit
  | _ => false

/-- Whether the text is a decimal number that a double can hold. -/
def isFiniteDecimal (s : List Char) : Bool := (Decimal.ofText? s).any Decimal.isFiniteDouble

/-- The words for the numbers that are not finite. -/
def infiniteWords : List String :=
  [".inf", ".Inf", ".INF", "+.inf", "+.Inf", "+.INF", "-.inf", "-.Inf", "-.INF",
    ".nan", ".NaN", ".NAN"]

/-! ## Words -/

/-- The words for null and the truth values. -/
def reservedWords : List String :=
  ["null", "Null", "NULL", "~", "true", "True", "TRUE", "false", "False", "FALSE"]

/-- Whether a reader would take the bare text for something else than a
text. -/
def isReserved (s : String) : Bool :=
  s.isEmpty || s ∈ reservedWords || s ∈ infiniteWords || isMarkedInteger s.toList ||
    isZeroPadded s.toList || isFiniteDecimal s.toList

end CommandSchema.Yaml
