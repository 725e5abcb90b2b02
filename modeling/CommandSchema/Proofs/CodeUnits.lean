import CommandSchema.Proofs.Syntax.Escapes
import CommandSchema.Proofs.Syntax.StringLiteral

/-!
# CommandSchema.Proofs.CodeUnits

Literals that write the code units of a string.

In UTF-16 a character beyond the first plane takes two units, a high and a low
surrogate.  A literal may write each unit as an escape of four digits.  Escapes
are read one at a time and a surrogate is no character, so such a pair is read as
the text of its two escapes without the backslashes (`readUnit`): the literal
stands for the string exactly when all characters are in the first plane
(`StringLiteral.stringLiteral_of_codeUnits`).
-/

namespace CommandSchema

open Syntax Syntax.Node

namespace Syntax.StringLiteral

/-! ## Code units -/

/-- The code units of a character in UTF-16. -/
def codeUnits (c : Char) : List Nat :=
  if c.toNat < 0x10000 then [c.toNat]
  else [0xd800 + (c.toNat - 0x10000) / 0x400, 0xdc00 + (c.toNat - 0x10000) % 0x400]

/-- What the escape of a code unit with the given digits is read as. -/
def readUnit (digits : List Char) (unit : Nat) : List Char :=
  if 0xd800 ≤ unit ∧ unit < 0xe000 then 'u' :: digits else [Char.ofNat unit]

/-- Digits that write a code unit. -/
def WritesUnit (digits : List Char) (unit : Nat) : Prop :=
  digits.length = 4 ∧ Numeral digits unit

/-- The text that writes code units, given by their digits. -/
def unitsText (units : List (List Char)) : List Char :=
  units.flatMap fun digits => '\\' :: 'u' :: digits

theorem writesUnit_of_digits {a b c d : Char} {i j k l : Nat} (ha : IsDigitOf a i)
    (hb : IsDigitOf b j) (hc : IsDigitOf c k) (hd : IsDigitOf d l) :
    WritesUnit [a, b, c, d] (16 * (16 * (16 * i + j) + k) + l) := by
  have hfirst : Numeral [a] i := by simpa using Numeral.nil.snoc ha
  exact ⟨rfl, ((hfirst.snoc hb).snoc hc).snoc hd⟩

/-- A numeral writes a number that its digits suffice for. -/
theorem Numeral.lt_pow {digits : List Char} {n : Nat} (h : Numeral digits n) :
    n < Nat.pow 16 digits.length := by
  induction h with
  | nil => decide
  | @snoc digits n d c _ last ih =>
      have hd : d < 16 := by
        rcases last with h | h
        · exact (List.getElem?_eq_some_iff.mp h).1
        · exact (List.getElem?_eq_some_iff.mp h).1
      have hpow : Nat.pow 16 (digits ++ [c]).length = Nat.pow 16 digits.length * 16 := by
        rw [List.length_append]
        rfl
      omega

/-- The escape of a code unit is read as the unit's character or, for a
surrogate, as its text. -/
theorem decodeBody_of_writesUnit {digits : List Char} {unit : Nat} (h : WritesUnit digits unit) :
    decodeBody ('u' :: digits) = readUnit digits unit := by
  obtain ⟨four, code⟩ := h
  have hlt : unit < 0x10000 := by
    have hpow := code.lt_pow
    rwa [four] at hpow
  rw [decodeBody_unit four code, readUnit]
  by_cases hsurrogate : 0xd800 ≤ unit ∧ unit < 0xe000
  · have hinvalid : ¬ unit.isValidChar := by
      unfold Nat.isValidChar
      omega
    have hnone : charOfCode? unit = none := dif_neg hinvalid
    rw [hnone, if_pos hsurrogate]
    rfl
  · have hvalid : unit.isValidChar := by
      unfold Nat.isValidChar
      omega
    have hchar : charOfCode? unit = some (Char.ofNat unit) := by
      rw [charOfCode?, dif_pos hvalid, Char.ofNat, dif_pos hvalid]
    rw [hchar, if_neg hsurrogate]
    rfl

/-! ## Reading code units -/

/-- The escapes of code units are read one at a time. -/
theorem reads_units (quote : Quote) {digits : List (List Char)} {units : List Nat}
    (h : List.Forall₂ WritesUnit digits units) (after : List Char) :
    Reads quote (unitsText digits ++ quote.char :: after)
      (List.zipWith readUnit digits units).flatten after := by
  induction h with
  | nil => exact reads_close ..
  | @cons ds unit digits units hunit _ ih =>
      have hread := reads_escape (escapeLength?_unit hunit.1 hunit.2 _) ih
      rw [decodeBody_of_writesUnit hunit] at hread
      simpa [unitsText] using hread

/-- The only code unit of a character of the first plane is read as the
character. -/
theorem readUnit_toNat (digits : List Char) (c : Char) : readUnit digits c.toNat = [c] := by
  have hvalid : c.toNat.isValidChar := c.valid
  have hsurrogate : ¬ (0xd800 ≤ c.toNat ∧ c.toNat < 0xe000) := by
    unfold Nat.isValidChar at hvalid
    omega
  rw [readUnit, if_neg hsurrogate, Char.ofNat_toNat]

/-- The first code unit of any other character is read as the text of its
escape. -/
theorem readUnit_highSurrogate (digits : List Char) {c : Char} (hc : ¬ c.toNat < 0x10000) :
    readUnit digits (0xd800 + (c.toNat - 0x10000) / 0x400) = 'u' :: digits := by
  have hvalid : c.toNat.isValidChar := c.valid
  refine if_pos ?_
  unfold Nat.isValidChar at hvalid
  omega

/-- The code units of a string are read as the string exactly when all its
characters are in the first plane. -/
theorem flatten_readUnit_eq_iff {s : List Char} {digits : List (List Char)}
    (h : List.Forall₂ WritesUnit digits (s.flatMap codeUnits)) :
    (List.zipWith readUnit digits (s.flatMap codeUnits)).flatten = s ↔
      ∀ c ∈ s, c.toNat < 0x10000 := by
  induction s generalizing digits with
  | nil => simp
  | cons c s ih =>
      by_cases hc : c.toNat < 0x10000
      · rw [List.flatMap_cons, codeUnits, if_pos hc] at h ⊢
        cases h with
        | @cons ds _ digits _ _ hrest =>
            simp [readUnit_toNat, ih hrest, hc]
      · rw [List.flatMap_cons, codeUnits, if_neg hc] at h ⊢
        cases h with
        | @cons high _ digits _ _ hrest =>
            have hne : 'u' ≠ c := by
              rintro rfl
              exact hc (by decide)
            simp [readUnit_highSurrogate high hc, hne, hc]

/-- **Literals of code units.**  A literal that writes each code unit of a string
as an escape of four digits is read up to its closing quote.  A character of the
first plane is read as itself, and a surrogate as the text of its escape, so the
value is the string exactly when all characters are in the first plane. -/
theorem stringLiteral_of_codeUnits (quote : Quote) (after : List Char) (ctx : Context)
    {s : List Char} {digits : List (List Char)} {t : ReaderState}
    (h : List.Forall₂ WritesUnit digits (s.flatMap codeUnits))
    (hrest : t.cursor.rest = quote.char :: (unitsText digits ++ quote.char :: after)) :
    ∃ n, Reader.stringLiteral ctx t =
        .ok (n, ⟨t.cursor.advance ((unitsText digits).length + 2), t.collected⟩) ∧
      n.kind = .stringLiteral ∧
      n.stringValue =
        String.ofList (List.zipWith readUnit digits (s.flatMap codeUnits)).flatten ∧
      (n.stringValue = String.ofList s ↔ ∀ c ∈ s, c.toNat < 0x10000) := by
  obtain ⟨n, hread, hkind, hvalue⟩ := Reader.stringLiteral_run ctx hrest (reads_units quote h after)
  refine ⟨n, hread, hkind, hvalue, ?_⟩
  rw [hvalue, String.ofList_inj, flatten_readUnit_eq_iff h]

/-- A pair of surrogates is read as the text of its escapes, and not as the face
that it writes. -/
theorem stringLiteral_surrogatePair :
    ∃ n t, Reader.stringLiteral ⟨.typeScript, 0, true, false, true, true⟩
        ⟨.start "'\\uD83D\\uDE00'".toList, []⟩ = .ok (n, t) ∧
      n.stringValue = "uD83DuDE00" ∧ n.stringValue ≠ "😀" := by
  have hhigh : WritesUnit "D83D".toList 0xd83d :=
    writesUnit_of_digits (i := 13) (j := 8) (k := 3) (l := 13) (.inr rfl) (.inr rfl) (.inr rfl)
      (.inr rfl)
  have hlow : WritesUnit "DE00".toList 0xde00 :=
    writesUnit_of_digits (i := 13) (j := 14) (k := 0) (l := 0) (.inr rfl) (.inr rfl) (.inr rfl)
      (.inr rfl)
  have hunits : List.Forall₂ WritesUnit ["D83D".toList, "DE00".toList] (['😀'].flatMap codeUnits) :=
    .cons hhigh (.cons hlow .nil)
  obtain ⟨n, hread, -, hvalue, hsame⟩ := stringLiteral_of_codeUnits .single []
    ⟨.typeScript, 0, true, false, true, true⟩ (t := ⟨.start "'\\uD83D\\uDE00'".toList, []⟩)
    hunits rfl
  refine ⟨n, _, hread, hvalue, fun h => ?_⟩
  have hplane := hsame.mp h '😀' List.mem_cons_self
  exact absurd hplane (by decide)

end Syntax.StringLiteral

end CommandSchema
