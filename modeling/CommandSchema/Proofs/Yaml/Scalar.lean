import CommandSchema.Proofs.Json.Grammar
import CommandSchema.Yaml.Scalar

/-!
# CommandSchema.Proofs.Yaml.Scalar

A text in YAML can be told from any other one.

The written form of a text ends where the next line stands further out
(`Outdented`), so two texts that are written in front of such lines with the same
result are the same (`scalar_cancel`).  The first character says in which style a
text is written, and each style has its own reason: a bare text ends with its line, a
quote is doubled between single quotes and escaped between double quotes, no escape is
the beginning of another one, and in a literal block every line that is not empty is
moved in.
-/

namespace CommandSchema.Yaml

open Syntax.StringLiteral (IsDigitOf Numeral)

/-! ## Lines further out -/

/-- The text is empty, or its first line is moved in by less than the column and not
empty. -/
def Outdented (column : Nat) (r : List Char) : Prop :=
  r = [] ∨ ∃ k < column, ∃ c t,
    r = List.replicate k ' ' ++ c :: t ∧ c ≠ ' ' ∧ isBreak c = false

theorem Outdented.mono {column column' : Nat} {r : List Char} (h : Outdented column r)
    (hle : column ≤ column') : Outdented column' r := by
  rcases h with rfl | ⟨k, hk, rest⟩
  · exact .inl rfl
  · exact .inr ⟨k, by omega, rest⟩

/-- A line that is moved in so far has no character before that. -/
theorem le_of_spaces {k m : Nat} {c : Char} {t u : List Char} (hc : c ≠ ' ')
    (h : List.replicate k ' ' ++ c :: t = List.replicate m ' ' ++ u) : m ≤ k := by
  induction k generalizing m with
  | zero =>
      cases m with
      | zero => exact Nat.le_refl 0
      | succ m => exact absurd (List.cons.inj h).1 hc
  | succ k ih =>
      cases m with
      | zero => exact Nat.zero_le _
      | succ m => exact Nat.succ_le_succ (ih (List.cons.inj h).2)

/-- A line further out is not moved in to the column. -/
theorem Outdented.ne_moved {column : Nat} {r t : List Char} (h : Outdented column r)
    (hpos : 0 < column) : r ≠ List.replicate column ' ' ++ t := by
  rintro rfl
  rcases h with hnil | ⟨k, hk, c, u, heq, hc, -⟩
  · have hlength := congrArg List.length hnil
    simp at hlength
    omega
  · have := le_of_spaces hc heq.symm
    omega

/-- A line further out does not begin with a line end. -/
theorem Outdented.not_break {column : Nat} {c : Char} {t : List Char}
    (h : Outdented column (c :: t)) : isBreak c = false := by
  rcases h with hnil | ⟨k, -, d, u, heq, -, hd⟩
  · cases hnil
  · cases k with
    | zero =>
        rw [(List.cons.inj heq).1]
        exact hd
    | succ k =>
        rw [(List.cons.inj heq).1]
        decide

/-! ## Bare texts -/

/-- A text without line ends ends with its line. -/
theorem line_cancel {s s' r r' : List Char} (h : s.any isBreak = false)
    (h' : s'.any isBreak = false) (heq : s ++ '\n' :: r = s' ++ '\n' :: r') :
    s = s' ∧ r = r' := by
  induction s generalizing s' with
  | nil =>
      cases s' with
      | nil => exact ⟨rfl, (List.cons.inj heq).2⟩
      | cons c s' =>
          rw [← (List.cons.inj heq).1] at h'
          simp [isBreak] at h'
  | cons c s ih =>
      cases s' with
      | nil =>
          rw [(List.cons.inj heq).1] at h
          simp [isBreak] at h
      | cons c' s' =>
          rw [List.any_cons, Bool.or_eq_false_iff] at h h'
          obtain ⟨rfl, hrest⟩ := List.cons.inj heq
          obtain ⟨rfl, rfl⟩ := ih h.2 h'.2 hrest
          exact ⟨rfl, rfl⟩

/-! ## Single quotes -/

/-- What moves in a line: nothing but behind a line end. -/
def indent (margin : Nat) (afterBreak : Bool) : List Char :=
  if afterBreak then List.replicate margin ' ' else []

/-- A line end is not what a line that is moved in begins with. -/
theorem ne_indent {margin : Nat} (hpos : 0 < margin) {afterBreak : Bool} {c d : Char}
    {t u : List Char} (hc : isBreak c = true) (hd : isBreak d = false) :
    c :: t ≠ indent margin afterBreak ++ d :: u := by
  intro heq
  obtain ⟨margin, rfl⟩ : ∃ m, margin = m + 1 := ⟨margin - 1, by omega⟩
  cases afterBreak with
  | false =>
      rw [(List.cons.inj heq).1, hd] at hc
      cases hc
  | true =>
      rw [(List.cons.inj heq).1] at hc
      exact absurd hc (by decide)

/-- A character between single quotes; the quote is doubled. -/
def singleQuotedChar (c : Char) : List Char := c :: if c = '\'' then ['\''] else []

/-- Characters between single quotes can be told apart. -/
theorem singleQuotedChar_cancel {c c' : Char} {t t' : List Char}
    (heq : singleQuotedChar c ++ t = singleQuotedChar c' ++ t') : c = c' ∧ t = t' := by
  obtain ⟨rfl, hrest⟩ := List.cons.inj heq
  exact ⟨rfl, List.append_cancel_left hrest⟩

/-- A closing quote in front of a line end is no character between single quotes. -/
theorem ne_singleQuotedChar {c : Char} {t u : List Char} :
    '\'' :: '\n' :: t ≠ singleQuotedChar c ++ u := by
  intro heq
  obtain ⟨rfl, hrest⟩ := List.cons.inj heq
  exact absurd (List.cons.inj hrest).1 (by decide)

theorem singleQuotedBody_break {c : Char} (hc : isBreak c = true) (margin : Nat) (afterBreak : Bool)
    (s : List Char) :
    singleQuotedBody margin afterBreak (c :: s) = c :: singleQuotedBody margin true s := by
  rw [singleQuotedBody, if_pos hc]

/-- Any other character between single quotes. -/
theorem singleQuotedBody_plain {c : Char} (hc : isBreak c = false) (margin : Nat)
    (afterBreak : Bool) (s : List Char) :
    singleQuotedBody margin afterBreak (c :: s) =
      indent margin afterBreak ++ (singleQuotedChar c ++ singleQuotedBody margin false s) := by
  have hchar : (if c = '\'' then ['\'', '\''] else [c]) = singleQuotedChar c := by
    rw [singleQuotedChar]
    split
    · next hquote => rw [hquote]
    · rfl
  rw [singleQuotedBody, if_neg (by simp [hc]), List.append_assoc, hchar]
  rfl

/-- A text that has ended between single quotes can be told from one that has not. -/
theorem singleQuotedBody_nil_cancel {margin : Nat} (hpos : 0 < margin) {afterBreak : Bool}
    {s r r' : List Char}
    (heq : singleQuotedBody margin afterBreak [] ++ '\'' :: '\n' :: r =
      singleQuotedBody margin afterBreak s ++ '\'' :: '\n' :: r') : [] = s ∧ r = r' := by
  have hnil : singleQuotedBody margin afterBreak [] = indent margin afterBreak := by
    rw [singleQuotedBody, indent]
  rw [hnil] at heq
  cases s with
  | nil =>
      rw [hnil] at heq
      simpa using List.append_cancel_left heq
  | cons c s =>
      cases hc : isBreak c with
      | true =>
          rw [singleQuotedBody_break hc] at heq
          exact absurd heq.symm (ne_indent hpos hc (by decide))
      | false =>
          rw [singleQuotedBody_plain hc, List.append_assoc, List.append_assoc] at heq
          exact absurd (List.append_cancel_left heq) ne_singleQuotedChar

/-- Between single quotes texts can be told apart, whatever follows the closing
quote and a line end. -/
theorem singleQuotedBody_cancel {margin : Nat} (hpos : 0 < margin) {afterBreak : Bool}
    {s s' r r' : List Char}
    (heq : singleQuotedBody margin afterBreak s ++ '\'' :: '\n' :: r =
      singleQuotedBody margin afterBreak s' ++ '\'' :: '\n' :: r') : s = s' ∧ r = r' := by
  induction s generalizing s' afterBreak with
  | nil => exact singleQuotedBody_nil_cancel hpos heq
  | cons c s ih =>
      cases s' with
      | nil =>
          obtain ⟨hnil, hr⟩ := singleQuotedBody_nil_cancel hpos heq.symm
          exact ⟨hnil.symm, hr.symm⟩
      | cons c' s' =>
          cases hc : isBreak c <;> cases hc' : isBreak c'
          case false.false =>
            rw [singleQuotedBody_plain hc, singleQuotedBody_plain hc'] at heq
            simp only [List.append_assoc] at heq
            obtain ⟨rfl, hrest⟩ := singleQuotedChar_cancel (List.append_cancel_left heq)
            obtain ⟨rfl, rfl⟩ := ih hrest
            exact ⟨rfl, rfl⟩
          case false.true =>
            rw [singleQuotedBody_plain hc, singleQuotedBody_break hc', List.append_assoc,
              List.append_assoc] at heq
            exact absurd heq.symm (ne_indent hpos hc' hc)
          case true.false =>
            rw [singleQuotedBody_break hc, singleQuotedBody_plain hc', List.append_assoc,
              List.append_assoc] at heq
            exact absurd heq (ne_indent hpos hc hc')
          case true.true =>
            rw [singleQuotedBody_break hc, singleQuotedBody_break hc'] at heq
            obtain ⟨rfl, hrest⟩ := List.cons.inj heq
            obtain ⟨rfl, rfl⟩ := ih hrest
            exact ⟨rfl, rfl⟩

/-! ## Double quotes -/

theorem length_hexDigits (count n : Nat) : (hexDigits count n).length = count := by
  induction count generalizing n with
  | zero => rfl
  | succ count ih => rw [hexDigits, List.length_append, ih]; rfl

/-- The digits of a number that has no more of them write the number. -/
theorem numeral_hexDigits {count n : Nat} (h : n < Nat.pow 16 count) :
    Numeral (hexDigits count n) n := by
  induction count generalizing n with
  | zero =>
      obtain rfl : n = 0 := by
        have : n < 1 := h
        omega
      exact .nil
  | succ count ih =>
      have hdigit : ∀ i : Fin 16,
          "0123456789ABCDEF".toList[i.val]? = some (Json.hexDigit i.val).toUpper := by decide
      have hlt : n / 16 < Nat.pow 16 count := by
        have : n < Nat.pow 16 count * 16 := h
        omega
      have hlast : IsDigitOf (Json.hexDigit (n % 16)).toUpper (n % 16) :=
        .inr (hdigit ⟨n % 16, by omega⟩)
      have hnumeral := (ih hlt).snoc hlast
      rwa [show 16 * (n / 16) + n % 16 = n by omega] at hnumeral

/-- Numbers of the same number of digits can be told apart. -/
theorem hexDigits_cancel {count m n : Nat} {t t' : List Char} (hcount : 0 < count)
    (hm : m < Nat.pow 16 count) (hn : n < Nat.pow 16 count)
    (heq : hexDigits count m ++ t = hexDigits count n ++ t') : m = n ∧ t = t' := by
  obtain ⟨hdigits, rfl⟩ :=
    List.append_inj heq ((length_hexDigits count m).trans (length_hexDigits count n).symm)
  have hne : hexDigits count m ≠ [] := by
    have := length_hexDigits count m
    rintro hnil
    rw [hnil] at this
    simp at this
    omega
  have hsame := numeral_hexDigits hn
  rw [← hdigits] at hsame
  exact ⟨Json.numeral_unique (numeral_hexDigits hm) hsame hne, rfl⟩

/-- The character that a letter behind a backslash stands for by itself. -/
def letter? : Char → Option Char
  | '0' => some '\x00'
  | 'a' => some '\x07'
  | 'b' => some '\x08'
  | 't' => some '\t'
  | 'n' => some '\n'
  | 'v' => some '\x0b'
  | 'f' => some '\x0c'
  | 'r' => some '\r'
  | 'e' => some '\x1b'
  | '"' => some '"'
  | '\\' => some '\\'
  | 'N' => some '\u0085'
  | 'L' => some '\u2028'
  | 'P' => some '\u2029'
  | _ => none

/-- The marks of the escapes by number, each with the number of its digits. -/
def marks : List (Char × Nat) := [('x', 2), ('u', 4), ('U', 8)]

/-- An escape is a letter that stands for the character, or a mark with the number of the
character. -/
theorem escapeCode_cases (c : Char) :
    (∃ e, escapeCode c = [e] ∧ letter? e = some c) ∨
      ∃ m ∈ marks, escapeCode c = m.1 :: hexDigits m.2 c.toNat ∧ c.toNat < Nat.pow 16 m.2 := by
  have hlt : c.toNat < 0x110000 := by
    have : c.toNat < 0xd800 ∨ 0xdfff < c.toNat ∧ c.toNat < 0x110000 := c.valid
    omega
  unfold escapeCode
  split
  case h_15 =>
    refine .inr ?_
    split
    · exact ⟨('x', 2), by decide, rfl, by simp; omega⟩
    · split
      · exact ⟨('u', 4), by decide, rfl, by simp; omega⟩
      · exact ⟨('U', 8), by decide, rfl, by simp; omega⟩
  all_goals exact .inl ⟨_, rfl, rfl⟩

/-- No escape is the beginning of another one. -/
theorem escapeCode_cancel {c c' : Char} {t t' : List Char}
    (heq : escapeCode c ++ t = escapeCode c' ++ t') : c = c' ∧ t = t' := by
  have hmarks : ∀ m ∈ marks, letter? m.1 = none ∧ 0 < m.2 := by decide
  have hdistinct : ∀ m ∈ marks, ∀ m' ∈ marks, m.1 = m'.1 → m = m' := by decide
  rcases escapeCode_cases c with ⟨e, he, hletter⟩ | ⟨m, hm, he, hlt⟩ <;>
    rcases escapeCode_cases c' with ⟨e', he', hletter'⟩ | ⟨m', hm', he', hlt'⟩ <;>
    rw [he, he'] at heq <;> obtain ⟨hfirst, hrest⟩ := List.cons.inj heq
  case inl.inl =>
    rw [hfirst, hletter'] at hletter
    exact ⟨(Option.some.inj hletter).symm, hrest⟩
  case inl.inr =>
    rw [hfirst, (hmarks m' hm').1] at hletter
    cases hletter
  case inr.inl =>
    rw [← hfirst, (hmarks m hm).1] at hletter'
    cases hletter'
  case inr.inr =>
    obtain rfl := hdistinct m hm m' hm' hfirst
    obtain ⟨hcode, rfl⟩ := hexDigits_cancel (hmarks m hm).2 hlt hlt' hrest
    exact ⟨Char.toNat_inj.mp hcode, rfl⟩

/-- A character between double quotes stands for itself, or behind a backslash for the one
that its escape means. -/
theorem doubleQuotedChar_cases (c : Char) :
    (doubleQuotedChar c = [c] ∧ c ≠ '"' ∧ c ≠ '\\') ∨
      doubleQuotedChar c = '\\' :: escapeCode c := by
  rw [doubleQuotedChar]
  split
  · exact .inr rfl
  · next h =>
      simp only [Bool.or_eq_true, decide_eq_true_eq, not_or] at h
      exact .inl ⟨rfl, h.1.2, h.2⟩

/-- Between double quotes texts can be told apart, whatever follows the closing
quote. -/
theorem doubleQuoted_cancel {s s' r r' : List Char}
    (heq : s.flatMap doubleQuotedChar ++ '"' :: r = s'.flatMap doubleQuotedChar ++ '"' :: r') :
    s = s' ∧ r = r' := by
  have hquote : ∀ (c : Char) (t u : List Char), doubleQuotedChar c ++ t ≠ '"' :: u := by
    intro c t u heq
    rcases doubleQuotedChar_cases c with ⟨hc, hquote, -⟩ | hc <;> rw [hc] at heq
    · exact hquote (List.cons.inj heq).1
    · exact absurd (List.cons.inj heq).1 (by decide)
  induction s generalizing s' with
  | nil =>
      cases s' with
      | nil => exact ⟨rfl, (List.cons.inj heq).2⟩
      | cons c' s' =>
          rw [List.flatMap_cons, List.append_assoc] at heq
          exact absurd heq.symm (hquote c' _ _)
  | cons c s ih =>
      cases s' with
      | nil =>
          rw [List.flatMap_cons, List.append_assoc] at heq
          exact absurd heq (hquote c _ _)
      | cons c' s' =>
          rw [List.flatMap_cons, List.flatMap_cons, List.append_assoc, List.append_assoc] at heq
          have hfirst : c = c' ∧ s.flatMap doubleQuotedChar ++ '"' :: r =
              s'.flatMap doubleQuotedChar ++ '"' :: r' := by
            rcases doubleQuotedChar_cases c with ⟨hc, -, hback⟩ | hc <;>
              rcases doubleQuotedChar_cases c' with ⟨hc', -, hback'⟩ | hc' <;>
              rw [hc, hc'] at heq <;> obtain ⟨hhead, hrest⟩ := List.cons.inj heq
            · exact ⟨hhead, hrest⟩
            · exact absurd hhead hback
            · exact absurd hhead.symm hback'
            · exact escapeCode_cancel hrest
          obtain ⟨rfl, hrest⟩ := hfirst
          obtain ⟨rfl, rfl⟩ := ih hrest
          exact ⟨rfl, rfl⟩

/-! ## Literal blocks -/

/-- Whether the last character of a text that follows a line end, or does not, is a line
end. -/
def endsBroken : (afterBreak : Bool) → List Char → Bool
  | afterBreak, [] => afterBreak
  | _, c :: rest => endsBroken (isBreak c) rest

theorem endsBroken_cons (afterBreak : Bool) (c : Char) (s : List Char) :
    endsBroken afterBreak (c :: s) = (c :: s).getLast?.any isBreak := by
  induction s generalizing afterBreak c with
  | nil => rfl
  | cons d s ih => rw [endsBroken, ih, List.getLast?_cons_cons]

/-- What closes the last line of a literal block. -/
def lastBreak (broken : Bool) : List Char := if broken then [] else ['\n']

theorem literalBody_break {c : Char} (hc : isBreak c = true) (margin : Nat) (afterBreak : Bool)
    (s : List Char) :
    literalBody margin afterBreak (c :: s) = c :: literalBody margin true s := by
  rw [literalBody, if_pos hc]

theorem literalBody_plain {c : Char} (hc : isBreak c = false) (margin : Nat) (afterBreak : Bool)
    (s : List Char) :
    literalBody margin afterBreak (c :: s) =
      indent margin afterBreak ++ c :: literalBody margin false s := by
  rw [literalBody, if_neg (by simp [hc])]
  rfl

/-- A line further out is no line of a literal block. -/
theorem Outdented.ne_literalBody {margin : Nat} (hpos : 0 < margin) {r t : List Char}
    (hr : Outdented margin r) (c : Char) (s : List Char) :
    r ≠ literalBody margin true (c :: s) ++ t := by
  intro heq
  cases hc : isBreak c with
  | true =>
      rw [literalBody_break hc, List.cons_append] at heq
      rw [heq] at hr
      rw [hr.not_break] at hc
      cases hc
  | false =>
      rw [literalBody_plain hc, List.append_assoc] at heq
      exact hr.ne_moved hpos heq

/-- A literal block that has ended can be told from one that has not but ends alike, in
front of lines further out. -/
theorem literalBody_nil_cancel {margin : Nat} (hpos : 0 < margin) {afterBreak : Bool}
    {s r r' : List Char} (hr : Outdented margin r)
    (hends : endsBroken afterBreak [] = endsBroken afterBreak s)
    (heq : lastBreak (endsBroken afterBreak []) ++ r =
      literalBody margin afterBreak s ++ (lastBreak (endsBroken afterBreak s) ++ r')) :
    [] = s ∧ r = r' := by
  rw [← hends] at heq
  cases s with
  | nil => exact ⟨rfl, List.append_cancel_left heq⟩
  | cons c s =>
      cases afterBreak with
      | true => exact absurd heq (hr.ne_literalBody hpos c s)
      | false =>
          cases hc : isBreak c with
          | false =>
              rw [literalBody_plain hc] at heq
              rw [← (List.cons.inj heq).1] at hc
              exact absurd hc (by decide)
          | true =>
              rw [literalBody_break hc] at heq
              rw [endsBroken, endsBroken, hc] at hends
              cases s with
              | nil => cases hends
              | cons d s => exact absurd (List.cons.inj heq).2 (hr.ne_literalBody hpos d s)

/-- The lines of a literal block can be told from those of another one that ends alike,
in front of lines further out. -/
theorem literalBody_cancel {margin : Nat} (hpos : 0 < margin) {afterBreak : Bool}
    {s s' r r' : List Char} (hr : Outdented margin r) (hr' : Outdented margin r')
    (hends : endsBroken afterBreak s = endsBroken afterBreak s')
    (heq : literalBody margin afterBreak s ++ (lastBreak (endsBroken afterBreak s) ++ r) =
      literalBody margin afterBreak s' ++ (lastBreak (endsBroken afterBreak s') ++ r')) :
    s = s' ∧ r = r' := by
  induction s generalizing s' afterBreak with
  | nil => exact literalBody_nil_cancel hpos hr hends heq
  | cons c s ih =>
      cases s' with
      | nil =>
          obtain ⟨hnil, hrest⟩ := literalBody_nil_cancel hpos hr' hends.symm heq.symm
          exact ⟨hnil.symm, hrest.symm⟩
      | cons c' s' =>
          cases hc : isBreak c <;> cases hc' : isBreak c'
          case false.false =>
            rw [literalBody_plain hc, literalBody_plain hc', List.append_assoc,
              List.append_assoc] at heq
            rw [endsBroken, endsBroken, hc, hc'] at hends heq
            obtain ⟨rfl, hrest⟩ := List.cons.inj (List.append_cancel_left heq)
            obtain ⟨rfl, rfl⟩ := ih hends hrest
            exact ⟨rfl, rfl⟩
          case false.true =>
            rw [literalBody_plain hc, literalBody_break hc', List.append_assoc] at heq
            exact absurd heq.symm (ne_indent hpos hc' hc)
          case true.false =>
            rw [literalBody_break hc, literalBody_plain hc', List.append_assoc] at heq
            exact absurd heq (ne_indent hpos hc hc')
          case true.true =>
            rw [literalBody_break hc, literalBody_break hc'] at heq
            rw [endsBroken, endsBroken, hc, hc'] at hends heq
            obtain ⟨rfl, hrest⟩ := List.cons.inj heq
            obtain ⟨rfl, rfl⟩ := ih hends hrest
            exact ⟨rfl, rfl⟩

/-! ## The whole text -/

/-- The line above a literal block says whether its text ends with a line end. -/
theorem literalHeader_eq (s : List Char) :
    ∃ start ending, literalHeader s = '|' :: start ++ ending ++ ['\n'] ∧
      (start = [] ∨ start = ['2']) ∧ (ending = ['-'] ∨ ending = ['+'] ∨ ending = []) ∧
      (ending = ['-'] ↔ s.getLast?.any isBreak = false) := by
  refine ⟨_, _, rfl, ?_, ?_⟩
  · split <;> simp
  · rw [List.getLast?_eq_head?_reverse]
    match s.reverse with
    | [] => simp
    | [c] => cases hc : isBreak c <;> simp [hc]
    | c :: d :: _ => cases hc : isBreak c <;> cases hd : isBreak d <;> simp [hc, hd]

/-- The line above a literal block ends, and blocks below the same line end alike. -/
theorem literalHeader_cancel {s s' t t' : List Char}
    (heq : literalHeader s ++ t = literalHeader s' ++ t') :
    s.getLast?.any isBreak = s'.getLast?.any isBreak ∧ t = t' := by
  obtain ⟨start, ending, hs, hstart, hending, hiff⟩ := literalHeader_eq s
  obtain ⟨start', ending', hs', hstart', hending', hiff'⟩ := literalHeader_eq s'
  rw [hs, hs'] at heq
  have hsame : ending = ending' ∧ t = t' := by
    rcases hstart with rfl | rfl <;> rcases hstart' with rfl | rfl <;>
      rcases hending with rfl | rfl | rfl <;> rcases hending' with rfl | rfl | rfl <;>
      simp_all
  refine ⟨?_, hsame.2⟩
  rw [hsame.1, hiff'] at hiff
  exact Bool.eq_iff_iff.mpr (by simpa using (not_congr hiff).symm)

/-- A bare text has one line, which begins with no mark. -/
theorem bare_of_style {text : String} (h : style text = .bare) :
    text.toList.any isBreak = false ∧ ∃ c t, text.toList = c :: t ∧ isIndicator c = false := by
  have hbare : (!isReserved text && allowsBare text.toList) = true := by
    simp only [style] at h
    split at h
    · split at h <;> cases h
    · split at h
      · assumption
      · split at h <;> cases h
  simp only [allowsBare, Bool.and_eq_true, Bool.not_eq_true', Bool.or_eq_false_iff] at hbare
  obtain ⟨hreserved, ⟨⟨-, hbreak⟩, hstart⟩, -⟩ := hbare
  refine ⟨hbreak, ?_⟩
  cases htext : text.toList with
  | nil =>
      obtain rfl : text = "" := String.toList_inj.mp htext
      cases hreserved
  | cons c t =>
      refine ⟨c, t, rfl, ?_⟩
      rw [htext] at hstart
      unfold startsSpecially at hstart
      split at hstart
      case h_3 hcons =>
        obtain ⟨rfl, rfl⟩ := List.cons.inj hcons
        exact (Bool.or_eq_false_iff.mp hstart).1
      case h_4 hnil => cases hnil
      all_goals cases hstart

/-- A text is written as a literal block only if it has a line end. -/
theorem exists_cons_of_style {text : String} (h : style text = .literal) :
    ∃ c t, text.toList = c :: t := by
  simp only [style] at h
  split at h
  · next hmem => exact List.exists_cons_of_ne_nil (List.ne_nil_of_mem hmem)
  · split at h
    · cases h
    · split at h <;> cases h

/-- The first character of a written text says in which style it is written. -/
def styleFrom : Char → Style
  | '\'' => .singleQuoted
  | '"' => .doubleQuoted
  | '|' => .literal
  | _ => .bare

/-- A text is written behind the character that says in which style. -/
theorem exists_scalar (margin : Nat) (text : String) :
    ∃ c t, scalar margin text = c :: t ∧ styleFrom c = style text := by
  rw [scalar]
  cases hstyle : style text with
  | singleQuoted | doubleQuoted | literal => exact ⟨_, _, rfl, rfl⟩
  | bare =>
      obtain ⟨-, c, t, htext, hc⟩ := bare_of_style hstyle
      refine ⟨c, t ++ ['\n'], by simp [htext], ?_⟩
      unfold styleFrom
      split
      case h_4 => rfl
      all_goals cases hc

/-- **A text can be told from any other one**, in front of lines further out. -/
theorem scalar_cancel {margin : Nat} (hpos : 0 < margin) {text text' : String}
    {r r' : List Char} (hr : Outdented margin r) (hr' : Outdented margin r')
    (heq : scalar margin text ++ r = scalar margin text' ++ r') : text = text' ∧ r = r' := by
  have hstyle : style text = style text' := by
    obtain ⟨c, t, hscalar, hstyle⟩ := exists_scalar margin text
    obtain ⟨c', t', hscalar', hstyle'⟩ := exists_scalar margin text'
    rw [hscalar, hscalar'] at heq
    rw [← hstyle, ← hstyle', (List.cons.inj heq).1]
  suffices text.toList = text'.toList ∧ r = r' from ⟨String.toList_inj.mp this.1, this.2⟩
  simp only [scalar, ← hstyle] at heq
  cases hs : style text with
  | bare =>
      rw [hs] at heq
      simp only [List.append_assoc, List.singleton_append] at heq
      exact line_cancel (bare_of_style hs).1 (bare_of_style (hstyle ▸ hs)).1 heq
  | singleQuoted =>
      rw [hs] at heq
      simp only [List.cons_append, List.append_assoc, List.nil_append] at heq
      exact singleQuotedBody_cancel hpos (List.cons.inj heq).2
  | doubleQuoted =>
      rw [hs] at heq
      simp only [List.cons_append, List.append_assoc, List.nil_append] at heq
      obtain ⟨htext, hrest⟩ := doubleQuoted_cancel (List.cons.inj heq).2
      exact ⟨htext, (List.cons.inj hrest).2⟩
  | literal =>
      rw [hs] at heq
      simp only [List.append_assoc] at heq
      obtain ⟨hends, hbody⟩ := literalHeader_cancel heq
      obtain ⟨c, t, htext⟩ := exists_cons_of_style hs
      obtain ⟨c', t', htext'⟩ := exists_cons_of_style (hstyle ▸ hs)
      rw [htext, htext', ← endsBroken_cons true, ← endsBroken_cons true] at hends
      rw [htext, htext', ← endsBroken_cons true, ← endsBroken_cons true] at hbody
      rw [htext, htext']
      exact literalBody_cancel hpos hr hr' hends hbody

end CommandSchema.Yaml
