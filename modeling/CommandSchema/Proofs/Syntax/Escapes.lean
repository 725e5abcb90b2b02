import CommandSchema.Syntax.StringLiteral

/-!
# CommandSchema.Proofs.Syntax.Escapes

The escapes of string literals.

`Escape` lists the ways to write a character with a backslash, each with the
condition under which it is one: a letter that names the character, its code in
two digits, in four digits or in braces, or the character itself.  A line break
behind a backslash writes nothing.  Each is read back by itself
(`Escape.decodeBody_body`), and ends where it is meant to end unless it takes
along the character behind it (`Escape.takes`, `Escape.escapeLength?_body`).
-/

namespace CommandSchema.Syntax.StringLiteral

/-! ## Numbers of base sixteen -/

/-- A digit of base sixteen, in lower or in upper case. -/
def IsDigitOf (c : Char) (d : Nat) : Prop :=
  "0123456789abcdef".toList[d]? = some c ∨ "0123456789ABCDEF".toList[d]? = some c

/-- A numeral of base sixteen, with any number of zeros in front. -/
inductive Numeral : List Char → Nat → Prop
  | nil : Numeral [] 0
  | snoc {digits : List Char} {n d : Nat} {c : Char} (front : Numeral digits n)
      (last : IsDigitOf c d) : Numeral (digits ++ [c]) (16 * n + d)

/-- A digit is read as its value. -/
theorem hexDigit?_of_isDigitOf {c : Char} {d : Nat} (h : IsDigitOf c d) : hexDigit? c = some d := by
  have hlower : ∀ i : Fin "0123456789abcdef".toList.length,
      hexDigit? ("0123456789abcdef".toList.get i) = some i.val := by
    decide
  have hupper : ∀ i : Fin "0123456789ABCDEF".toList.length,
      hexDigit? ("0123456789ABCDEF".toList.get i) = some i.val := by
    decide
  rcases h with h | h
  · obtain ⟨hd, rfl⟩ := List.getElem?_eq_some_iff.mp h
    exact hlower ⟨d, hd⟩
  · obtain ⟨hd, rfl⟩ := List.getElem?_eq_some_iff.mp h
    exact hupper ⟨d, hd⟩

/-- A numeral holds digits only. -/
theorem Numeral.isHexDigit {digits : List Char} {n : Nat} (h : Numeral digits n) :
    ∀ c ∈ digits, isHexDigit c = true := by
  induction h with
  | nil => simp
  | snoc _ last ih =>
      intro c hc
      rcases List.mem_append.mp hc with hc | hc
      · exact ih c hc
      · rw [List.mem_singleton.mp hc, StringLiteral.isHexDigit, hexDigit?_of_isDigitOf last]
        rfl

theorem Numeral.not_mem {digits : List Char} {n : Nat} {c : Char} (h : Numeral digits n)
    (hc : StringLiteral.isHexDigit c = false) : c ∉ digits := by
  intro hmem
  rw [h.isHexDigit c hmem] at hc
  cases hc

/-- A numeral is read as its number. -/
theorem Numeral.hexNumber? {digits : List Char} {n : Nat} (h : Numeral digits n)
    (hdigits : digits ≠ []) : hexNumber? digits = some n := by
  have hfold : digits.foldlM (fun n c => (hexDigit? c).map (16 * n + ·)) 0 = some n := by
    clear hdigits
    induction h with
    | nil => rfl
    | snoc _ last ih =>
        rw [List.foldlM_append, ih]
        simp [hexDigit?_of_isDigitOf last]
  rw [StringLiteral.hexNumber?, if_neg hdigits, hfold]

theorem charOfCode?_toNat (c : Char) : charOfCode? c.toNat = some c := by
  have hvalid : c.toNat.isValidChar := c.valid
  rw [charOfCode?, dif_pos hvalid]
  rfl

/-! ## Codes of four digits -/

/-- A code of four digits stands for its character, and for its own text when it
is the code of none. -/
theorem decodeBody_unit {digits : List Char} {n : Nat} (four : digits.length = 4)
    (code : Numeral digits n) : decodeBody ('u' :: digits) =
      (charOfCode? n).elim ('u' :: digits) fun c => [c] := by
  have hdigits : digits ≠ [] := by
    rintro rfl
    cases four
  have hnumber := code.hexNumber? hdigits
  obtain ⟨d, digits, rfl⟩ := List.exists_cons_of_ne_nil hdigits
  have hd : d ≠ '\x7b' := by
    rintro rfl
    exact code.not_mem rfl List.mem_cons_self
  cases hchar : charOfCode? n <;> simp [decodeBody, hd, hnumber, hchar]

/-- A code of four digits ends behind them. -/
theorem escapeLength?_unit {digits : List Char} {n : Nat} (four : digits.length = 4)
    (code : Numeral digits n) (s : List Char) :
    escapeLength? (('u' :: digits) ++ s) = some ('u' :: digits).length := by
  have hdigits : digits.all isHexDigit = true := List.all_eq_true.mpr code.isHexDigit
  have htake : (digits ++ s).take 4 = digits := by rw [← four, List.take_left]
  have hbrace : ∀ rest, digits ++ s = '\x7b' :: rest → False := by
    intro rest h
    cases digits with
    | nil => cases four
    | cons d digits =>
        cases h
        exact code.not_mem rfl List.mem_cons_self
  rw [List.cons_append, escapeLength?.eq_4 _ hbrace, htake, if_pos ⟨four, hdigits⟩,
    List.length_cons, four]

/-! ## Escapes -/

/-- The letters that name a character, with the character. -/
def letters : List (Char × Char) :=
  [('n', '\n'), ('t', '\t'), ('r', '\r'), ('b', '\x08'), ('f', '\x0c'), ('v', '\x0b'),
    ('0', '\x00')]

/-- The line breaks that continue a literal on the next line. -/
inductive LineBreak where
  | lf
  | cr
  | crlf
deriving DecidableEq

/-- The text of a line break. -/
def LineBreak.text : LineBreak → List Char
  | .lf => ['\n']
  | .cr => ['\r']
  | .crlf => ['\r', '\n']

/-- A character that a backslash leaves as it is. -/
def IsMaskable (c : Char) : Prop :=
  ¬ ('0' ≤ c ∧ c ≤ '7') ∧ c ∉ ['\n', '\r', '\u2028', '\u2029'] ∧
    c ∉ ['b', 'f', 'n', 'r', 't', 'u', 'v', 'x']

/-- An escape, with the proof that it is one. -/
inductive Escape where
  /-- A letter that names the character. -/
  | letter (l c : Char) (names : (l, c) ∈ letters)
  /-- The code in two digits. -/
  | byte (c : Char) (digits : List Char) (two : digits.length = 2) (code : Numeral digits c.toNat)
  /-- The code in four digits. -/
  | unit (c : Char) (digits : List Char) (four : digits.length = 4) (code : Numeral digits c.toNat)
  /-- The code in braces. -/
  | codePoint (c : Char) (digits : List Char) (some : digits ≠ []) (code : Numeral digits c.toNat)
  /-- The character itself. -/
  | masked (c : Char) (plain : IsMaskable c)
  /-- A line break, which stands for nothing. -/
  | continuation (mark : LineBreak)

namespace Escape

/-- The text of an escape after the backslash. -/
def body : Escape → List Char
  | letter l _ _ => [l]
  | byte _ digits _ _ => 'x' :: digits
  | unit _ digits _ _ => 'u' :: digits
  | codePoint _ digits _ _ => 'u' :: '\x7b' :: digits ++ ['\x7d']
  | masked c _ => [c]
  | continuation mark => mark.text

/-- What an escape spells. -/
def value : Escape → List Char
  | letter _ c _ | byte c _ _ _ | unit c _ _ _ | codePoint c _ _ _ | masked c _ => [c]
  | continuation _ => []

/-- Whether a character right behind an escape is read as part of it. -/
def takes (e : Escape) (c : Char) : Bool :=
  if e.body = ['0'] then isOctalDigit c
  else (e.body = ['\r'] ∨ e.body = ['?']) && isLineEnd c

/-- An escape stands for what it spells. -/
theorem decodeBody_body (e : Escape) : decodeBody e.body = e.value := by
  cases e with
  | letter l c names =>
      simp only [letters, List.mem_cons, Prod.mk.injEq, List.not_mem_nil, or_false] at names
      rcases names with ⟨rfl, rfl⟩ | ⟨rfl, rfl⟩ | ⟨rfl, rfl⟩ | ⟨rfl, rfl⟩ | ⟨rfl, rfl⟩ |
        ⟨rfl, rfl⟩ | ⟨rfl, rfl⟩ <;> rfl
  | byte c digits two code =>
      have hnumber := code.hexNumber? (by rintro rfl; simp at two)
      simp [body, value, decodeBody, hnumber, charOfCode?_toNat]
  | unit c digits four code =>
      rw [body, value, decodeBody_unit four code, charOfCode?_toNat]
      rfl
  | codePoint c digits some code =>
      have hclose : ∀ d ∈ digits, decide (d ≠ '\x7d') = true := fun d hd =>
        decide_eq_true fun h => code.not_mem rfl (h ▸ hd)
      have htake : (digits ++ ['\x7d']).takeWhile (· ≠ '\x7d') = digits := by
        rw [List.takeWhile_append_of_pos hclose]
        simp
      have hnumber := code.hexNumber? some
      simp only [body, value, decodeBody, List.cons_append, htake, hnumber, Option.bind_some,
        charOfCode?_toNat]
  | masked c plain =>
      obtain ⟨hoctal, hbreak, hletter⟩ := plain
      simp only [body, value, decodeBody]
      split <;> simp_all
  | continuation mark => cases mark <;> rfl

/-- A character that starts no longer escape is an escape of its own. -/
theorem escapeLength?_single {c : Char} {s : List Char} (hx : c ≠ 'x') (hu : c ≠ 'u')
    (hoctal : isOctalDigit c = false)
    (hend : c = '\r' ∨ c = '?' → s.head?.any isLineEnd = false) :
    escapeLength? (c :: s) = some 1 := by
  rw [escapeLength?.eq_5 _ _ (fun h => hx h) (fun _ h _ => hu h) (fun h => hu h),
    if_neg (by simp [hoctal]), if_neg]
  rintro ⟨hc, hs⟩
  rw [hend hc] at hs
  cases hs

/-- An escape ends where it is meant to end. -/
theorem escapeLength?_body {e : Escape} {s : List Char}
    (h : ∀ c ∈ s.head?, e.takes c = false) :
    escapeLength? (e.body ++ s) = some e.body.length := by
  cases e with
  | letter l c names =>
      simp only [letters, List.mem_cons, Prod.mk.injEq, List.not_mem_nil, or_false] at names
      rcases names with ⟨rfl, rfl⟩ | ⟨rfl, rfl⟩ | ⟨rfl, rfl⟩ | ⟨rfl, rfl⟩ | ⟨rfl, rfl⟩ |
        ⟨rfl, rfl⟩ | ⟨rfl, rfl⟩
      -- only the escape of the null character depends on what follows it
      case inr.inr.inr.inr.inr.inr =>
        have hdigits : (s.take 2).takeWhile isOctalDigit = [] := by
          cases s with
          | nil => rfl
          | cons d s => exact List.takeWhile_cons_of_neg (by simpa [takes, body] using h d rfl)
        simp [body, escapeLength?, isOctalDigit, hdigits]
      all_goals exact escapeLength?_single (by decide) (by decide) rfl (by simp)
  | byte c digits two code =>
      have hdigits : digits.all isHexDigit = true := List.all_eq_true.mpr code.isHexDigit
      have htake : (digits ++ s).take 2 = digits := by rw [← two, List.take_left]
      rw [body, List.cons_append, escapeLength?, htake, if_pos ⟨two, hdigits⟩, List.length_cons,
        two]
  | unit c digits four code => exact escapeLength?_unit four code s
  | codePoint c digits some code =>
      have htake : (digits ++ '\x7d' :: s).takeWhile isHexDigit = digits := by
        rw [List.takeWhile_append_of_pos code.isHexDigit]
        simp [isHexDigit, hexDigit?]
      simp [body, escapeLength?, htake, some]
  | masked c plain =>
      obtain ⟨hoctal, _, hletter⟩ := plain
      refine escapeLength?_single (by rintro rfl; simp at hletter) (by rintro rfl; simp at hletter)
        (by simpa [isOctalDigit] using hoctal) fun hc => ?_
      have hzero : c ≠ '0' := by
        rintro rfl
        exact absurd hc (by decide)
      cases s with
      | nil => rfl
      | cons d s => simpa [takes, body, hzero, hc] using h d rfl
  | continuation mark =>
      cases mark with
      | lf => exact escapeLength?_single (by decide) (by decide) rfl (by simp)
      | cr =>
        refine escapeLength?_single (by decide) (by decide) rfl fun _ => ?_
        cases s with
        | nil => rfl
        | cons d s => simpa [takes, body, LineBreak.text] using h d rfl
      | crlf => rfl

end Escape

end CommandSchema.Syntax.StringLiteral
