import CommandSchema.Json.Value
import CommandSchema.Proofs.CodeUnits

/-!
# CommandSchema.Proofs.Json.Grammar

The grammar of JSON, and what a document says.

`Derives` is the grammar as a relation between a text, what its front says and
the rest behind it.  Blanks may stand in front of every token and behind the
value of a document; the characters of a text stand for themselves or are
escaped, by a letter or by their code units; and a number ends where nothing
follows that could belong to it.  Nothing is said of how a text is read, and
there is no need to: a text derives one value at most (`Document.unique`), so
whatever reads documents by the grammar reads that value.
-/

namespace CommandSchema.Json

open Syntax.StringLiteral (Numeral WritesUnit codeUnits unitsText)

/-! ## Blanks -/

/-- The characters that may stand between tokens. -/
def isBlank (c : Char) : Bool := c = ' ' || c = '\t' || c = '\n' || c = '\r'

/-- Nothing but blanks stands in front of a rest. -/
inductive Blank : List Char → List Char → Prop
  | nil {r : List Char} : Blank r r
  | cons {c : Char} {t r : List Char} (blank : isBlank c = true) (rest : Blank t r) :
      Blank (c :: t) r

/-! ## The characters of a text -/

/-- The character that a letter behind a backslash stands for. -/
def shortEscape? : Char → Option Char
  | '"' => some '"'
  | '\\' => some '\\'
  | '/' => some '/'
  | 'b' => some '\x08'
  | 'f' => some '\x0c'
  | 'n' => some '\n'
  | 'r' => some '\r'
  | 't' => some '\t'
  | _ => none

/-- The characters up to the closing quote, and the rest behind it. -/
inductive Body : List Char → List Char → List Char → Prop
  | close {r : List Char} : Body ('"' :: r) [] r
  | plain {c : Char} {t s r : List Char} (quote : c ≠ '"') (backslash : c ≠ '\\')
      (control : ' ' ≤ c) (rest : Body t s r) : Body (c :: t) (c :: s) r
  | short {e c : Char} {t s r : List Char} (escaped : shortEscape? e = some c)
      (rest : Body t s r) : Body ('\\' :: e :: t) (c :: s) r
  | code {c : Char} {digits : List (List Char)} {t s r : List Char}
      (units : List.Forall₂ WritesUnit digits (codeUnits c)) (rest : Body t s r) :
      Body (unitsText digits ++ t) (c :: s) r

/-! ## Numbers -/

/-- The characters that numbers consist of. -/
def isNumberChar (c : Char) : Bool := c.isDigit || "+-.eE".toList.contains c

/-- One digit or more. -/
def Digits (cs : List Char) : Prop := cs ≠ [] ∧ ∀ c ∈ cs, c.isDigit = true

/-- A number: an integer without zeros in front, and perhaps a fraction and an
exponent. -/
structure Number (cs sign integer fraction exponent : List Char) : Prop where
  parts : cs = sign ++ integer ++ fraction ++ exponent
  sign : sign = [] ∨ sign = ['-']
  integer : integer = ['0'] ∨ Digits integer ∧ integer.head? ≠ some '0'
  fraction : fraction = [] ∨ ∃ digits, fraction = '.' :: digits ∧ Digits digits
  exponent : exponent = [] ∨ ∃ e sign digits, exponent = e :: sign ++ digits ∧
    (e = 'e' ∨ e = 'E') ∧ (sign = [] ∨ sign = ['+'] ∨ sign = ['-']) ∧ Digits digits

/-! ## Values -/

/-- What the front of a text says: a value; a value with blanks in front; the items of
an array that follow the first one, with the closing bracket; a field; or the fields
that follow the first one, with the closing brace. -/
inductive Phrase where
  | value (v : Json)
  | element (v : Json)
  | items (vs : List Json)
  | field (f : String × Json)
  | fields (fs : List (String × Json))

/-- The grammar: the front of a text says something, and leaves a rest. -/
inductive Derives : List Char → Phrase → List Char → Prop
  | null {r : List Char} : Derives ('n' :: 'u' :: 'l' :: 'l' :: r) (.value .null) r
  | true {r : List Char} : Derives ('t' :: 'r' :: 'u' :: 'e' :: r) (.value (.bool true)) r
  | false {r : List Char} :
      Derives ('f' :: 'a' :: 'l' :: 's' :: 'e' :: r) (.value (.bool false)) r
  | number {t cs sign integer fraction exponent r : List Char}
      (number : Number cs sign integer fraction exponent) (front : t = cs ++ r)
      (ends : ∀ c ∈ r.head?, isNumberChar c = false) :
      Derives t (.value (.number (String.ofList cs))) r
  | string {t s r : List Char} (body : Body t s r) :
      Derives ('"' :: t) (.value (.string (String.ofList s))) r
  | noItems {t r : List Char} (close : Blank t (']' :: r)) :
      Derives ('[' :: t) (.value (.array [])) r
  | array {t u r : List Char} {v : Json} {vs : List Json} (first : Derives t (.element v) u)
      (rest : Derives u (.items vs) r) : Derives ('[' :: t) (.value (.array (v :: vs))) r
  | noFields {t r : List Char} (close : Blank t ('\x7d' :: r)) :
      Derives ('\x7b' :: t) (.value (.object [])) r
  | object {t u r : List Char} {f : String × Json} {fs : List (String × Json)}
      (first : Derives t (.field f) u) (rest : Derives u (.fields fs) r) :
      Derives ('\x7b' :: t) (.value (.object (f :: fs))) r
  | element {t u r : List Char} {v : Json} (blank : Blank t u)
      (value : Derives u (.value v) r) : Derives t (.element v) r
  | closeItems {t r : List Char} (close : Blank t (']' :: r)) : Derives t (.items []) r
  | nextItem {t u w r : List Char} {v : Json} {vs : List Json} (comma : Blank t (',' :: u))
      (next : Derives u (.element v) w) (rest : Derives w (.items vs) r) :
      Derives t (.items (v :: vs)) r
  | field {t u w x name r : List Char} {v : Json} (quote : Blank t ('"' :: u))
      (body : Body u name w) (colon : Blank w (':' :: x)) (value : Derives x (.element v) r) :
      Derives t (.field (String.ofList name, v)) r
  | closeFields {t r : List Char} (close : Blank t ('\x7d' :: r)) : Derives t (.fields []) r
  | nextField {t u w r : List Char} {f : String × Json} {fs : List (String × Json)}
      (comma : Blank t (',' :: u)) (next : Derives u (.field f) w)
      (rest : Derives w (.fields fs) r) : Derives t (.fields (f :: fs)) r

/-- A text is a document of a value: the value, with blanks around it. -/
def Document (text : List Char) (v : Json) : Prop :=
  ∃ rest, Derives text (.element v) rest ∧ Blank rest []

/-! ## Blanks end where they have to -/

/-- Behind blanks there is one rest that begins with no blank. -/
theorem Blank.unique {t r r' : List Char} (h : Blank t r) (h' : Blank t r')
    (hr : ∀ c ∈ r.head?, isBlank c = Bool.false) (hr' : ∀ c ∈ r'.head?, isBlank c = Bool.false) :
    r = r' := by
  induction h with
  | nil =>
      cases h' with
      | nil => rfl
      | cons blank => rw [hr _ rfl] at blank; cases blank
  | cons blank _ ih =>
      cases h' with
      | nil => rw [hr' _ rfl] at blank; cases blank
      | cons _ rest => exact ih rest hr

/-- A token behind blanks is the only one, and has one rest. -/
theorem Blank.token {t r r' : List Char} {c c' : Char} (h : Blank t (c :: r))
    (h' : Blank t (c' :: r')) (hc : isBlank c = Bool.false) (hc' : isBlank c' = Bool.false) :
    c = c' ∧ r = r' := by
  have hsame := h.unique h' (by simpa using hc) (by simpa using hc')
  exact ⟨(List.cons.inj hsame).1, (List.cons.inj hsame).2⟩

/-! ## Texts are read in one way -/

theorem numeral_unique {digits : List Char} {m n : Nat} (hm : Numeral digits m)
    (hn : Numeral digits n) (hdigits : digits ≠ []) : m = n :=
  Option.some.inj ((hm.hexNumber? hdigits).symm.trans (hn.hexNumber? hdigits))

theorem writesUnit_unique {ds ds' t t' : List Char} {m n : Nat} (h : WritesUnit ds m)
    (h' : WritesUnit ds' n) (heq : ds ++ t = ds' ++ t') : m = n ∧ t = t' := by
  obtain ⟨rfl, rfl⟩ := List.append_inj heq (h.1.trans h'.1.symm)
  exact ⟨numeral_unique h.2 h'.2 (by rintro rfl; cases h.1), rfl⟩

/-- A character has one code unit that is no surrogate, or a high surrogate and a low one
that say which character it is. -/
theorem codeUnits_cases (c : Char) :
    (codeUnits c = [c.toNat] ∧ ¬ (0xd800 ≤ c.toNat ∧ c.toNat < 0xe000)) ∨
      ∃ high low, codeUnits c = [high, low] ∧ 0xd800 ≤ high ∧ high < 0xdc00 ∧ 0xdc00 ≤ low ∧
        c.toNat = 0x10000 + (high - 0xd800) * 0x400 + (low - 0xdc00) := by
  have hvalid : c.toNat < 0xd800 ∨ 0xdfff < c.toNat ∧ c.toNat < 0x110000 := c.valid
  rw [codeUnits]
  split
  · exact .inl ⟨rfl, by omega⟩
  · exact .inr ⟨_, _, rfl, by omega, by omega, by omega, by omega⟩

/-- The code units of a character are those of no other, whatever follows them. -/
theorem codeUnits_unique {c c' : Char} {digits digits' : List (List Char)} {t t' : List Char}
    (h : List.Forall₂ WritesUnit digits (codeUnits c))
    (h' : List.Forall₂ WritesUnit digits' (codeUnits c'))
    (heq : unitsText digits ++ t = unitsText digits' ++ t') : c = c' ∧ t = t' := by
  have hfirst : ∀ {ds ds' : List Char} {more more' : List (List Char)} {m n : Nat},
      WritesUnit ds m → WritesUnit ds' n →
      unitsText (ds :: more) ++ t = unitsText (ds' :: more') ++ t' →
      m = n ∧ unitsText more ++ t = unitsText more' ++ t' := by
    intro ds ds' more more' m n hm hn heq
    exact writesUnit_unique hm hn (by simpa [unitsText] using heq)
  rcases codeUnits_cases c with ⟨hc, hplain⟩ | ⟨high, low, hc, hhigh, hlt, hlow, hcode⟩ <;>
    rcases codeUnits_cases c' with
      ⟨hc', hplain'⟩ | ⟨high', low', hc', hhigh', hlt', hlow', hcode'⟩ <;>
    rw [hc] at h <;> rw [hc'] at h' <;> obtain _ | ⟨hfst, hmore⟩ := h <;>
    obtain _ | ⟨hfst', hmore'⟩ := h' <;> obtain ⟨hunit, hrest⟩ := hfirst hfst hfst' heq
  case inl.inl =>
    cases hmore
    cases hmore'
    exact ⟨Char.toNat_inj.mp hunit, hrest⟩
  case inl.inr => omega
  case inr.inl => omega
  case inr.inr =>
    obtain _ | ⟨hsnd, hnone⟩ := hmore
    obtain _ | ⟨hsnd', hnone'⟩ := hmore'
    obtain ⟨hunit', hrest⟩ := hfirst hsnd hsnd' hrest
    cases hnone
    cases hnone'
    exact ⟨Char.toNat_inj.mp (by omega), hrest⟩

/-- The escape of code units begins like no other. -/
theorem exists_unitsText {c : Char} {digits : List (List Char)}
    (h : List.Forall₂ WritesUnit digits (codeUnits c)) (t : List Char) :
    ∃ u, unitsText digits ++ t = '\\' :: 'u' :: u := by
  rcases codeUnits_cases c with ⟨hc, -⟩ | ⟨high, low, hc, -⟩ <;> rw [hc] at h <;>
    obtain _ | ⟨-, -⟩ := h <;> exact ⟨_, rfl⟩

/-- No letter of the escapes of code units stands for a character by itself. -/
theorem ne_u_of_shortEscape? {e c : Char} (h : shortEscape? e = some c) : e ≠ 'u' := by
  rintro rfl
  cases h

/-- The characters up to a closing quote are read in one way. -/
theorem Body.unique {t s s' r r' : List Char} (h : Body t s r) (h' : Body t s' r') :
    s = s' ∧ r = r' := by
  generalize ht : t = t' at h'
  induction h generalizing t' s' with
  | close =>
      cases h' with
      | close => exact ⟨rfl, (List.cons.inj ht).2⟩
      | plain quote => exact absurd (List.cons.inj ht).1.symm quote
      | short => exact absurd (List.cons.inj ht).1 (by decide)
      | code units =>
          obtain ⟨u, hu⟩ := exists_unitsText units _
          exact absurd (List.cons.inj (ht.trans hu)).1 (by decide)
  | plain quote backslash _ _ ih =>
      cases h' with
      | close => exact absurd (List.cons.inj ht).1 quote
      | plain _ _ _ rest =>
          obtain ⟨rfl, rfl⟩ := ih _ (List.cons.inj ht).2 rest
          exact ⟨by rw [(List.cons.inj ht).1], rfl⟩
      | short => exact absurd (List.cons.inj ht).1 backslash
      | code units =>
          obtain ⟨u, hu⟩ := exists_unitsText units _
          exact absurd (List.cons.inj (ht.trans hu)).1 backslash
  | short escaped _ ih =>
      cases h' with
      | close => exact absurd (List.cons.inj ht).1 (by decide)
      | plain _ backslash => exact absurd (List.cons.inj ht).1.symm backslash
      | short escaped' rest =>
          obtain ⟨heq, ht⟩ := List.cons.inj (List.cons.inj ht).2
          obtain ⟨rfl, rfl⟩ := ih _ ht rest
          have hchar := Option.some.inj (escaped.symm.trans (heq ▸ escaped'))
          exact ⟨by rw [hchar], rfl⟩
      | code units =>
          obtain ⟨u, hu⟩ := exists_unitsText units _
          have heq := (List.cons.inj (List.cons.inj (ht.trans hu)).2).1
          exact absurd heq (ne_u_of_shortEscape? escaped)
  | @code c digits t _ _ units _ ih =>
      obtain ⟨u, hu⟩ := exists_unitsText units t
      cases h' with
      | close => exact absurd (List.cons.inj (hu.symm.trans ht)).1 (by decide)
      | plain _ backslash => exact absurd (List.cons.inj (hu.symm.trans ht)).1.symm backslash
      | short escaped =>
          have heq := (List.cons.inj (List.cons.inj (hu.symm.trans ht)).2).1
          exact absurd heq.symm (ne_u_of_shortEscape? escaped)
      | code units' rest =>
          obtain ⟨rfl, ht⟩ := codeUnits_unique units units' ht
          obtain ⟨rfl, rfl⟩ := ih _ ht rest
          exact ⟨rfl, rfl⟩

/-! ## Numbers end where they have to -/

theorem Digits.chars {cs : List Char} (h : Digits cs) : ∀ c ∈ cs, isNumberChar c = Bool.true := by
  intro c hc
  rw [isNumberChar, h.2 c hc, Bool.true_or]

/-- A number has a character, and all of them belong to numbers. -/
theorem Number.chars {cs sign integer fraction exponent : List Char}
    (h : Number cs sign integer fraction exponent) :
    cs ≠ [] ∧ ∀ c ∈ cs, isNumberChar c = Bool.true := by
  have hsign : ∀ c ∈ sign, isNumberChar c = Bool.true := by
    rcases h.sign with rfl | rfl <;> simp [isNumberChar]
  have hinteger : integer ≠ [] ∧ ∀ c ∈ integer, isNumberChar c = Bool.true := by
    rcases h.integer with rfl | ⟨digits, -⟩
    · simp [isNumberChar]
    · exact ⟨digits.1, digits.chars⟩
  have hfraction : ∀ c ∈ fraction, isNumberChar c = Bool.true := by
    rcases h.fraction with rfl | ⟨digits, rfl, hdigits⟩
    · simp
    · exact List.forall_mem_cons.mpr ⟨by simp [isNumberChar], hdigits.chars⟩
  have hexponent : ∀ c ∈ exponent, isNumberChar c = Bool.true := by
    rcases h.exponent with rfl | ⟨e, esign, digits, rfl, he, hesign, hdigits⟩
    · simp
    · have he : isNumberChar e = Bool.true := by
        rcases he with rfl | rfl <;> simp [isNumberChar]
      have hesign : ∀ c ∈ esign, isNumberChar c = Bool.true := by
        rcases hesign with rfl | rfl | rfl <;> simp [isNumberChar]
      exact List.forall_mem_append.mpr ⟨List.forall_mem_cons.mpr ⟨he, hesign⟩, hdigits.chars⟩
  rw [h.parts]
  refine ⟨by simp [hinteger.1], ?_⟩
  exact List.forall_mem_append.mpr ⟨List.forall_mem_append.mpr
    ⟨List.forall_mem_append.mpr ⟨hsign, hinteger.2⟩, hfraction⟩, hexponent⟩

/-- A number ends where the characters do that belong to numbers. -/
theorem number_unique {cs cs' r r' : List Char} (h : ∀ c ∈ cs, isNumberChar c = Bool.true)
    (h' : ∀ c ∈ cs', isNumberChar c = Bool.true) (hr : ∀ c ∈ r.head?, isNumberChar c = Bool.false)
    (hr' : ∀ c ∈ r'.head?, isNumberChar c = Bool.false) (heq : cs ++ r = cs' ++ r') :
    cs = cs' ∧ r = r' := by
  induction cs generalizing cs' with
  | nil =>
      cases cs' with
      | nil => exact ⟨rfl, heq⟩
      | cons c cs' =>
          have hc := hr c (by simp only [List.nil_append] at heq; simp [heq])
          rw [h' c (by simp)] at hc
          cases hc
  | cons c cs ih =>
      cases cs' with
      | nil =>
          have hc := hr' c (by simp only [List.nil_append] at heq; simp [← heq])
          rw [h c (by simp)] at hc
          cases hc
      | cons c' cs' =>
          obtain ⟨rfl, hrest⟩ := List.cons.inj heq
          obtain ⟨rfl, rfl⟩ := ih (fun d hd => h d (by simp [hd]))
            (fun d hd => h' d (by simp [hd])) hrest
          exact ⟨rfl, rfl⟩

/-! ## What a value begins with -/

/-- The forms of values. -/
inductive Form where
  | null
  | bool (value : Bool)
  | number
  | string
  | array
  | object

/-- The form of a value. -/
def form : Json → Form
  | .null => .null
  | .bool value => .bool value
  | .number _ => .number
  | .string _ => .string
  | .array _ => .array
  | .object _ => .object

/-- The form of the values that begin with a character. -/
def formFrom? (c : Char) : Option Form :=
  if isNumberChar c then some .number
  else
    match c with
    | 'n' => some .null
    | 't' => some (.bool Bool.true)
    | 'f' => some (.bool Bool.false)
    | '"' => some .string
    | '[' => some .array
    | '\x7b' => some .object
    | _ => none

/-- The first character of a value says of what form it is. -/
theorem Derives.formFrom? {t r : List Char} {v : Json} (h : Derives t (.value v) r) :
    ∃ c u, t = c :: u ∧ formFrom? c = some v.form := by
  cases h with
  | null | true | false | string | noItems | array | noFields | object => exact ⟨_, _, rfl, rfl⟩
  | number number front =>
      obtain ⟨hne, hchars⟩ := number.chars
      obtain ⟨c, cs, rfl⟩ := List.exists_cons_of_ne_nil hne
      exact ⟨c, cs ++ r, front, if_pos (hchars c (by simp))⟩

/-- No value begins with a blank. -/
theorem Derives.head_not_blank {t r : List Char} {v : Json} (h : Derives t (.value v) r) :
    ∀ c ∈ t.head?, isBlank c = Bool.false := by
  obtain ⟨c, u, rfl, hform⟩ := h.formFrom?
  intro c' hc'
  obtain rfl : c = c' := by simpa using hc'
  rw [Bool.eq_false_iff]
  intro hblank
  have hcases : c = ' ' ∨ c = '\t' ∨ c = '\n' ∨ c = '\r' := by
    simpa [isBlank, or_assoc] using hblank
  rcases hcases with rfl | rfl | rfl | rfl <;> cases hform

theorem Derives.form_eq {t r r' : List Char} {v v' : Json} (h : Derives t (.value v) r)
    (h' : Derives t (.value v') r') : v.form = v'.form := by
  obtain ⟨c, u, rfl, hform⟩ := h.formFrom?
  obtain ⟨c', u', hcons, hform'⟩ := h'.formFrom?
  rw [(List.cons.inj hcons).1] at hform
  exact Option.some.inj (hform.symm.trans hform')

/-- Where a bracket closes, no item follows. -/
theorem Derives.not_blank_bracket {t r r' : List Char} {v : Json} (h : Derives t (.element v) r) :
    ¬ Blank t (']' :: r') := by
  intro hclose
  cases h with
  | element blank value =>
      obtain rfl := blank.unique hclose value.head_not_blank (by simp; rfl)
      obtain ⟨c, u, hcons, hform⟩ := value.formFrom?
      rw [← (List.cons.inj hcons).1] at hform
      cases hform

theorem Derives.not_blank_brace {t r r' : List Char} {f : String × Json}
    (h : Derives t (.field f) r) : ¬ Blank t ('\x7d' :: r') := by
  intro hclose
  cases h with
  | field quote => exact absurd (quote.token hclose rfl rfl).1 (by decide)

/-! ## A text says one thing -/

/-- What the two phrases say is of the same sort. -/
def Phrase.SameSort : Phrase → Phrase → Prop
  | .value _, .value _ | .element _, .element _ | .items _, .items _ | .field _, .field _
  | .fields _, .fields _ => True
  | _, _ => False

/-- Values are of the same sort as values only, and so on. -/
theorem Phrase.SameSort.exists_eq {p p' : Phrase} (h : p.SameSort p') :
    match p with
    | .value _ => ∃ v, p' = .value v
    | .element _ => ∃ v, p' = .element v
    | .items _ => ∃ vs, p' = .items vs
    | .field _ => ∃ f, p' = .field f
    | .fields _ => ∃ fs, p' = .fields fs := by
  cases p <;> cases p' <;> first | exact ⟨_, rfl⟩ | exact h.elim

/-- The front of a text says one thing of a sort, and leaves one rest. -/
theorem Derives.unique {t r r' : List Char} {p p' : Phrase} (h : Derives t p r)
    (h' : Derives t p' r') (hsort : p.SameSort p') : p = p' ∧ r = r' := by
  induction h generalizing p' r' with
  | null =>
      obtain ⟨v, rfl⟩ := hsort.exists_eq
      have hform := (Derives.null).form_eq h'
      cases v <;> cases hform
      cases h'
      exact ⟨rfl, rfl⟩
  | true =>
      obtain ⟨v, rfl⟩ := hsort.exists_eq
      have hform := (Derives.true).form_eq h'
      cases v <;> cases hform
      cases h'
      exact ⟨rfl, rfl⟩
  | false =>
      obtain ⟨v, rfl⟩ := hsort.exists_eq
      have hform := (Derives.false).form_eq h'
      cases v <;> cases hform
      cases h'
      exact ⟨rfl, rfl⟩
  | number number front ends =>
      obtain ⟨v, rfl⟩ := hsort.exists_eq
      have hform := (Derives.number number front ends).form_eq h'
      cases v <;> cases hform
      cases h' with
      | number number' front' ends' =>
          obtain ⟨rfl, rfl⟩ := number_unique number.chars.2 number'.chars.2 ends ends'
            (front.symm.trans front')
          exact ⟨rfl, rfl⟩
  | string body =>
      obtain ⟨v, rfl⟩ := hsort.exists_eq
      have hform := (Derives.string body).form_eq h'
      cases v <;> cases hform
      cases h' with
      | string body' =>
          obtain ⟨rfl, rfl⟩ := body.unique body'
          exact ⟨rfl, rfl⟩
  | noItems close =>
      obtain ⟨v, rfl⟩ := hsort.exists_eq
      have hform := (Derives.noItems close).form_eq h'
      cases v <;> cases hform
      cases h' with
      | noItems close' => exact ⟨rfl, (close.token close' rfl rfl).2⟩
      | array first' => exact absurd close first'.not_blank_bracket
  | array first rest ihf ihr =>
      obtain ⟨v, rfl⟩ := hsort.exists_eq
      have hform := (Derives.array first rest).form_eq h'
      cases v <;> cases hform
      cases h' with
      | noItems close => exact absurd close first.not_blank_bracket
      | array first' rest' =>
          obtain ⟨hitem, rfl⟩ := ihf first' trivial
          obtain ⟨hitems, rfl⟩ := ihr rest' trivial
          cases hitem
          cases hitems
          exact ⟨rfl, rfl⟩
  | noFields close =>
      obtain ⟨v, rfl⟩ := hsort.exists_eq
      have hform := (Derives.noFields close).form_eq h'
      cases v <;> cases hform
      cases h' with
      | noFields close' => exact ⟨rfl, (close.token close' rfl rfl).2⟩
      | object first' => exact absurd close first'.not_blank_brace
  | object first rest ihf ihr =>
      obtain ⟨v, rfl⟩ := hsort.exists_eq
      have hform := (Derives.object first rest).form_eq h'
      cases v <;> cases hform
      cases h' with
      | noFields close => exact absurd close first.not_blank_brace
      | object first' rest' =>
          obtain ⟨hfield, rfl⟩ := ihf first' trivial
          obtain ⟨hfields, rfl⟩ := ihr rest' trivial
          cases hfield
          cases hfields
          exact ⟨rfl, rfl⟩
  | element blank value ih =>
      obtain ⟨v, rfl⟩ := hsort.exists_eq
      cases h' with
      | element blank' value' =>
          obtain rfl := blank.unique blank' value.head_not_blank value'.head_not_blank
          obtain ⟨heq, rfl⟩ := ih value' trivial
          cases heq
          exact ⟨rfl, rfl⟩
  | closeItems close =>
      obtain ⟨vs, rfl⟩ := hsort.exists_eq
      cases h' with
      | closeItems close' => exact ⟨rfl, (close.token close' rfl rfl).2⟩
      | nextItem comma => exact absurd (close.token comma rfl rfl).1 (by decide)
  | nextItem comma _ _ ihn ihr =>
      obtain ⟨vs, rfl⟩ := hsort.exists_eq
      cases h' with
      | closeItems close => exact absurd (comma.token close rfl rfl).1 (by decide)
      | nextItem comma' next' rest' =>
          obtain ⟨-, rfl⟩ := comma.token comma' rfl rfl
          obtain ⟨hitem, rfl⟩ := ihn next' trivial
          obtain ⟨hitems, rfl⟩ := ihr rest' trivial
          cases hitem
          cases hitems
          exact ⟨rfl, rfl⟩
  | field quote body colon _ ih =>
      obtain ⟨f, rfl⟩ := hsort.exists_eq
      cases h' with
      | field quote' body' colon' value' =>
          obtain ⟨-, rfl⟩ := quote.token quote' rfl rfl
          obtain ⟨rfl, rfl⟩ := body.unique body'
          obtain ⟨-, rfl⟩ := colon.token colon' rfl rfl
          obtain ⟨hvalue, rfl⟩ := ih value' trivial
          cases hvalue
          exact ⟨rfl, rfl⟩
  | closeFields close =>
      obtain ⟨fs, rfl⟩ := hsort.exists_eq
      cases h' with
      | closeFields close' => exact ⟨rfl, (close.token close' rfl rfl).2⟩
      | nextField comma => exact absurd (close.token comma rfl rfl).1 (by decide)
  | nextField comma _ _ ihn ihr =>
      obtain ⟨fs, rfl⟩ := hsort.exists_eq
      cases h' with
      | closeFields close => exact absurd (comma.token close rfl rfl).1 (by decide)
      | nextField comma' next' rest' =>
          obtain ⟨-, rfl⟩ := comma.token comma' rfl rfl
          obtain ⟨hfield, rfl⟩ := ihn next' trivial
          obtain ⟨hfields, rfl⟩ := ihr rest' trivial
          cases hfield
          cases hfields
          exact ⟨rfl, rfl⟩

/-- A text is a document of one value at most. -/
theorem Document.unique {text : List Char} {v v' : Json} (h : Document text v)
    (h' : Document text v') : v = v' := by
  obtain ⟨r, hv, -⟩ := h
  obtain ⟨r', hv', -⟩ := h'
  have hsame := (hv.unique hv' trivial).1
  cases hsame
  rfl

end CommandSchema.Json
