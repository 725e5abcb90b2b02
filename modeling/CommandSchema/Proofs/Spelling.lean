import CommandSchema.Factory
import CommandSchema.Proofs.Syntax.Escapes
import CommandSchema.Proofs.Syntax.StringLiteral
import CommandSchema.Typing.FileModel
import Mathlib.Data.List.Chain

/-!
# CommandSchema.Proofs.Spelling

The ways to write one string as a literal.

A `Body` is a row of spellings, each of a character or of nothing, that may stand
next to each other.  Every body is read, and the value is the string that it
spells, with one exception: a carriage return that continues the line swallows a
line or paragraph separator right behind it (`Swallows`).  So two literals of one
string name the same member, however they are written
(`StringLiteral.readFrom_spellings`).
-/

namespace CommandSchema

open Syntax Syntax.Node

namespace Syntax.StringLiteral

/-! ## Bodies -/

/-- A way to write a character, or nothing, between quotes. -/
inductive Spelling (quote : Quote) where
  /-- The character as it stands. -/
  | raw (c : Char) (plain : c ∉ [quote.char, '\\', '\n', '\r'])
  /-- A backslash and what is behind it. -/
  | escape (e : Escape)

namespace Spelling

variable {quote : Quote}

/-- The text of a spelling. -/
def text : Spelling quote → List Char
  | raw c _ => [c]
  | escape e => '\\' :: e.body

/-- What a spelling spells. -/
def value : Spelling quote → List Char
  | raw c _ => [c]
  | escape e => e.value

/-- No digit stands right behind the escape of the null character, with which it
would be read as an octal number. -/
def Apart (p q : Spelling quote) : Prop :=
  p.text = ['\\', '0'] → ∀ c, q.text = [c] → ¬ c.isDigit

/-- A carriage return that continues the line, with a separator right behind
it. -/
def Swallows (p q : Spelling quote) : Prop :=
  p.text = ['\\', '\r'] ∧ (q.text = ['\u2028'] ∨ q.text = ['\u2029'])

instance (p q : Spelling quote) : Decidable (Swallows p q) :=
  inferInstanceAs (Decidable (_ ∧ _))

/-- What spellings in a row are read as. -/
def standsFor : List (Spelling quote) → List Char
  | [] => []
  | [p] => p.value
  | p :: q :: ps => if p.Swallows q then standsFor ps else p.value ++ standsFor (q :: ps)

end Spelling

/-- The inside of a literal: spellings that may stand next to each other. -/
structure Body (quote : Quote) where
  parts : List (Spelling quote)
  apart : parts.IsChain Spelling.Apart

namespace Body

variable {quote : Quote}

/-- The text of a literal, its quotes included. -/
def literal (b : Body quote) : List Char :=
  quote.char :: (b.parts.flatMap Spelling.text ++ [quote.char])

/-- The string that is spelled. -/
def spelled (b : Body quote) : List Char := b.parts.flatMap Spelling.value

/-- No part swallows its neighbour. -/
def Kept (b : Body quote) : Prop := b.parts.IsChain fun p q => ¬ p.Swallows q

end Body

/-- A node that is read from a literal, wherever the literal stands. -/
def ReadFrom {quote : Quote} (b : Body quote) (n : Node) : Prop :=
  ∃ (ctx : Context) (s t : ReaderState) (after : List Char),
    s.cursor.rest = b.literal ++ after ∧ Reader.stringLiteral ctx s = .ok (n, t)

/-! ## What is read and what is spelled -/

section

variable {quote : Quote}

/-- A spelling of one character is the character as it stands. -/
theorem Spelling.eq_raw_of_text {p : Spelling quote} {c : Char} (h : p.text = [c])
    (hc : c ≠ '\\') : ∃ plain, p = .raw c plain := by
  cases p with
  | raw d plain =>
      cases h
      exact ⟨plain, rfl⟩
  | escape e =>
      cases List.head_eq_of_cons_eq h
      exact absurd rfl hc

/-- What is swallowed is a character as it stands. -/
theorem Spelling.Swallows.exists_eq_raw {p q : Spelling quote} (h : p.Swallows q) :
    ∃ c plain, q = .raw c plain ∧ (c = '\u2028' ∨ c = '\u2029') := by
  rcases h.2 with hq | hq
  · obtain ⟨plain, rfl⟩ := Spelling.eq_raw_of_text hq (by decide)
    exact ⟨_, plain, rfl, .inl rfl⟩
  · obtain ⟨plain, rfl⟩ := Spelling.eq_raw_of_text hq (by decide)
    exact ⟨_, plain, rfl, .inr rfl⟩

/-- Nothing is read that is not spelled. -/
theorem length_standsFor_le (ps : List (Spelling quote)) :
    (Spelling.standsFor ps).length ≤ (ps.flatMap Spelling.value).length := by
  fun_induction Spelling.standsFor ps with
  | case1 => simp
  | case2 p => simp
  | case3 p q ps hswallows ih =>
      simp only [List.flatMap_cons, List.length_append]
      omega
  | case4 p q ps hkept ih =>
      rw [List.flatMap_cons, List.length_append, List.length_append]
      omega

/-- The string that is spelled is read exactly when no part swallows its
neighbour. -/
theorem standsFor_eq_iff (ps : List (Spelling quote)) :
    Spelling.standsFor ps = ps.flatMap Spelling.value ↔
      ps.IsChain fun p q => ¬ p.Swallows q := by
  fun_induction Spelling.standsFor ps with
  | case1 => simp
  | case2 p => simp
  | case3 p q ps hswallows ih =>
      -- the swallowed separator is missed even if nothing else is
      have hq : q.value.length = 1 := by
        obtain ⟨c, plain, rfl, -⟩ := hswallows.exists_eq_raw
        rfl
      have hle := length_standsFor_le ps
      simp only [List.isChain_cons_cons, hswallows, not_true_eq_false, false_and, iff_false]
      intro h
      have hlength := congrArg List.length h
      simp only [List.flatMap_cons, List.length_append] at hlength
      omega
  | case4 p q ps hkept ih =>
      rw [List.flatMap_cons, List.append_cancel_left_eq, ih, List.isChain_cons_cons]
      simp [hkept]

/-! ## Reading a body -/

theorem takes_eq_false {e : Escape} {c : Char} (hoctal : isOctalDigit c = false)
    (hend : isLineEnd c = false) : e.takes c = false := by
  simp [Escape.takes, hoctal, hend]

/-- A spelling that takes nothing along is read before the rest. -/
theorem reads_spelling {p : Spelling quote} {s v after : List Char}
    (h : ∀ e, p = .escape e → ∀ c ∈ s.head?, e.takes c = false)
    (hs : Reads quote s v after) : Reads quote (p.text ++ s) (p.value ++ v) after := by
  cases p with
  | raw c plain => exact (reads_cons_iff plain).mpr ⟨v, rfl, hs⟩
  | escape e =>
      have hlength := Escape.escapeLength?_body (h e rfl)
      have hread := reads_escape hlength hs
      rwa [Escape.decodeBody_body] at hread

/-- An escape of one character that takes a separator along is read with it. -/
theorem reads_taken {body c : Char} {s v after : List Char} (hbody : body = '\r' ∨ body = '?')
    (hc : c = '\u2028' ∨ c = '\u2029') (hs : Reads quote s v after) :
    Reads quote ('\\' :: body :: c :: s) (decodeBody [body, c] ++ v) after := by
  have hlength : escapeLength? ([body, c] ++ s) = some 2 := by
    rcases hbody with rfl | rfl <;> rcases hc with rfl | rfl <;> rfl
  exact reads_escape hlength hs

/-- Where an escape takes its neighbour along, the neighbour is a separator and
the escape is swallowing it or is a question mark. -/
theorem cases_of_takes {e : Escape} {c : Char} {plain : c ∉ [quote.char, '\\', '\n', '\r']}
    (hapart : Spelling.Apart (.escape e) (.raw c plain)) (htakes : e.takes c = true) :
    (c = '\u2028' ∨ c = '\u2029') ∧ (e.body = ['\r'] ∨ e.body = ['?']) := by
  by_cases hzero : e.body = ['0']
  · have hdigit : ¬ c.isDigit := hapart (by simp [Spelling.text, hzero]) c rfl
    rw [Escape.takes, if_pos hzero] at htakes
    simp only [isOctalDigit, Bool.and_eq_true, decide_eq_true_eq] at htakes
    refine absurd ?_ hdigit
    simp only [Char.isDigit, Bool.and_eq_true, decide_eq_true_eq]
    have hseven : '7'.val ≤ '9'.val := by decide
    exact ⟨htakes.1, UInt32.le_trans htakes.2 hseven⟩
  · simp only [Escape.takes, if_neg hzero, isLineEnd, Bool.and_eq_true, Bool.or_eq_true,
      decide_eq_true_eq, or_assoc] at htakes
    simp only [List.mem_cons, not_or] at plain
    exact ⟨htakes.2.resolve_left plain.2.2.1, htakes.1⟩

/-- **Reading a body**: spellings that may stand next to each other are read up
to the closing quote, one after the other, except that a separator may be
swallowed. -/
theorem reads_spellings {ps : List (Spelling quote)} (h : ps.IsChain Spelling.Apart)
    (after : List Char) : Reads quote (ps.flatMap Spelling.text ++ quote.char :: after)
      (Spelling.standsFor ps) after := by
  fun_induction Spelling.standsFor ps with
  | case1 => exact reads_close ..
  | case2 p =>
      have hfree : ∀ e, p = .escape e → ∀ c ∈ (quote.char :: after).head?, e.takes c = false := by
        rintro e - c ⟨⟩
        exact takes_eq_false (by cases quote <;> rfl) (by cases quote <;> rfl)
      simpa using reads_spelling hfree (reads_close ..)
  | case3 p q ps hswallows ih =>
      obtain ⟨c, plain, rfl, hc⟩ := hswallows.exists_eq_raw
      rw [List.flatMap_cons, hswallows.1]
      exact reads_taken (.inl rfl) hc (ih h.tail.tail)
  | case4 p q ps hkept ih =>
      have hrest := ih h.tail
      rw [List.flatMap_cons, List.append_assoc]
      by_cases hfree : ∀ e, p = .escape e →
          ∀ c ∈ ((q :: ps).flatMap Spelling.text ++ quote.char :: after).head?, e.takes c = false
      case pos => exact reads_spelling hfree hrest
      push Not at hfree
      obtain ⟨e, rfl, c, hhead, htakes⟩ := hfree
      cases q with
      | escape _ =>
          cases hhead
          exact absurd (takes_eq_false rfl rfl) htakes
      | raw d plain =>
          cases hhead
          -- the only harmless case: a masked question mark hands the separator back
          obtain ⟨hc, hbody⟩ := cases_of_takes (List.isChain_cons_cons.mp h).1
            (by simpa using htakes)
          have hmark : e.body = ['?'] := by
            refine hbody.resolve_left fun hbody => hkept ⟨?_, ?_⟩
            · simp [Spelling.text, hbody]
            · simpa [Spelling.text] using hc
          have hvalue : e.value = ['?'] := by
            rw [← Escape.decodeBody_body, hmark]
            rfl
          obtain ⟨v, hv, hread⟩ := (reads_cons_iff plain).mp hrest
          rw [hv, Spelling.text, Spelling.value, hvalue, hmark]
          exact reads_taken (.inr rfl) hc hread

/-! ## Literals and the members they name -/

/-- A body is read as a literal that stands for what its parts stand for. -/
theorem exists_stringLiteral (b : Body quote) (ctx : Context) {s : ReaderState} {after : List Char}
    (h : s.cursor.rest = b.literal ++ after) :
    ∃ n, Reader.stringLiteral ctx s =
        .ok (n, ⟨s.cursor.advance b.literal.length, s.collected⟩) ∧
      n.kind = .stringLiteral ∧ n.stringValue = String.ofList (Spelling.standsFor b.parts) := by
  have hrest : s.cursor.rest =
      quote.char :: (b.parts.flatMap Spelling.text ++ quote.char :: after) := by
    simpa [Body.literal] using h
  have hlength : b.literal.length = (b.parts.flatMap Spelling.text).length + 2 := by
    simp [Body.literal]
  rw [hlength]
  exact Reader.stringLiteral_run ctx hrest (reads_spellings b.apart after)

/-- What is read from a body is a literal that stands for what its parts stand
for. -/
theorem ReadFrom.stringValue {b : Body quote} {n : Node} (h : ReadFrom b n) :
    n.kind = .stringLiteral ∧ n.stringValue = String.ofList (Spelling.standsFor b.parts) := by
  obtain ⟨ctx, s, t, after, hrest, hread⟩ := h
  obtain ⟨m, hm, hkind, hvalue⟩ := exists_stringLiteral b ctx hrest
  cases hm.symm.trans hread
  exact ⟨hkind, hvalue⟩

/-- A literal spells its value exactly when no part swallows its neighbour. -/
theorem ReadFrom.stringValue_eq_iff {b : Body quote} {n : Node} (h : ReadFrom b n) :
    n.stringValue = String.ofList b.spelled ↔ b.Kept := by
  rw [h.stringValue.2, String.ofList_inj, Body.spelled, standsFor_eq_iff, Body.Kept]

/-- A member is looked up by the string in its quotes. -/
theorem mem_membersNamed_iff {list member name : Node} {w : String}
    (hmember : member ∈ list.namedChildren)
    (hkind : member.kind = .methodSignature ∨ member.kind = .propertySignature)
    (hname : member.child? .name = some (name.withRole .name))
    (hliteral : name.kind = .stringLiteral) :
    member ∈ list.membersNamed w ↔ name.stringValue = w := by
  have hmemberName : member.memberName? = some name.stringValue := by
    simp only [memberName?, hname, Option.map_some]
    exact congrArg some (if_pos hliteral)
  simp [membersNamed, hmember, hkind, hmemberName]

end

/-- **The spellings of a string.**  Every body is read as a literal up to its
closing quote, wherever it stands.  Its value is the string that is spelled,
unless a carriage return that continues the line stands before a raw line or
paragraph separator, which it swallows; then the value is another string.  So a
command and a quoted member of which nothing is swallowed have the same name
exactly when they spell the same string. -/
theorem readFrom_spellings {quote quote' : Quote} (b : Body quote) (b' : Body quote') :
    (∀ (ctx : Context) (s : ReaderState) (after : List Char),
      s.cursor.rest = b.literal ++ after → ∃ n, Reader.stringLiteral ctx s =
        .ok (n, ⟨s.cursor.advance b.literal.length, s.collected⟩)) ∧
    (∀ n, ReadFrom b n → n.kind = .stringLiteral ∧
      n.stringValue = String.ofList (Spelling.standsFor b.parts) ∧
      (n.stringValue = String.ofList b.spelled ↔ b.Kept)) ∧
    ∀ entry name list member : Node, ReadFrom b entry → ReadFrom b' name → b.Kept → b'.Kept →
      member ∈ list.namedChildren →
      (member.kind = .methodSignature ∨ member.kind = .propertySignature) →
      member.child? .name = some (name.withRole .name) →
      Factory.string? entry = some (String.ofList b.spelled) ∧
        (member ∈ list.membersNamed (String.ofList b.spelled) ↔ b.spelled = b'.spelled) := by
  refine ⟨fun ctx s after hrest => ?_, fun n hn => ?_, ?_⟩
  · obtain ⟨n, hread, -⟩ := exists_stringLiteral b ctx hrest
    exact ⟨n, hread⟩
  · exact ⟨hn.stringValue.1, hn.stringValue.2, hn.stringValue_eq_iff⟩
  · intro entry name list member hentry hname hkept hkept' hmember hkind hchild
    have hcommand := hentry.stringValue_eq_iff.mpr hkept
    have hmemberName := hname.stringValue_eq_iff.mpr hkept'
    refine ⟨?_, ?_⟩
    · rw [Factory.string?, if_pos hentry.stringValue.1, hcommand]
    · rw [mem_membersNamed_iff hmember hkind hchild hname.stringValue.1, hmemberName,
        String.ofList_inj, eq_comm]

/-- A separator between two letters, behind a carriage return that continues the
line. -/
def separatorOnNextLine : Body .single where
  parts := [.raw 'p' (by decide), .escape (.continuation .cr), .raw '\u2028' (by decide),
    .raw 's' (by decide)]
  apart := by simp [Spelling.Apart, Spelling.text, Escape.body, LineBreak.text]

/-- The separator is spelled, and it is not read. -/
theorem separatorOnNextLine_swallowed :
    separatorOnNextLine.literal = "'p\\\r\u2028s'".toList ∧
      separatorOnNextLine.spelled = "p\u2028s".toList ∧ ¬ separatorOnNextLine.Kept ∧
      ∃ n, ReadFrom separatorOnNextLine n ∧ n.stringValue = "ps" := by
  obtain ⟨hread, hvalue, -⟩ := readFrom_spellings separatorOnNextLine separatorOnNextLine
  refine ⟨rfl, rfl, ?_, ?_⟩
  · simp [Body.Kept, separatorOnNextLine, Spelling.Swallows, Spelling.text, Escape.body,
      LineBreak.text]
  · obtain ⟨n, hn⟩ := hread ⟨.typeScript, 0, true, false, true, true⟩
      ⟨.start separatorOnNextLine.literal, []⟩ [] (by simp [Cursor.start])
    have hfrom : ReadFrom separatorOnNextLine n := ⟨_, _, _, [], by simp [Cursor.start], hn⟩
    exact ⟨n, hfrom, (hvalue n hfrom).2.1⟩

end Syntax.StringLiteral

end CommandSchema
