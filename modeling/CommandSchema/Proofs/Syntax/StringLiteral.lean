import CommandSchema.Syntax.Reader
import Mathlib.Data.List.Forall2

/-!
# CommandSchema.Proofs.Syntax.StringLiteral

Reading a string literal.

A body is read piece by piece up to its closing quote
(`StringLiteral.Reads`), and the pieces are its text
(`StringLiteral.eq_append_of_pieces`).  The reader moves over it, and the node
that it makes has one child for each piece, so the value of the literal is what
the body is read as (`Reader.stringLiteral_run`).  What a literal means is thereby
a question about lists of characters only.
-/

namespace CommandSchema.Syntax

/-! ## Moving over characters -/

namespace Cursor

/-- What is left after a move is the text without the characters moved over. -/
@[simp] theorem rest_advance (n : Nat) (c : Cursor) : (c.advance n).rest = c.rest.drop n := by
  induction n generalizing c with
  | zero => simp [advance]
  | succ n ih =>
      obtain ⟨rest, position, offset⟩ := c
      cases rest with
      | nil => simp [advance]
      | cons ch rest => simp [advance, ih]

/-- Two moves make one. -/
theorem advance_advance (m n : Nat) (c : Cursor) :
    (c.advance m).advance n = c.advance (m + n) := by
  induction m generalizing c with
  | zero => simp [advance.eq_2]
  | succ m ih =>
      obtain ⟨rest, position, offset⟩ := c
      rw [Nat.add_right_comm]
      cases rest with
      | nil => cases n <;> simp [advance]
      | cons ch rest => simp [advance, ih]

/-- A move counts the characters that it passes. -/
theorem offset_advance {n : Nat} {c : Cursor} (h : n ≤ c.rest.length) :
    (c.advance n).offset = c.offset + n := by
  induction n generalizing c with
  | zero => simp [advance]
  | succ n ih =>
      obtain ⟨rest, position, offset⟩ := c
      cases rest with
      | nil => simp at h
      | cons ch rest =>
          rw [advance, ih (by simpa using h)]
          simp only
          omega

theorem textTo_advance {n : Nat} {c : Cursor} (h : n ≤ c.rest.length) :
    c.textTo (c.advance n) = String.ofList (c.rest.take n) := by
  have hlength : (c.advance n).offset - c.offset = n := by
    have := offset_advance h
    omega
  rw [textTo, hlength]

end Cursor

namespace StringLiteral

/-- The quotes around a literal. -/
inductive Quote where
  | single
  | double

/-- The character of a quote. -/
def Quote.char : Quote → Char
  | .single => '\''
  | .double => '"'

/-! ## The pieces of a body -/

/-- The kind of the node of a piece. -/
def Piece.kind : Piece → Kind
  | .fragment _ => .stringFragment
  | .escape _ => .escapeSequence

@[simp] theorem flatMap_text_consChar (c : Char) (ps : List Piece) :
    (consChar c ps).flatMap Piece.text = c :: ps.flatMap Piece.text := by
  unfold consChar
  split <;> simp [Piece.text]

@[simp] theorem flatMap_value_consChar (c : Char) (ps : List Piece) :
    (consChar c ps).flatMap Piece.value = c :: ps.flatMap Piece.value := by
  unfold consChar
  split <;> simp [Piece.value]

/-- The pieces of a body are its text up to the closing quote. -/
theorem eq_append_of_pieces {quote : Char} {s after : List Char} {ps : List Piece}
    (h : pieces quote s = .ok (ps, after)) : s = ps.flatMap Piece.text ++ quote :: after := by
  fun_induction pieces quote s generalizing ps with
  | case1 => cases h
  | case2 rest =>
      cases h
      rfl
  | case3 rest => cases h
  | case4 rest n hn e he => cases h
  | case5 rest n hn ps after' hps _ ih =>
      cases h
      rw [List.flatMap_cons, List.append_assoc, ← ih hps]
      simp [Piece.text]
  | case6 c rest => cases h
  | case7 c rest => cases h
  | case8 c rest _ _ _ ps after' hps ih =>
      cases h
      rw [flatMap_text_consChar, List.cons_append, ← ih hps]

/-! ## The value of a body -/

/-- The body up to its closing quote is read as a value. -/
def Reads (quote : Quote) (s value after : List Char) : Prop :=
  ∃ ps, pieces quote.char s = .ok (ps, after) ∧ ps.flatMap Piece.value = value

theorem reads_close (quote : Quote) (after : List Char) :
    Reads quote (quote.char :: after) [] after := by
  refine ⟨[], ?_, rfl⟩
  rw [pieces, if_pos rfl]

/-- A character that stands for itself is read before the rest. -/
theorem reads_cons_iff {quote : Quote} {c : Char} {s w after : List Char}
    (hc : c ∉ [quote.char, '\\', '\n', '\r']) :
    Reads quote (c :: s) w after ↔ ∃ v, w = c :: v ∧ Reads quote s v after := by
  simp only [List.mem_cons, List.not_mem_nil, or_false, not_or] at hc
  obtain ⟨hquote, hbackslash, hlf, hcr⟩ := hc
  unfold Reads
  rw [pieces, if_neg hquote, if_neg hbackslash, if_neg (by simp [hlf, hcr])]
  constructor
  · rintro ⟨ps, hps, rfl⟩
    split at hps
    · cases hps
    · rename_i qs after' hrest
      cases hps
      exact ⟨_, flatMap_value_consChar .., _, hrest, rfl⟩
  · rintro ⟨v, rfl, ps, hps, rfl⟩
    rw [hps]
    exact ⟨_, rfl, flatMap_value_consChar ..⟩

/-- An escape is read before the rest. -/
theorem reads_escape {quote : Quote} {body s v after : List Char}
    (hlength : escapeLength? (body ++ s) = some body.length) (h : Reads quote s v after) :
    Reads quote ('\\' :: (body ++ s)) (decodeBody body ++ v) after := by
  obtain ⟨ps, hps, rfl⟩ := h
  have hquote : '\\' ≠ quote.char := by cases quote <;> decide
  unfold Reads
  rw [pieces, if_neg hquote, if_pos rfl, hlength]
  simp only [List.drop_left, List.take_left, hps]
  exact ⟨_, rfl, rfl⟩

end StringLiteral

/-! ## Reading a literal -/

namespace Reader

open StringLiteral

/-- A reader goes on where the one before it has stopped. -/
theorem bind_of_ok {α β : Type} {r : Reader α} {f : α → Reader β} {ctx : Context}
    {s t : ReaderState} {a : α} (h : r ctx s = .ok (a, t)) : (r >>= f) ctx s = f a ctx t := by
  change (r ctx s >>= fun p => f p.1 ctx p.2) = _
  rw [h]
  rfl

/-- The node of a piece. -/
structure IsPieceNode (p : Piece) (n : Node) : Prop where
  kind : n.kind = p.kind
  text : n.text = String.ofList p.text

/-- A piece is read as its node. -/
theorem leaf_piece (kind : Kind) (ctx : Context) {p : Piece} {s : ReaderState} {after : List Char}
    (h : s.cursor.rest = p.text ++ after) :
    ∃ position, leaf kind p.text.length ctx s =
      .ok (⟨kind, none, String.ofList p.text, position, []⟩,
        ⟨s.cursor.advance p.text.length, s.collected⟩) := by
  have htext : s.cursor.textTo (s.cursor.advance p.text.length) = String.ofList p.text := by
    rw [Cursor.textTo_advance (by simp [h]), h, List.take_left]
  refine ⟨s.cursor.position, ?_⟩
  rw [← htext]
  rfl

theorem stringPieces_cons (p : Piece) (ps : List Piece) : stringPieces (p :: ps) =
    (do collect (← leaf p.kind p.text.length); stringPieces ps) := by
  cases p <;> rfl

/-- The pieces of a body are read as their nodes, in order. -/
theorem stringPieces_run (ctx : Context) {ps : List Piece} {s : ReaderState} {after : List Char}
    (h : s.cursor.rest = ps.flatMap Piece.text ++ after) :
    ∃ ns, stringPieces ps ctx s = .ok ((),
        ⟨s.cursor.advance (ps.flatMap Piece.text).length, ns.reverse ++ s.collected⟩) ∧
      List.Forall₂ IsPieceNode ps ns := by
  induction ps generalizing s with
  | nil => exact ⟨[], rfl, .nil⟩
  | cons p ps ih =>
      rw [List.flatMap_cons, List.append_assoc] at h
      obtain ⟨position, hleaf⟩ := leaf_piece p.kind ctx h
      have hrest : (s.cursor.advance p.text.length).rest = ps.flatMap Piece.text ++ after := by
        rw [Cursor.rest_advance, h, List.drop_left]
      obtain ⟨ns, hrun, hns⟩ := ih (s := ⟨s.cursor.advance p.text.length,
        ⟨p.kind, none, String.ofList p.text, position, []⟩ :: s.collected⟩) hrest
      refine ⟨⟨p.kind, none, String.ofList p.text, position, []⟩ :: ns, ?_, .cons ⟨rfl, rfl⟩ hns⟩
      rw [stringPieces_cons, bind_of_ok hleaf, List.flatMap_cons, List.length_append,
        ← Cursor.advance_advance, List.reverse_cons, List.append_assoc]
      exact hrun

/-- The named children of a literal stand for what its pieces stand for. -/
theorem join_pieceValue {ps : List Piece} {ns : List Node} (h : List.Forall₂ IsPieceNode ps ns) :
    String.join ((ns.filter Node.isNamed).map Node.pieceValue) =
      String.ofList (ps.flatMap Piece.value) := by
  induction h with
  | nil => rfl
  | @cons p n ps ns hn _ ih =>
      have hnamed : n.isNamed = true := by
        rw [Node.isNamed, hn.kind]
        cases p <;> rfl
      have hvalue : n.pieceValue = String.ofList p.value := by
        rw [Node.pieceValue, hn.kind, hn.text]
        cases p <;> simp [Piece.kind, Piece.value, Piece.text]
      rw [List.filter_cons_of_pos hnamed, List.map_cons, String.join_cons, hvalue, ih,
        List.flatMap_cons, String.ofList_append]

/-- **Reading a literal**: a text between quotes is read as a literal, over which
the reader moves, with the value that the body is read as. -/
theorem stringLiteral_run (ctx : Context) {s : ReaderState} {quote : Quote}
    {text value after : List Char}
    (hrest : s.cursor.rest = quote.char :: (text ++ quote.char :: after))
    (hreads : Reads quote (text ++ quote.char :: after) value after) :
    ∃ n, stringLiteral ctx s = .ok (n, ⟨s.cursor.advance (text.length + 2), s.collected⟩) ∧
      n.kind = .stringLiteral ∧ n.stringValue = String.ofList value := by
  obtain ⟨ps, hps, rfl⟩ := hreads
  obtain rfl : text = ps.flatMap Piece.text := List.append_cancel_right (eq_append_of_pieces hps)
  have hbody : (s.cursor.advance 1).rest = ps.flatMap Piece.text ++ quote.char :: after := by
    rw [Cursor.rest_advance, hrest]
    rfl
  obtain ⟨ns, hrun, hns⟩ := stringPieces_run ctx (s := ⟨s.cursor.advance 1, []⟩) hbody
  have hopen : rest ctx ⟨s.cursor, []⟩ =
      .ok (quote.char :: (ps.flatMap Piece.text ++ quote.char :: after), ⟨s.cursor, []⟩) := by
    rw [← hrest]
    rfl
  have hguard : guard (quote.char = '"' ∨ quote.char = '\'') ctx ⟨s.cursor, []⟩ =
      .ok ((), ⟨s.cursor, []⟩) := by
    cases quote <;> rfl
  have hfirst : advance 1 ctx ⟨s.cursor, []⟩ = .ok ((), ⟨s.cursor.advance 1, []⟩) := rfl
  have hend : ((s.cursor.advance 1).advance (ps.flatMap Piece.text).length).advance 1 =
      s.cursor.advance ((ps.flatMap Piece.text).length + 2) := by
    rw [Cursor.advance_advance, Cursor.advance_advance]
    congr 1
    omega
  refine ⟨⟨.stringLiteral, none,
    s.cursor.textTo (s.cursor.advance ((ps.flatMap Piece.text).length + 2)),
    s.cursor.position, ns⟩, ?_, rfl, join_pieceValue hns⟩
  unfold stringLiteral node
  rw [bind_of_ok (a := s.cursor) (t := s) rfl, nodeFrom, List.reverse_nil, bind_of_ok hopen]
  simp only
  rw [bind_of_ok hguard, bind_of_ok hfirst, hps]
  simp only
  rw [bind_of_ok hrun, ← hend]
  simp [advance]

end Reader

end CommandSchema.Syntax
