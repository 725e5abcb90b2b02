import CommandSchema.Proofs.Syntax.Lawful

/-!
# CommandSchema.Proofs.Syntax.Tokens

The readers of tokens keep the laws of the grammar.

Leaves are what these readers make: words, comments and the pieces of strings.
Each of them is read after a look at the text that shows that there is something
to read, so no leaf is empty.
-/

namespace CommandSchema.Syntax.Reader

open HasLaw (nodes)

variable {α : Type} {d : Bool}

/-! ## Blanks, comments and children -/

instance (n : Node) (used : List Node) [h : Obeys n d] [Among [n] used] :
    Collects (collect n) d used where
  keeps {ctx s a t top} hr htop hs := by
    cases hr
    refine ⟨fun m hm => ?_, inferInstance, .collect n s⟩
    rcases List.mem_cons.mp hm with rfl | hm
    · exact ⟨h.law.1, h.law.2.2.mono htop⟩
    · exact hs m hm
  collects hr _ _ := by
    cases hr
    exact ⟨n, by simp, h.law.2.1⟩

instance (n : Node) (used : List Node) [Obeys n d] [Among [n] used] : Moves (collect n) d used where
  lawful := inferInstance
  moves hr _ _ := by
    cases hr
    exact .inl (by simp)

/-- A comment begins with a character. -/
theorem ne_of_commentLength? {text : List Char} {n : Nat}
    (h : Scan.commentLength? text = some n) : n ≠ 0 ∧ text ≠ [] := by
  unfold Scan.commentLength? at h
  split at h
  · cases h
    simp
  · obtain ⟨k, -, rfl⟩ := Option.map_eq_some_iff.mp h
    simp
  · cases h

theorem lawfulAt_comment {text : List Char} {n : Nat} (h : Scan.commentLength? text = some n) :
    LawfulAt text (comment n) := by
  obtain ⟨hn, htext⟩ := ne_of_commentLength? h
  exact lawfulAt_collect_leaf hn htext (by decide) rfl

instance : Lawful trivia := by
  unfold trivia
  refine .repeatWhile (.bind inferInstance fun _ _ => .bind inferInstance fun _ _ =>
    .rest_bind fun text => ?_)
  split
  · next n hn =>
      have := lawfulAt_comment hn
      infer_instance
  · infer_instance

instance (p : Reader Node) [Lawful p d] : Collects (child p) d := by
  unfold child
  infer_instance

instance (p : Reader Node) [Lawful p d] : Moves (child p) d := by
  unfold child
  infer_instance

instance (role : Role) (p : Reader Node) [Lawful p d] : Collects (childAs role p) d := by
  unfold childAs
  infer_instance

instance (role : Role) (p : Reader Node) [Lawful p d] : Moves (childAs role p) d := by
  unfold childAs
  infer_instance

/-! ## Tokens -/

/-- A reader that moves when it is in front of a text. -/
structure MovesAt [HasLaw α] (text : List Char) (r : Reader α) (statements : Bool := false)
    (used : List Node := []) (made : α → List Node := nodes) : Prop where
  lawful : LawfulAt text r statements used made
  moves : ∀ {ctx s a t top}, r ctx s = .ok (a, t) → s.cursor.rest = text →
    (statements = true → top = true) → s.Lawful top → s.Moved t

section MovesAt

variable [HasLaw α] {text : List Char} {used : List Node} {made : α → List Node}

/-- A reader that looks at the text moves when it does so in front of every text. -/
theorem Moves.rest_bind {f : List Char → Reader α}
    (h : ∀ text, MovesAt text (f text) d used made) : Moves (rest >>= f) d used made where
  lawful := .rest_bind fun text => (h text).lawful
  moves {ctx s a t top} hr htop hs := by
    obtain ⟨text, u, hrest, hf⟩ := bind_eq_ok hr
    cases hrest
    exact (h _).moves hf rfl htop hs

theorem MovesAt.fail : MovesAt text (fail : Reader α) d used made where
  lawful := inferInstance
  moves hr := by cases hr

/-- What follows a condition may count on it. -/
theorem MovesAt.guard_bind {b : Bool} {f : Unit → Reader α}
    (h : b = true → MovesAt text (f ()) d used made) :
    MovesAt text (guard b >>= f) d used made where
  lawful := .guard_bind fun hb => (h hb).lawful
  moves {ctx s a t top} hr htext htop hs := by
    obtain ⟨_, u, hguard, hf⟩ := bind_eq_ok hr
    unfold guard at hguard
    split at hguard
    · next hb =>
        cases hguard
        exact (h hb).moves hf htext htop hs
    · cases hguard

/-- A move over some character. -/
theorem MovesAt.advance {n : Nat} (hn : n ≠ 0) (htext : text ≠ []) :
    MovesAt text (advance n) where
  lawful := inferInstance
  moves hr hrest _ _ := by
    cases hr
    exact .inr (Cursor.key_lt_advance hn (hrest ▸ htext))

/-- A leaf over some character. -/
theorem MovesAt.leaf {kind : Kind} {n : Nat} [Holds (kind.isPlain d)] (hn : n ≠ 0)
    (htext : text ≠ []) : MovesAt text (leaf kind n) d where
  lawful := .leaf hn htext
  moves hr hrest _ _ := by
    rw [leaf_eq] at hr
    cases hr
    exact .inr (Cursor.key_lt_advance hn (hrest ▸ htext))

/-- A move over some character, and what follows in front of the rest. -/
theorem MovesAt.advance_bind {n : Nat} {f : Unit → Reader α} (hn : n ≠ 0) (htext : text ≠ [])
    (hf : LawfulAt (text.drop n) (f ()) d used made) :
    MovesAt text (Reader.advance n >>= f) d used made where
  lawful := inferInstance
  moves {ctx s a t top} hr hrest htop hs := by
    obtain ⟨_, u, hadvance, hrun⟩ := bind_eq_ok hr
    cases hadvance
    obtain ⟨-, -, hpassage⟩ := hf.keeps hrun (by simp [hrest]) htop hs
    exact .passage (.inr (Cursor.key_lt_advance hn (hrest ▸ htext))) hpassage

end MovesAt

/-- A token that has characters. -/
class Visible (token : String) : Prop where
  ne : token ≠ ""

instance : Visible "(" := ⟨by decide⟩

instance : Visible "[" := ⟨by decide⟩

instance : Visible "<" := ⟨by decide⟩

instance : Visible "@" := ⟨by decide⟩

instance : Visible "unique" := ⟨by decide⟩

instance : Visible "function" := ⟨by decide⟩

instance : Visible "class" := ⟨by decide⟩

instance : Visible "new" := ⟨by decide⟩

instance : Visible "yield" := ⟨by decide⟩

instance : Visible "import" := ⟨by decide⟩

instance : Visible "export" := ⟨by decide⟩

instance : Visible "extends" := ⟨by decide⟩

instance : Visible "`" := ⟨by decide⟩

instance : Visible openBrace := ⟨by decide⟩

instance (token : String) : Lawful (mark token) := by
  unfold mark
  infer_instance

instance (token : String) [h : Visible token] : Moves (mark token) := by
  have hlength : token.length ≠ 0 := by simpa using h.ne
  have hmoves : Moves (do
      let text ← rest
      guard (token.toList.isPrefixOf text)
      advance token.length) :=
    .rest_bind fun text => .guard_bind fun htext => .advance hlength (by
      rintro rfl
      simp [h.ne] at htext)
  unfold mark
  infer_instance

instance (token : String) (after : List Char) : Lawful (markNot token after) := by
  unfold markNot
  infer_instance

instance (token : String) : Lawful (accept token) := by
  unfold accept
  infer_instance

instance (w : String) : Lawful (word w) := by
  unfold word
  infer_instance

instance (w : String) [h : Visible w] : Moves (word w) := by
  have hlength : w.length ≠ 0 := by simpa using h.ne
  have hmoves : Moves (do
      let text ← rest
      guard (text.take (Scan.wordLength text) = w.toList)
      advance w.length) :=
    .rest_bind fun text => .guard_bind fun htext => .advance hlength (by
      rintro rfl
      have hempty : w.toList = [] := by simpa using htext
      exact h.ne (String.toList_eq_nil_iff.mp hempty))
  unfold word
  infer_instance

instance (w : String) : Lawful (acceptWord w) := by
  unfold acceptWord
  infer_instance

instance (kind : Kind) [Holds kind.isPlain] : Moves (anyWord kind) := by
  unfold anyWord
  refine .rest_bind fun text => .guard_bind fun h => .leaf (of_decide_eq_true h) ?_
  rintro rfl
  exact of_decide_eq_true h rfl

instance (kind : Kind) [Holds kind.isPlain] : Lawful (anyWord kind) := Moves.lawful

instance (reserved : List String) (kind : Kind) [Holds kind.isPlain] :
    Moves (wordExcept reserved kind) := by
  unfold wordExcept
  refine .rest_bind fun text => .guard_bind fun h => ?_
  have hne : text.take (Scan.wordLength text) ≠ [] := (of_decide_eq_true h).1
  exact .leaf (by simpa using hne) (by rintro rfl; simp at hne)

instance (reserved : List String) (kind : Kind) [Holds kind.isPlain] :
    Lawful (wordExcept reserved kind) :=
  Moves.lawful

theorem skipTrivia_nil (n : Nat) : Scan.skipTrivia n [] = [] := by
  cases n <;> rfl

/-- What follows may count on a word that comes next. -/
theorem Lawful.nextWord_bind [HasLaw α] {used : List Node} {made : α → List Node}
    {f : String → Reader α}
    (h : ∀ text w, (w ≠ "" → text ≠ []) → LawfulAt text (f w) d used made) :
    Lawful (nextWord >>= f) d used made where
  keeps {ctx s a t top} hr htop hs := by
    obtain ⟨w, u, hword, hf⟩ := bind_eq_ok hr
    cases hword
    refine (h _ _ fun hw htext => hw ?_).keeps hf rfl htop hs
    simp [htext, skipTrivia_nil]

/-- What follows may count on a character that comes next. -/
theorem Lawful.nextChar?_bind [HasLaw α] {used : List Node} {made : α → List Node}
    {f : Option Char → Reader α}
    (h : ∀ text c?, (c? ≠ none → text ≠ []) → LawfulAt text (f c?) d used made) :
    Lawful (nextChar? >>= f) d used made where
  keeps {ctx s a t top} hr htop hs := by
    obtain ⟨c?, u, hchar, hf⟩ := bind_eq_ok hr
    cases hchar
    refine (h _ _ fun hc htext => hc ?_).keeps hf rfl htop hs
    simp [htext, skipTrivia_nil]

instance (w : String) (starts : List Char) : Lawful (wordThen w starts) := by
  unfold wordThen
  infer_instance

instance (close : String) (item : Reader Unit) [Lawful item] : Lawful (listUntil close item) := by
  unfold listUntil
  infer_instance

instance (item : Reader Unit) [Lawful item] : Lawful (commaSeparated item) := by
  unfold commaSeparated
  infer_instance

/-! ## Ends of statements -/

instance (bodyFollows : Bool) : Lawful (endsHere bodyFollows) := by
  unfold endsHere
  refine .bind (.repeatWhile (.rest_bind fun text => ?_)) fun _ _ => inferInstance
  have hcomment (blanks : Nat) : LawfulAt text (do
      match Scan.commentLength? (text.drop blanks) with
      | some n => advance blanks; comment n; pure true
      | none => pure false) := by
    split
    · next n hn =>
        have := lawfulAt_comment hn
        infer_instance
    · infer_instance
  infer_instance

instance : Lawful brokenOff := by
  unfold brokenOff
  infer_instance

instance : Lawful semicolon := by
  unfold semicolon
  infer_instance

/-! ## Strings and templates -/

/-- A leaf that is collected at once, and what follows in front of the rest. -/
theorem LawfulAt.collect_leaf_bind [HasLaw α] {text : List Char} {kind : Kind} {n : Nat}
    {f : Unit → Reader α} (hn : n ≠ 0) (htext : text ≠ []) (hkind : kind ≠ .unionType)
    (hdeclares : kind.declaresType = false) (hf : LawfulAt (text.drop n) (f ()) d) :
    LawfulAt text (do collect (← Reader.leaf kind n); f ()) d where
  keeps {ctx s a t top} h hrest htop hs := by
    obtain ⟨m, u, hleaf, hmore⟩ := bind_eq_ok h
    obtain ⟨_, v, hcollect, hrun⟩ := bind_eq_ok hmore
    have hboth : (do collect (← Reader.leaf kind n)) ctx s = .ok ((), v) := by
      rw [bind_of_ok hleaf, hcollect]
    obtain ⟨hv, -, hpassage⟩ :=
      (lawfulAt_collect_leaf hn htext hkind hdeclares).keeps hboth hrest (by simp) hs
    rw [leaf_eq] at hleaf
    cases hleaf
    cases hcollect
    obtain ⟨ht, hobeys, hpassage'⟩ := hf.keeps hrun (by simp [hrest]) htop hv
    exact ⟨ht, hobeys, hpassage.trans hpassage'⟩

open StringLiteral in
/-- No piece of a body is empty. -/
theorem text_ne_nil_of_pieces {quote : Char} {s after : List Char} {ps : List Piece}
    (h : pieces quote s = .ok (ps, after)) : ∀ p ∈ ps, p.text ≠ [] := by
  fun_induction pieces quote s generalizing ps with
  | case1 | case3 | case4 | case6 | case7 => cases h
  | case2 =>
      cases h
      simp
  | case5 rest n hn ps after' hps _ ih =>
      cases h
      exact List.forall_mem_cons.mpr ⟨List.cons_ne_nil _ _, ih hps⟩
  | case8 c rest _ _ _ ps after' hps ih =>
      cases h
      have hold := ih hps
      unfold consChar
      split
      · exact List.forall_mem_cons.mpr ⟨List.cons_ne_nil _ _, (List.forall_mem_cons.mp hold).2⟩
      · exact List.forall_mem_cons.mpr ⟨List.cons_ne_nil _ _, hold⟩

open StringLiteral in
/-- The pieces in front of a text that begins with them. -/
theorem lawfulAt_stringPieces {ps : List Piece} (after : List Char)
    (hne : ∀ p ∈ ps, p.text ≠ []) :
    LawfulAt (ps.flatMap Piece.text ++ after) (stringPieces ps) := by
  induction ps with
  | nil =>
      unfold stringPieces
      infer_instance
  | cons p ps ih =>
      obtain ⟨hp, hps⟩ := List.forall_mem_cons.mp hne
      rw [stringPieces_cons, List.flatMap_cons, List.append_assoc]
      refine .collect_leaf_bind (f := fun _ => stringPieces ps) (by simpa using hp) (by simp [hp])
        (by cases p <;> nofun) (by cases p <;> rfl) ?_
      rw [List.drop_left]
      exact ih hps

instance : Lawful stringLiteral := by
  unfold stringLiteral
  refine .node (.rest_bind fun text => ?_)
  split
  · next quote body =>
      refine .guard_bind fun _ => .advance_bind Nat.one_ne_zero (List.cons_ne_nil _ _) ?_
      rw [List.drop_one, List.tail_cons]
      split
      · next ps after hps =>
          have hpieces := lawfulAt_stringPieces (quote :: after) (text_ne_nil_of_pieces hps)
          rw [← StringLiteral.eq_append_of_pieces hps] at hpieces
          infer_instance
      · infer_instance
  · exact .fail

instance (hole : Reader Node) [Lawful hole] : Lawful (templateParts hole) := by
  unfold templateParts
  refine .repeatWhile (.bind inferInstance fun text _ => ?_)
  split
  case h_3 after =>
    split <;> infer_instance
  all_goals infer_instance

instance (kind : Kind) (hole : Reader Node) [Holds kind.isPlain] [Lawful hole] :
    Lawful (template kind hole) := by
  unfold template
  infer_instance

end CommandSchema.Syntax.Reader
