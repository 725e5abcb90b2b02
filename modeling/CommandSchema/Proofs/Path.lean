import CommandSchema.Path
import Mathlib.Data.List.DropRight
import Mathlib.Data.List.Infix

/-!
# CommandSchema.Proofs.Path

What the step to the directory above does to the components of a path.

A path is spelled by what stands at its front, the root or a leading dot, and by
the pieces of its body (`Path.Spelling`).  Cutting off the last piece that
stands for something leaves a spelling with the same front
(`Spelling.parent`).  So the path above has the same components but for the
last one (`components_of_parent?`), and only a path without components has
none above it (`parent?_eq_none_iff`).
-/

namespace CommandSchema.Path

/-! ## Pieces -/

theorem pieces_slash (s : List Char) : pieces ('/' :: s) = [] :: pieces s := rfl

/-- Any other character belongs to the first piece. -/
theorem pieces_cons {c : Char} (hc : c ≠ '/') (s : List Char) :
    pieces (c :: s) = (pieces s).modifyHead (c :: ·) ∧ pieces s ≠ [] := by
  induction s generalizing c with
  | nil =>
      refine ⟨?_, by simp [pieces]⟩
      change pieces [c] = [[c]]
      rw [pieces]
      · rfl
      · simpa using hc
  | cons d s ih =>
      have hne : pieces (d :: s) ≠ [] := by
        by_cases hd : d = '/'
        · rw [hd, pieces_slash]
          exact List.cons_ne_nil _ _
        · obtain ⟨hpieces, hs⟩ := ih hd
          rw [hpieces]
          simpa using hs
      refine ⟨?_, hne⟩
      rw [pieces]
      · cases hcons : pieces (d :: s) with
        | nil => exact absurd hcons hne
        | cons => rfl
      · simpa using hc

/-- The pieces are those of the library's splitting. -/
theorem pieces_eq_splitOn (s : List Char) : pieces s = s.splitOn '/' := by
  induction s with
  | nil => rfl
  | cons c s ih =>
      rw [List.splitOn_cons_eq_if_modifyHead, ← ih]
      by_cases hc : c = '/'
      · rw [hc, pieces_slash, if_pos (by decide)]
      · rw [if_neg (by simpa using hc), (pieces_cons hc s).1]

theorem pieces_ne_nil (s : List Char) : pieces s ≠ [] := by
  rw [pieces_eq_splitOn]
  exact List.splitOn_ne_nil _ _

theorem intercalate_pieces (s : List Char) : ['/'].intercalate (pieces s) = s := by
  rw [pieces_eq_splitOn]
  exact List.intercalate_splitOn '/'

/-- No piece has a slash in it. -/
theorem slash_notMem_of_mem_pieces {s piece : List Char} (h : piece ∈ pieces s) :
    '/' ∉ piece := by
  induction s generalizing piece with
  | nil => simp_all [pieces]
  | cons c s ih =>
      by_cases hc : c = '/'
      · rw [hc, pieces_slash] at h
        rcases List.mem_cons.mp h with rfl | h
        · exact List.not_mem_nil
        · exact ih h
      · obtain ⟨hpieces, hs⟩ := pieces_cons hc s
        obtain ⟨first, rest, hfirst⟩ := List.exists_cons_of_ne_nil hs
        rw [hpieces, hfirst, List.modifyHead_cons] at h
        rcases List.mem_cons.mp h with rfl | h
        · have := @ih first (by simp [hfirst])
          simp [this, Ne.symm hc]
        · exact ih (by simp [hfirst, h])

theorem pieces_intercalate {body : List (List Char)} (hbody : body ≠ [])
    (h : ∀ piece ∈ body, '/' ∉ piece) : pieces (['/'].intercalate body) = body := by
  rw [pieces_eq_splitOn]
  exact List.splitOn_intercalate '/' h hbody

/-- A piece stands for no component just if it is empty or a dot. -/
theorem component?_eq_none_iff {piece : List Char} :
    component? piece = none ↔ isEmptyPiece piece = true := by
  by_cases h : piece = [] ∨ piece = ['.']
  · simp [component?, isEmptyPiece, h]
  · rw [component?, if_neg h]
    split <;> simpa [isEmptyPiece] using h

/-- A text has no more pieces that are not empty than it has characters. -/
theorem countP_pieces_le (s : List Char) :
    (pieces s).countP (fun piece => piece ≠ []) ≤ s.length := by
  induction s with
  | nil => simp [pieces]
  | cons c s ih =>
      by_cases hc : c = '/'
      · rw [hc, pieces_slash, List.countP_cons_of_neg (by simp), List.length_cons]
        omega
      · obtain ⟨hpieces, hs⟩ := pieces_cons hc s
        obtain ⟨first, rest, hfirst⟩ := List.exists_cons_of_ne_nil hs
        rw [hfirst, List.countP_cons] at ih
        rw [hpieces, hfirst, List.modifyHead_cons, List.countP_cons_of_pos (by simp),
          List.length_cons]
        omega

/-! ## The end of a body -/

/-- What is cut off at the end stands for nothing. -/
theorem filterMap_trimEnd (parts : List (List Char)) :
    (trimEnd parts).filterMap component? = parts.filterMap component? := by
  induction parts using List.reverseRecOn with
  | nil => rfl
  | append_singleton parts last ih =>
      change (List.rdropWhile isEmptyPiece (parts ++ [last])).filterMap component? = _
      by_cases hlast : isEmptyPiece last = true
      · rw [List.rdropWhile_concat_pos _ _ _ hlast, List.filterMap_append]
        rw [show [last].filterMap component? = [] by simp [component?_eq_none_iff.mpr hlast],
          List.append_nil]
        exact ih
      · rw [List.rdropWhile_concat_neg _ _ _ hlast]

theorem trimEnd_isPrefix (parts : List (List Char)) : trimEnd parts <+: parts :=
  List.rdropWhile_prefix isEmptyPiece parts

/-- What is left of a body ends in a piece that stands for something. -/
theorem isEmptyPiece_of_trimEnd {parts rest : List (List Char)} {last : List Char}
    (h : trimEnd parts = rest ++ [last]) : isEmptyPiece last = false := by
  have hne : List.rdropWhile isEmptyPiece parts ≠ [] := by
    change trimEnd parts ≠ []
    simp [h]
  have hlast := List.rdropWhile_last_not isEmptyPiece parts hne
  change List.rdropWhile isEmptyPiece parts = rest ++ [last] at h
  simpa [h] using hlast

theorem trimEnd_eq_nil_iff {parts : List (List Char)} :
    trimEnd parts = [] ↔ parts.filterMap component? = [] := by
  change List.rdropWhile isEmptyPiece parts = [] ↔ _
  rw [List.rdropWhile_eq_nil_iff, List.filterMap_eq_nil_iff]
  simp only [component?_eq_none_iff]

/-! ## Spellings -/

/-- A text is spelled by a front and the pieces of a body.  The front is as
long as it can be: a body behind a leading dot starts with a slash, if there is
one at all, and a body without a front starts neither with a slash nor with a
dot step. -/
structure Spelling (s front : List Char) (body : List (List Char)) : Prop where
  text : s = front ++ ['/'].intercalate body
  slashless : ∀ piece ∈ body, '/' ∉ piece
  front : front = ['/'] ∨ front = ['.'] ∧ (∀ piece ∈ body.head?, piece = []) ∨
    front = [] ∧ ∀ piece ∈ body.head?, piece ≠ ['.'] ∧ (piece = [] → body = [[]])

/-- Every text has a spelling. -/
theorem exists_spelling (s : List Char) : ∃ front body, Spelling s front body := by
  obtain ⟨first, rest, hpieces⟩ := List.exists_cons_of_ne_nil (pieces_ne_nil s)
  have hs := intercalate_pieces s
  have hslashless : ∀ piece ∈ first :: rest, '/' ∉ piece := fun piece h =>
    slash_notMem_of_mem_pieces (hpieces ▸ h)
  by_cases hdot : first = ['.']
  · refine ⟨['.'], [] :: rest, ?_, ?_, .inr (.inl ⟨rfl, by simp⟩)⟩
    · rw [← hs, hpieces, hdot]
      cases rest <;> simp [List.intercalate_cons_cons]
    · simpa using fun piece h => hslashless piece (List.mem_cons_of_mem _ h)
  by_cases hempty : first = []
  · cases rest with
    | nil =>
        refine ⟨[], [[]], ?_, by simp, .inr (.inr ⟨rfl, by simp⟩)⟩
        rw [← hs, hpieces, hempty]
        rfl
    | cons next rest =>
        refine ⟨['/'], next :: rest, ?_, ?_, .inl rfl⟩
        · rw [← hs, hpieces, hempty, List.intercalate_cons_cons]
          rfl
        · exact fun piece h => hslashless piece (List.mem_cons_of_mem _ h)
  · refine ⟨[], first :: rest, ?_, hslashless, .inr (.inr ⟨rfl, ?_⟩)⟩
    · rw [← hs, hpieces]
      rfl
    · simp [hdot, hempty]

namespace Spelling

variable {s front : List Char} {body : List (List Char)}

/-- The body is split into its pieces again; an empty body counts as an empty
piece. -/
theorem pieces_body (h : Spelling s front body) :
    pieces (['/'].intercalate body) = body ∨
      body = [] ∧ pieces (['/'].intercalate body) = [[]] := by
  by_cases hbody : body = []
  · exact .inr ⟨hbody, by rw [hbody]; rfl⟩
  · exact .inl (pieces_intercalate hbody h.slashless)

/-- The components of the body are those of its pieces. -/
theorem filterMap_pieces (h : Spelling s front body) :
    (pieces (['/'].intercalate body)).filterMap component? = body.filterMap component? := by
  rcases h.pieces_body with hpieces | ⟨rfl, hpieces⟩
  · rw [hpieces]
  · rw [hpieces]
    rfl

/-- What is left of the body is found in its pieces. -/
theorem trimEnd_pieces (h : Spelling s front body) :
    trimEnd (pieces (['/'].intercalate body)) = trimEnd body := by
  rcases h.pieces_body with hpieces | ⟨rfl, hpieces⟩
  · rw [hpieces]
  · rw [hpieces]
    rfl

/-- Behind a leading dot the pieces of the text are a dot and those of the body
but for the first, empty one. -/
theorem pieces_of_dot (h : Spelling s front body) (hfront : front = ['.']) :
    pieces s = ['.'] :: body.tail ∧ body.filterMap component? = body.tail.filterMap component? := by
  have htext := h.text
  have hslashless := h.slashless
  have hfirst : ∀ piece ∈ body.head?, piece = [] := by
    rcases h.front with hroot | ⟨-, hfirst⟩ | ⟨hnone, -⟩
    · exact absurd (hroot.symm.trans hfront) (by decide)
    · exact hfirst
    · exact absurd (hnone.symm.trans hfront) (by decide)
  cases body with
  | nil =>
      rw [htext, hfront]
      exact ⟨by decide, rfl⟩
  | cons piece rest =>
      obtain rfl : piece = [] := hfirst piece rfl
      refine ⟨?_, rfl⟩
      rw [htext, hfront]
      cases rest with
      | nil => decide
      | cons next rest =>
          rw [List.intercalate_cons_cons]
          change pieces (['.'] ++ '/' :: ['/'].intercalate (next :: rest)) = _
          rw [List.singleton_append, (pieces_cons (by decide) _).1, pieces_slash,
            pieces_intercalate (by simp) fun piece hp => hslashless piece (.tail _ hp)]
          rfl

/-- Without a front the text starts neither with a slash nor with a dot
step. -/
theorem pieces_of_none (h : Spelling s front body) (hfront : front = []) :
    s.head? ≠ some '/' ∧ (pieces s).head? ≠ some ['.'] := by
  have htext := h.text
  have hslashless := h.slashless
  have hfirst : ∀ piece ∈ body.head?, piece ≠ ['.'] ∧ (piece = [] → body = [[]]) := by
    rcases h.front with hroot | ⟨hdot, -⟩ | ⟨-, hfirst⟩
    · exact absurd (hroot.symm.trans hfront) (by decide)
    · exact absurd (hdot.symm.trans hfront) (by decide)
    · exact hfirst
  rw [hfront, List.nil_append] at htext
  cases body with
  | nil =>
      rw [htext]
      decide
  | cons piece rest =>
      obtain ⟨hdot, hempty⟩ := hfirst piece rfl
      refine ⟨?_, ?_⟩
      · cases piece with
        | nil =>
            rw [htext, hempty rfl]
            decide
        | cons c piece =>
            have hc : c ≠ '/' := fun h => hslashless (c :: piece) (.head _) (h ▸ .head _)
            rw [htext]
            cases rest <;> simpa [List.intercalate_cons_cons] using hc
      · rw [htext, pieces_intercalate (by simp) hslashless]
        simpa using hdot

/-- The front is as long as the text says. -/
theorem frontLength_eq (h : Spelling s front body) : frontLength s = front.length := by
  rcases h.front with hroot | ⟨hdot, -⟩ | ⟨hnone, -⟩
  · rw [frontLength, if_pos (.inl (by rw [h.text, hroot]; rfl)), hroot]
    rfl
  · rw [frontLength, if_pos (.inr (by rw [(h.pieces_of_dot hdot).1]; rfl)), hdot]
    rfl
  · obtain ⟨hslash, hpiece⟩ := h.pieces_of_none hnone
    rw [frontLength, if_neg (not_or.mpr ⟨hslash, hpiece⟩), hnone]
    rfl

/-- A text starts at the root just if its front is the root. -/
theorem head?_eq_slash_iff (h : Spelling s front body) :
    s.head? = some '/' ↔ front = ['/'] := by
  rcases h.front with hroot | ⟨hdot, -⟩ | ⟨hnone, -⟩
  · exact iff_of_true (by rw [h.text, hroot]; rfl) hroot
  · refine iff_of_false ?_ (by rw [hdot]; decide)
    rw [h.text, hdot]
    simp
  · exact iff_of_false (h.pieces_of_none hnone).1 (by rw [hnone]; decide)

/-- The components of a path are the leading dot, if there is one, and those of
the body. -/
theorem components_eq {path : String} (h : Spelling path.toList front body) :
    components path =
      (if front = ['.'] then [.here] else []) ++ body.filterMap component? := by
  rw [components]
  rcases h.front with hroot | ⟨hdot, -⟩ | ⟨hnone, -⟩
  · have hpieces : pieces path.toList = [] :: pieces (['/'].intercalate body) := by
      rw [h.text, hroot]
      rfl
    simp [hpieces, hroot, ← h.filterMap_pieces, component?]
  · obtain ⟨hpieces, htail⟩ := h.pieces_of_dot hdot
    simp [hpieces, hdot, htail, component?]
  · have hpieces : pieces path.toList = pieces (['/'].intercalate body) := by
      rw [h.text, hnone]
      rfl
    simp [(h.pieces_of_none hnone).2, hnone]
    rw [hpieces, h.filterMap_pieces]

/-- The step to the directory above, in terms of the spelling. -/
theorem parent?_eq {path : String} (h : Spelling path.toList front body) :
    parent? path =
      if trimEnd body = [] then if front = ['.'] then some "" else none
      else some (String.ofList (front ++ ['/'].intercalate (trimEnd (trimEnd body).dropLast))) := by
  rw [parent?]
  simp only [h.frontLength_eq]
  have htake : path.toList.take front.length = front := by
    rw [h.text, List.take_left]
  have hdrop : path.toList.drop front.length = ['/'].intercalate body := by
    rw [h.text, List.drop_left]
  rw [htake, hdrop, h.trimEnd_pieces]
  cases trimEnd body <;> rfl

/-- What is left without the last piece that stands for something has the same
front. -/
theorem parent (h : Spelling s front body) {rest : List (List Char)} {last : List Char}
    (hbody : trimEnd body = rest ++ [last]) :
    Spelling (front ++ ['/'].intercalate (trimEnd rest)) front (trimEnd rest) := by
  have hbegin : trimEnd rest <+: body := by
    have hrest : rest <+: trimEnd body := hbody ▸ List.prefix_append rest [last]
    exact (trimEnd_isPrefix rest).trans (hrest.trans (trimEnd_isPrefix body))
  have hhead : ∀ piece ∈ (trimEnd rest).head?, piece ∈ body.head? := by
    obtain ⟨more, hmore⟩ := hbegin
    intro piece hpiece
    rw [← hmore]
    cases htrim : trimEnd rest with
    | nil => simp [htrim] at hpiece
    | cons first others => simpa [htrim] using hpiece
  refine ⟨rfl, fun piece hp => h.slashless piece (hbegin.subset hp), ?_⟩
  rcases h.front with hroot | ⟨hdot, hfirst⟩ | ⟨hnone, hfirst⟩
  · exact .inl hroot
  · exact .inr (.inl ⟨hdot, fun piece hp => hfirst piece (hhead piece hp)⟩)
  · refine .inr (.inr ⟨hnone, fun piece hp => ⟨(hfirst piece (hhead piece hp)).1, ?_⟩⟩)
    intro hempty
    -- a body of one empty piece has no last piece to cut off
    have hsingle := (hfirst piece (hhead piece hp)).2 hempty
    rw [hsingle] at hbody
    have hnothing : rest ++ [last] = [] := hbody.symm.trans (by decide)
    simp at hnothing

end Spelling

/-! ## The directory above -/

/-- What the path above a path is spelled like, or that there is nothing but a
leading dot or the root. -/
theorem parent?_cases {path : String} {front : List Char} {body : List (List Char)}
    (h : Spelling path.toList front body) :
    (components path = [] ∧ parent? path = none) ∨
      (components path = [.here] ∧ front = ['.'] ∧ parent? path = some "") ∨
      ∃ above rest last, parent? path = some above ∧
        Spelling above.toList front (trimEnd rest) ∧
        components path = components above ++ [last] := by
  have hcomponents := h.components_eq
  have hparent := h.parent?_eq
  rcases List.eq_nil_or_concat' (trimEnd body) with hnil | ⟨rest, last, hlast⟩
  · rw [trimEnd_eq_nil_iff.mp hnil] at hcomponents
    rw [if_pos hnil] at hparent
    by_cases hdot : front = ['.']
    · exact .inr (.inl ⟨by simpa [hdot] using hcomponents, hdot, by simpa [hdot] using hparent⟩)
    · exact .inl ⟨by simpa [hdot] using hcomponents, by simpa [hdot] using hparent⟩
  · have habove : Spelling (String.ofList (front ++ ['/'].intercalate (trimEnd rest))).toList front
        (trimEnd rest) := by simpa using h.parent hlast
    obtain ⟨component, hcomponent⟩ : ∃ c, component? last = some c := by
      rw [← Option.ne_none_iff_exists', Ne, component?_eq_none_iff]
      simp [isEmptyPiece_of_trimEnd hlast]
    refine .inr (.inr ⟨String.ofList (front ++ ['/'].intercalate (trimEnd rest)), rest, component,
      ?_, habove, ?_⟩)
    · rw [hparent, hlast, if_neg (by simp), List.dropLast_concat]
    · rw [hcomponents, habove.components_eq, filterMap_trimEnd, ← filterMap_trimEnd body, hlast]
      simp [hcomponent]

/-- The path above has the same components but for the last one. -/
theorem components_of_parent? {path above : String} (h : parent? path = some above) :
    ∃ last, components path = components above ++ [last] := by
  obtain ⟨front, body, hspelling⟩ := exists_spelling path.toList
  rcases parent?_cases hspelling with ⟨-, hnone⟩ | ⟨hhere, -, hsome⟩ |
    ⟨above', rest, last, hsome, -, hcomponents⟩
  · rw [hnone] at h
    cases h
  · obtain rfl : "" = above := Option.some.inj (hsome.symm.trans h)
    exact ⟨.here, hhere⟩
  · obtain rfl : above' = above := Option.some.inj (hsome.symm.trans h)
    exact ⟨last, hcomponents⟩

/-- Only a path without components has none above it. -/
theorem parent?_eq_none_iff {path : String} : parent? path = none ↔ components path = [] := by
  obtain ⟨front, body, hspelling⟩ := exists_spelling path.toList
  rcases parent?_cases hspelling with ⟨hnil, hnone⟩ | ⟨hhere, -, hsome⟩ |
    ⟨above, rest, last, hsome, -, hcomponents⟩
  · exact iff_of_true hnone hnil
  · exact iff_of_false (by simp [hsome]) (by simp [hhere])
  · exact iff_of_false (by simp [hsome]) (by simp [hcomponents])

/-- The path above starts where the path does. -/
theorem isAbsolute_of_parent? {path above : String} (h : parent? path = some above) :
    isAbsolute above = isAbsolute path := by
  obtain ⟨front, body, hspelling⟩ := exists_spelling path.toList
  have hpath : isAbsolute path = decide (front = ['/']) := by
    rw [isAbsolute, decide_eq_decide]
    exact hspelling.head?_eq_slash_iff
  rcases parent?_cases hspelling with ⟨-, hnone⟩ | ⟨-, hdot, hsome⟩ |
    ⟨above', rest, last, hsome, hspelled, -⟩
  · rw [hnone] at h
    cases h
  · obtain rfl : "" = above := Option.some.inj (hsome.symm.trans h)
    rw [hpath, hdot]
    decide
  · obtain rfl : above' = above := Option.some.inj (hsome.symm.trans h)
    rw [hpath, isAbsolute, decide_eq_decide]
    exact hspelled.head?_eq_slash_iff

/-- A path that starts nowhere and leads nowhere is the empty text. -/
theorem eq_empty_of_components_eq_nil {path : String} (h : components path = [])
    (habsolute : isAbsolute path = false) : path = "" := by
  obtain ⟨front, body, hspelling⟩ := exists_spelling path.toList
  have hcomponents := hspelling.components_eq
  rw [h] at hcomponents
  obtain ⟨hnodot, hbody⟩ := List.append_eq_nil_iff.mp hcomponents.symm
  have htext := hspelling.text
  rcases hspelling.front with hroot | ⟨hdot, -⟩ | ⟨hnone, hfirst⟩
  · simp [isAbsolute, hspelling.head?_eq_slash_iff, hroot] at habsolute
  · simp [hdot] at hnodot
  · rw [← String.toList_inj, htext, hnone]
    cases body with
    | nil => rfl
    | cons piece rest =>
        have hempty :=
          component?_eq_none_iff.mp (List.filterMap_eq_nil_iff.mp hbody piece (.head _))
        obtain rfl | rfl : piece = [] ∨ piece = ['.'] := by simpa [isEmptyPiece] using hempty
        · rw [(hfirst [] rfl).2 rfl]
          rfl
        · exact absurd rfl (hfirst ['.'] rfl).1

/-- A path has no more components than characters. -/
theorem length_components_le (path : String) : (components path).length ≤ path.length := by
  have hcount := countP_pieces_le path.toList
  rw [String.length_toList] at hcount
  refine le_trans ?_ hcount
  have hle : ∀ parts : List (List Char),
      (parts.filterMap component?).length ≤ parts.countP fun piece => piece ≠ [] := by
    intro parts
    rw [List.length_filterMap_eq_countP]
    refine List.countP_mono_left fun piece _ hpiece => ?_
    simp only [decide_eq_true_eq]
    rintro rfl
    simp [component?] at hpiece
  rw [components]
  obtain ⟨first, rest, hpieces⟩ := List.exists_cons_of_ne_nil (pieces_ne_nil path.toList)
  by_cases hdot : first = ['.']
  · simp only [hpieces, hdot]
    have := hle rest
    simp [component?] at this ⊢
    omega
  · simpa [hpieces, hdot] using hle (first :: rest)

end CommandSchema.Path
