import CommandSchema.Proofs.Path
import Mathlib.Data.List.Chain

/-!
# CommandSchema.Proofs.Ancestors

The directories that enclose a path.

The walk upwards cuts the text of the path, but what it goes through is told by
the components alone: every step drops the last one
(`ancestors_isChain`), and the walk is over when none is left.  So it has as
many paths as there are components and one more, or as many as the limit
allows (`length_ancestors`), and a larger limit only makes it longer
(`ancestors_isPrefix`).  From an absolute path it ends at the root
(`exists_getLast?_ancestors`).
-/

namespace CommandSchema.Path

/-! ## What counts as a component -/

/-- A piece stands for a component unless it is empty or a dot. -/
theorem length_filterMap_component? (parts : List (List Char)) :
    (parts.filterMap component?).length =
      parts.countP fun piece => piece ≠ [] ∧ piece ≠ ['.'] := by
  rw [List.length_filterMap_eq_countP]
  refine List.countP_congr fun piece _ => ?_
  have hnone := @component?_eq_none_iff piece
  rw [Option.isSome_iff_ne_none, ne_eq, hnone]
  simp [isEmptyPiece]

/-- Below the root every piece between slashes counts that is neither empty nor
a dot. -/
theorem length_components_of_isAbsolute {path : String} (h : isAbsolute path = true) :
    (components path).length =
      (path.toList.splitOn '/').countP fun piece => piece ≠ [] ∧ piece ≠ ['.'] := by
  have hslash : path.toList.head? = some '/' := by simpa [isAbsolute] using h
  obtain ⟨rest, hrest⟩ := List.head?_eq_some_iff.mp hslash
  rw [← pieces_eq_splitOn, ← length_filterMap_component?, components, hrest, pieces_slash]
  rfl

/-! ## The walk -/

theorem head?_ancestors {limit : Nat} (h : 0 < limit) (path : String) :
    (ancestors limit path).head? = some path := by
  obtain ⟨limit, rfl⟩ : ∃ n, limit = n + 1 := ⟨limit - 1, by omega⟩
  rw [ancestors]
  rfl

theorem ancestors_of_components_eq_nil {path : String} (h : components path = []) (limit : Nat) :
    ancestors (limit + 1) path = [path] := by
  rw [ancestors, parent?_eq_none_iff.mpr h]

/-- Any other path is followed by the one above it. -/
theorem exists_ancestors_eq_cons {path : String} (h : components path ≠ []) (limit : Nat) :
    ∃ above last, parent? path = some above ∧ components path = components above ++ [last] ∧
      ancestors (limit + 1) path = path :: ancestors limit above := by
  obtain ⟨above, habove⟩ := Option.ne_none_iff_exists'.mp (mt parent?_eq_none_iff.mp h)
  obtain ⟨last, hlast⟩ := components_of_parent? habove
  exact ⟨above, last, habove, hlast, by rw [ancestors, habove]⟩

/-- There is one path for every component, and one for what is left without
them, up to the limit. -/
theorem length_ancestors (limit : Nat) (path : String) :
    (ancestors limit path).length = min limit ((components path).length + 1) := by
  induction limit generalizing path with
  | zero => rw [ancestors, List.length_nil, Nat.zero_min]
  | succ limit ih =>
      by_cases hnil : components path = []
      · rw [ancestors_of_components_eq_nil hnil, hnil]
        simp
      · obtain ⟨above, last, -, hlast, hwalk⟩ := exists_ancestors_eq_cons hnil limit
        rw [hwalk, List.length_cons, ih above, hlast, List.length_append, List.length_singleton]
        omega

/-- Every step of the walk drops the last component. -/
theorem ancestors_isChain (limit : Nat) (path : String) :
    (ancestors limit path).IsChain fun p above =>
      ∃ last, components p = components above ++ [last] := by
  induction limit generalizing path with
  | zero => exact .nil
  | succ limit ih =>
      by_cases hnil : components path = []
      · rw [ancestors_of_components_eq_nil hnil]
        exact .singleton _
      · obtain ⟨above, last, -, hlast, hwalk⟩ := exists_ancestors_eq_cons hnil limit
        rw [hwalk]
        refine .cons (ih above) fun next hnext => ?_
        cases limit with
        | zero => cases hnext
        | succ limit =>
            rw [head?_ancestors (Nat.succ_pos limit)] at hnext
            cases hnext
            exact ⟨last, hlast⟩

/-- All paths of the walk start where the first one does. -/
theorem isAbsolute_of_mem_ancestors {limit : Nat} {path p : String}
    (h : p ∈ ancestors limit path) : isAbsolute p = isAbsolute path := by
  induction limit generalizing path with
  | zero => cases h
  | succ limit ih =>
      by_cases hnil : components path = []
      · rw [ancestors_of_components_eq_nil hnil, List.mem_singleton] at h
        rw [h]
      · obtain ⟨above, -, habove, -, hwalk⟩ := exists_ancestors_eq_cons hnil limit
        rw [hwalk] at h
        rcases List.mem_cons.mp h with rfl | h
        · rfl
        · rw [ih h, isAbsolute_of_parent? habove]

/-- A walk that is not cut short ends where no component is left. -/
theorem exists_getLast?_ancestors {limit : Nat} {path : String}
    (h : (components path).length < limit) :
    ∃ root, (ancestors limit path).getLast? = some root ∧ components root = [] := by
  induction limit generalizing path with
  | zero => cases h
  | succ limit ih =>
      by_cases hnil : components path = []
      · exact ⟨path, by rw [ancestors_of_components_eq_nil hnil]; rfl, hnil⟩
      · obtain ⟨above, last, -, hlast, hwalk⟩ := exists_ancestors_eq_cons hnil limit
        rw [hlast, List.length_append, List.length_singleton] at h
        obtain ⟨root, hroot, hempty⟩ := ih (Nat.lt_of_succ_lt_succ h)
        exact ⟨root, by rw [hwalk, List.getLast?_cons, hroot]; rfl, hempty⟩

/-- A smaller limit cuts the walk short. -/
theorem ancestors_isPrefix {m n : Nat} (h : m ≤ n) (path : String) :
    ancestors m path <+: ancestors n path := by
  induction m generalizing n path with
  | zero => exact List.nil_prefix
  | succ m ih =>
      obtain ⟨n, rfl⟩ : ∃ k, n = k + 1 := ⟨n - 1, by omega⟩
      rw [ancestors, ancestors, List.prefix_cons_inj]
      cases parent? path with
      | none => exact List.nil_prefix
      | some above => exact ih (Nat.le_of_succ_le_succ h) above

/-- **The walk visits the enclosing directories**: below the root, every piece
between slashes counts that is neither empty nor a dot.  From an absolute path
the walk has one path more than there are such pieces, or as many as the limit
allows; it starts with the path itself, every step drops exactly the last
component, and where the limit does not cut it short it ends at the root.  A
smaller limit gives a beginning of the same walk. -/
theorem ancestors_of_isAbsolute {path : String} (h : isAbsolute path = true) (limit : Nat) :
    (components path).length =
      ((path.toList.splitOn '/').countP fun piece => piece ≠ [] ∧ piece ≠ ['.']) ∧
    (ancestors limit path).length = min limit ((components path).length + 1) ∧
    (0 < limit → (ancestors limit path).head? = some path) ∧
    ((ancestors limit path).IsChain fun p above =>
      ∃ last, components p = components above ++ [last]) ∧
    ((components path).length < limit → ∃ root, (ancestors limit path).getLast? = some root ∧
      isAbsolute root = true ∧ components root = []) ∧
    ∀ m ≤ limit, ancestors m path <+: ancestors limit path := by
  refine ⟨length_components_of_isAbsolute h, length_ancestors limit path,
    fun hlimit => head?_ancestors hlimit path, ancestors_isChain limit path, fun hlimit => ?_,
    fun m hm => ancestors_isPrefix hm path⟩
  obtain ⟨root, hlast, hempty⟩ := exists_getLast?_ancestors hlimit
  have hmem : root ∈ ancestors limit path := List.mem_of_getLast? hlast
  exact ⟨root, hlast, (isAbsolute_of_mem_ancestors hmem).trans h, hempty⟩

/-- The walk from `//src/./ui/..//` goes through `//src/./ui` and `//src` to the
root. -/
theorem ancestors_of_isAbsolute_dotted :
    isAbsolute "//src/./ui/..//" = true ∧ (components "//src/./ui/..//").length = 3 ∧
    (ancestors 10 "//src/./ui/..//").length = 4 ∧
    (∃ root, (ancestors 10 "//src/./ui/..//").getLast? = some root ∧ isAbsolute root = true ∧
      components root = []) ∧
    ancestors 2 "//src/./ui/..//" <+: ancestors 10 "//src/./ui/..//" := by
  have habsolute : isAbsolute "//src/./ui/..//" = true := by decide
  have hcomponents : (components "//src/./ui/..//").length = 3 := by decide
  obtain ⟨-, hlength, -, -, hroot, hprefix⟩ := ancestors_of_isAbsolute habsolute 10
  rw [hcomponents] at hlength hroot
  exact ⟨habsolute, hcomponents, hlength, hroot (by decide), hprefix 2 (by decide)⟩

end CommandSchema.Path
