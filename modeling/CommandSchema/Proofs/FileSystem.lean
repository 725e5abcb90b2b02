import CommandSchema.FileSystem
import CommandSchema.Proofs.Ancestors

/-!
# CommandSchema.Proofs.FileSystem

What writing a file does to the file system.

A path leads along a trail of locations (`FileSystem.trail`), and steps lead on
as long as the locations of the trail are directories.  Making directories
fills in those that are missing and fails where a file stands on the trail.
So a file can be written exactly when its path is `Writable`, and then the file
and the missing directories of its trail are all that changes
(`writeBelow_of_writable`, `writable_of_writeBelow`).
-/

namespace CommandSchema

namespace FileSystem

variable {fs : FileSystem} {path : String} {place : Location}

/-! ## Entries -/

theorem root_is_directory (fs : FileSystem) : fs.entry? [] = some .directory := rfl

/-- Below the root an entry that is set is found, and the others are kept. -/
theorem entry_of_set (fs : FileSystem) (hplace : place ≠ []) (entry : Entry) (x : Location) :
    entry? (fs.set place entry) x = if x = place then some entry else fs.entry? x := by
  by_cases hx : x = place
  · subst hx
    simp [set, entry?, hplace]
  · have hfind : (fs.entries.filter (·.1 ≠ place)).find? (·.1 = x) =
        fs.entries.find? (·.1 = x) := by
      rw [List.find?_filter]
      congr 1
      funext e
      by_cases he : e.1 = x
      · simp [he, hx]
      · simp [he]
    rw [if_neg hx]
    simp only [set, entry?, List.find?_cons, Ne.symm hx, decide_false]
    rw [hfind]

/-- What is no directory is below the root. -/
theorem ne_nil_of_no_directory (fs : FileSystem) (h : fs.entry? place ≠ some .directory) :
    place ≠ [] :=
  fun hplace => h (hplace ▸ root_is_directory fs)

/-- Directories at some locations are all that the second file system has and
the first one may not have. -/
structure Fills (fs made : FileSystem) (places : List Location) : Prop where
  current : made.current = fs.current
  entries : ∀ x, made.entry? x = if x ∈ places then some .directory else fs.entry? x

theorem fills_self {places : List Location}
    (h : ∀ x ∈ places, fs.entry? x = some .directory) : fs.Fills fs places := by
  refine ⟨rfl, fun x => ?_⟩
  split
  · next hx => exact h x hx
  · rfl

theorem Fills.append {made made' : FileSystem} {places places' : List Location}
    (h : fs.Fills made places) (h' : made.Fills made' places') :
    fs.Fills made' (places ++ places') := by
  refine ⟨h'.current.trans h.current, fun x => ?_⟩
  rw [h'.entries, h.entries]
  by_cases hx : x ∈ places <;> by_cases hx' : x ∈ places' <;> simp [hx, hx']

/-! ## Trails -/

/-- The location that one step leads to. -/
def next (place : Location) : Path.Component → Location
  | .here => place
  | .up => place.dropLast
  | .name name => place ++ [name]

/-- The location that steps lead to, whether it is there or not. -/
def goalOf (place : Location) (steps : List Path.Component) : Location := steps.foldl next place

/-- The locations that steps pass, from the start to the last one. -/
def trail (place : Location) : List Path.Component → List Location
  | [] => [place]
  | step :: steps => place :: trail (next place step) steps

theorem start_mem_trail (place : Location) (steps : List Path.Component) :
    place ∈ trail place steps := by
  cases steps <;> simp [trail]

/-- One step more adds its goal to the trail. -/
theorem trail_concat (place : Location) (steps : List Path.Component) (last : Path.Component) :
    trail place (steps ++ [last]) = trail place steps ++ [goalOf place (steps ++ [last])] := by
  induction steps generalizing place with
  | nil => rfl
  | cons step steps ih => simp [trail, ih, goalOf]

/-- A step leads on from a directory. -/
theorem walk_cons (fs : FileSystem) (place : Location) (step : Path.Component)
    (steps : List Path.Component) :
    fs.walk place (step :: steps) =
      match fs.entry? place with
      | none => .error .notFound
      | some (.file _) => .error .notDirectory
      | some .directory => fs.walk (next place step) steps := by
  cases step <;> rfl

/-- Steps lead on through directories. -/
theorem walk_of_directories {steps : List Path.Component} {last : Path.Component}
    (h : ∀ x ∈ trail place steps, fs.entry? x = some .directory) :
    fs.walk place (steps ++ [last]) = .ok (goalOf place (steps ++ [last])) := by
  induction steps generalizing place with
  | nil =>
      rw [List.nil_append, walk_cons, h place (.head _)]
      rfl
  | cons step steps ih =>
      rw [List.cons_append, walk_cons, h place (.head _)]
      exact ih fun x hx => h x (.tail _ hx)

/-- Where steps lead on, all locations before the last step are directories. -/
theorem directories_of_walk {steps : List Path.Component} {last : Path.Component} {goal : Location}
    (h : fs.walk place (steps ++ [last]) = .ok goal) :
    ∀ x ∈ trail place steps, fs.entry? x = some .directory := by
  induction steps generalizing place with
  | nil =>
      intro x hx
      obtain rfl : x = place := by simpa [trail] using hx
      rw [List.nil_append, walk_cons] at h
      split at h
      · cases h
      · cases h
      · assumption
  | cons step steps ih =>
      rw [List.cons_append, walk_cons] at h
      split at h
      · cases h
      · cases h
      · next hplace =>
          intro x hx
          rcases List.mem_cons.mp hx with rfl | hx
          · exact hplace
          · exact ih h x hx

/-- Where no file stands on the trail, nothing but a missing directory is in
the way. -/
theorem walk_eq_notFound {steps : List Path.Component} {last : Path.Component}
    (hfree : ∀ x ∈ trail place steps, fs.entry? x = none ∨ fs.entry? x = some .directory)
    (h : ¬ ∀ x ∈ trail place steps, fs.entry? x = some .directory) :
    fs.walk place (steps ++ [last]) = .error .notFound := by
  induction steps generalizing place with
  | nil =>
      rcases hfree place (.head _) with hnone | hplace
      · rw [List.nil_append, walk_cons, hnone]
      · exact absurd (by simpa [trail] using hplace) h
  | cons step steps ih =>
      rcases hfree place (.head _) with hnone | hplace
      · rw [List.cons_append, walk_cons, hnone]
      · rw [List.cons_append, walk_cons, hplace]
        refine ih (fun x hx => hfree x (.tail _ hx)) fun hall => h fun x hx => ?_
        rcases List.mem_cons.mp hx with rfl | hx
        · exact hplace
        · exact hall x hx

/-! ## Paths -/

/-- The location where a path starts. -/
def start (fs : FileSystem) (path : String) : Location :=
  if Path.isAbsolute path then [] else fs.current

/-- The location that a path names, whether it is there or not. -/
def goal (fs : FileSystem) (path : String) : Location :=
  goalOf (fs.start path) (Path.components path)

/-- The locations that a path passes on the way to its goal. -/
def parents (fs : FileSystem) (path : String) : List Location :=
  trail (fs.start path) (Path.components path).dropLast

/-- Paths start in the same place as those above them, and pass the trails of
those. -/
theorem parents_of_parent? (fs : FileSystem) {above : String}
    (h : Path.parent? path = some above) :
    fs.start above = fs.start path ∧
      trail (fs.start above) (Path.components above) = fs.parents path := by
  have hstart : fs.start above = fs.start path := by
    rw [start, start, Path.isAbsolute_of_parent? h]
  obtain ⟨last, hcomponents⟩ := Path.components_of_parent? h
  rw [parents, hcomponents, List.dropLast_concat, hstart]
  exact ⟨rfl, rfl⟩

/-- The trail of a path with components is what it passes and its goal. -/
theorem trail_components (hpath : Path.components path ≠ []) :
    trail (fs.start path) (Path.components path) = fs.parents path ++ [fs.goal path] := by
  rw [parents, goal]
  obtain hnil | ⟨above, last, hlast⟩ := List.eq_nil_or_concat' (Path.components path)
  · exact absurd hnil hpath
  · rw [hlast, List.dropLast_concat, trail_concat]

theorem ne_empty_of_components_ne (hpath : Path.components path ≠ []) : path ≠ "" := by
  rintro rfl
  exact hpath (by decide)

/-- The walk along a path with components. -/
theorem locate_eq_walk (fs : FileSystem) (hpath : Path.components path ≠ []) :
    ∃ last, fs.locate path =
      fs.walk (fs.start path) ((Path.components path).dropLast ++ [last]) ∧
      goalOf (fs.start path) ((Path.components path).dropLast ++ [last]) = fs.goal path := by
  obtain hnil | ⟨above, last, hlast⟩ := List.eq_nil_or_concat' (Path.components path)
  · exact absurd hnil hpath
  · refine ⟨last, ?_, ?_⟩
    · rw [locate, if_neg (by simpa using ne_empty_of_components_ne hpath), hlast,
        List.dropLast_concat]
      rfl
    · rw [goal, hlast, List.dropLast_concat]

/-- A path leads to its goal just if it passes directories. -/
theorem locate_eq_ok_iff (hpath : Path.components path ≠ []) :
    fs.locate path = .ok place ↔
      (∀ x ∈ fs.parents path, fs.entry? x = some .directory) ∧ place = fs.goal path := by
  obtain ⟨last, hlocate, hgoal⟩ := locate_eq_walk fs hpath
  rw [hlocate, parents, ← hgoal]
  constructor
  · intro h
    have hall := directories_of_walk h
    exact ⟨hall, (Except.ok.inj ((walk_of_directories hall).symm.trans h)).symm⟩
  · rintro ⟨hall, rfl⟩
    exact walk_of_directories hall

/-- The root is located. -/
theorem locate_of_root (habsolute : Path.isAbsolute path = true)
    (hnil : Path.components path = []) : fs.locate path = .ok [] := by
  have hpath : path.isEmpty = false := by
    rw [Bool.eq_false_iff]
    intro hempty
    obtain rfl : path = "" := by simpa using hempty
    exact absurd habsolute (by decide)
  rw [locate, hpath, if_pos habsolute, hnil]
  rfl

/-! ## Making directories -/

/-- Making a directory depends on what is there. -/
theorem makeDirectory_of_locate (h : fs.locate path = .ok place) :
    fs.makeDirectory path =
      match fs.entry? place with
      | some _ => .error .alreadyExists
      | none => .ok (fs.set place .directory) := by
  rw [makeDirectory, h]
  rfl

theorem isDirectory_of_locate (h : fs.locate path = .ok place)
    (hplace : fs.entry? place = some .directory) : fs.isDirectory path = true := by
  rw [isDirectory, h]
  exact decide_eq_true hplace

/-- In a directory, where no file stands, a directory is made or is there
already. -/
theorem makeDirectory_of_directories (hpath : Path.components path ≠ [])
    (hparents : ∀ x ∈ fs.parents path, fs.entry? x = some .directory)
    (hgoal : fs.entry? (fs.goal path) = none ∨ fs.entry? (fs.goal path) = some .directory) :
    ∃ made, fs.Fills made [fs.goal path] ∧
      (fs.makeDirectory path = .ok made ∨
        fs.makeDirectory path = .error .alreadyExists ∧ fs.isDirectory path = true ∧
          made = fs) := by
  have hlocate := (locate_eq_ok_iff hpath).mpr ⟨hparents, rfl⟩
  rw [makeDirectory_of_locate hlocate]
  rcases hgoal with hnone | hdirectory
  · have hbelow : fs.goal path ≠ [] := ne_nil_of_no_directory fs (by simp [hnone])
    refine ⟨fs.set (fs.goal path) .directory, ⟨rfl, fun x => ?_⟩, .inl (by rw [hnone])⟩
    simp [entry_of_set fs hbelow]
  · refine ⟨fs, fills_self (by simpa using hdirectory), .inr ⟨by rw [hdirectory], ?_, rfl⟩⟩
    exact isDirectory_of_locate hlocate hdirectory

/-- Where a path passes directories only, one directory is made at most. -/
theorem makeAll_of_directories (hpath : Path.components path ≠ [])
    (hparents : ∀ x ∈ fs.parents path, fs.entry? x = some .directory)
    (hgoal : fs.entry? (fs.goal path) = none ∨ fs.entry? (fs.goal path) = some .directory)
    (above : List String) :
    ∃ made, fs.makeAll (path :: above) = (made, none) ∧
      fs.Fills made (fs.parents path ++ [fs.goal path]) := by
  obtain ⟨made, hfills, hmake⟩ := makeDirectory_of_directories hpath hparents hgoal
  refine ⟨made, ?_, (fills_self hparents).append hfills⟩
  rw [makeAll, if_neg (by simpa using ne_empty_of_components_ne hpath)]
  rcases hmake with hok | ⟨hexists, hisDirectory, rfl⟩
  · rw [hok]
  · rw [hexists, hisDirectory]
    rfl

/-- Where a directory is missing, those above are made first. -/
theorem makeAll_of_missing (hpath : Path.components path ≠ []) {next : FileSystem}
    {above : List String} (hmissing : fs.makeDirectory path = .error .notFound)
    (habove : fs.makeAll above = (next, none)) (hfills : fs.Fills next (fs.parents path))
    (hgoal : fs.entry? (fs.goal path) = none ∨ fs.entry? (fs.goal path) = some .directory) :
    ∃ made, fs.makeAll (path :: above) = (made, none) ∧
      fs.Fills made (fs.parents path ++ [fs.goal path]) := by
  have hstart : next.start path = fs.start path := by rw [start, start, hfills.current]
  have hparents' : next.parents path = fs.parents path := by rw [parents, parents, hstart]
  have hgoal' : next.goal path = fs.goal path := by rw [goal, goal, hstart]
  obtain ⟨made, hmade, hmake⟩ := @makeDirectory_of_directories next path hpath
    (fun x hx => by rw [hfills.entries, if_pos (hparents' ▸ hx)])
    (by
      rw [hgoal', hfills.entries]
      split
      · exact .inr rfl
      · exact hgoal)
  refine ⟨made, ?_, hfills.append (hgoal' ▸ hmade)⟩
  rw [makeAll, if_neg (by simpa using ne_empty_of_components_ne hpath), hmissing]
  simp only [habove]
  rcases hmake with hok | ⟨hexists, hisDirectory, rfl⟩
  · rw [hok]
  · rw [hexists, hisDirectory]
    rfl

/-- Where no file stands on the trail of a path, its missing directories are
made, and nothing else changes. -/
theorem makeAll_ancestors {limit : Nat} (hlimit : (Path.components path).length < limit)
    (hstart : fs.entry? (fs.start path) = some .directory)
    (hfree : ∀ x ∈ trail (fs.start path) (Path.components path),
      fs.entry? x = none ∨ fs.entry? x = some .directory) :
    ∃ made, fs.makeAll (Path.ancestors limit path) = (made, none) ∧
      fs.Fills made (trail (fs.start path) (Path.components path)) := by
  induction limit generalizing path with
  | zero => omega
  | succ limit ih =>
      rw [Path.ancestors]
      by_cases hpath : Path.components path = []
      · refine ⟨fs, ?_, ?_⟩
        · rw [makeAll]
          split
          · rfl
          · next hempty =>
              have habsolute : Path.isAbsolute path = true := by
                by_contra hrelative
                rw [Bool.not_eq_true] at hrelative
                exact hempty (by simp [Path.eq_empty_of_components_eq_nil hpath hrelative])
              have hlocate : fs.locate path = .ok [] := locate_of_root habsolute hpath
              rw [makeDirectory_of_locate hlocate, root_is_directory,
                isDirectory_of_locate hlocate (root_is_directory fs)]
              rfl
        · exact fills_self (by simpa [hpath, trail] using hstart)
      · rw [trail_components hpath] at hfree ⊢
        have hgoal := hfree (fs.goal path) (List.mem_append_right _ (List.mem_singleton_self _))
        by_cases hparents : ∀ x ∈ fs.parents path, fs.entry? x = some .directory
        · exact makeAll_of_directories hpath hparents hgoal _
        · cases habove : Path.parent? path with
          | none => exact absurd (Path.parent?_eq_none_iff.mp habove) hpath
          | some above =>
              obtain ⟨hstart', htrail⟩ := parents_of_parent? fs habove
              obtain ⟨last, hlast⟩ := Path.components_of_parent? habove
              have hfree' := fun x (hx : x ∈ fs.parents path) => hfree x (List.mem_append_left _ hx)
              obtain ⟨next, hnext, hfills⟩ := @ih above
                (by simp [hlast] at hlimit; omega) (hstart'.symm ▸ hstart) (htrail.symm ▸ hfree')
              obtain ⟨last, hlocate, -⟩ := locate_eq_walk fs hpath
              have hmissing : fs.makeDirectory path = .error .notFound := by
                rw [makeDirectory, hlocate, walk_eq_notFound hfree' hparents]
                rfl
              exact makeAll_of_missing hpath hmissing hnext (htrail ▸ hfills) hgoal

/-- Making a directory that is missing. -/
theorem exists_of_makeDirectory {made : FileSystem} (h : fs.makeDirectory path = .ok made) :
    ∃ place, fs.locate path = .ok place ∧ fs.entry? place = none ∧
      made = fs.set place .directory := by
  cases hlocate : fs.locate path with
  | error fault =>
      rw [makeDirectory, hlocate] at h
      cases h
  | ok place =>
      rw [makeDirectory_of_locate hlocate] at h
      cases hplace : fs.entry? place with
      | none =>
          rw [hplace] at h
          exact ⟨place, rfl, hplace, (Except.ok.inj h).symm⟩
      | some entry =>
          rw [hplace] at h
          cases h

/-- What making directories keeps: there may be a directory where there was
nothing. -/
structure Adds (fs made : FileSystem) : Prop where
  current : made.current = fs.current
  entries : ∀ x, made.entry? x = fs.entry? x ∨ fs.entry? x = none ∧ made.entry? x = some .directory

theorem adds_self (fs : FileSystem) : fs.Adds fs := ⟨rfl, fun _ => .inl rfl⟩

/-- Directories are added one after the other. -/
theorem Adds.trans {made made' : FileSystem} (h : fs.Adds made) (h' : made.Adds made') :
    fs.Adds made' := by
  refine ⟨h'.current.trans h.current, fun x => ?_⟩
  rcases h.entries x with hsame | ⟨hnone, hdirectory⟩
  · rcases h'.entries x with hsame' | ⟨hnone', hdirectory'⟩
    · exact .inl (hsame'.trans hsame)
    · exact .inr ⟨hsame ▸ hnone', hdirectory'⟩
  · rcases h'.entries x with hsame' | ⟨hnone', hdirectory'⟩
    · exact .inr ⟨hnone, hsame'.trans hdirectory⟩
    · exact .inr ⟨hnone, hdirectory'⟩

/-- Making one directory adds it. -/
theorem adds_of_makeDirectory {made : FileSystem} (h : fs.makeDirectory path = .ok made) :
    fs.Adds made := by
  obtain ⟨place, -, hplace, rfl⟩ := exists_of_makeDirectory h
  refine ⟨rfl, fun x => ?_⟩
  rw [entry_of_set fs (ne_nil_of_no_directory fs (by simp [hplace]))]
  split
  · next hx => exact .inr ⟨hx ▸ hplace, rfl⟩
  · exact .inl rfl

/-- Making directories adds directories, whether it succeeds or not. -/
theorem adds_makeAll (fs : FileSystem) (paths : List String) : fs.Adds (fs.makeAll paths).1 := by
  induction paths with
  | nil => exact adds_self fs
  | cons path above ih =>
      rw [makeAll]
      split
      · exact adds_self fs
      split
      · next made hmake => exact adds_of_makeDirectory hmake
      · split
        · next next fault habove => simpa [habove] using ih
        · next next habove =>
            have hnext : fs.Adds next := by simpa [habove] using ih
            split
            · next made hmake => exact hnext.trans (adds_of_makeDirectory hmake)
            · exact hnext
      · exact adds_self fs

/-- Where relative paths start nowhere, nothing is made. -/
theorem makeAll_of_no_start (hcurrent : fs.entry? fs.current ≠ some .directory)
    {paths : List String} (h : ∀ path ∈ paths, Path.isAbsolute path = false) :
    (fs.makeAll paths).1 = fs := by
  induction paths with
  | nil => rfl
  | cons path above ih =>
      have hrelative : Path.isAbsolute path = false := h path (.head _)
      rw [makeAll]
      split
      · rfl
      · next hempty =>
          have hpath : Path.components path ≠ [] := fun hnil =>
            hempty (by simp [Path.eq_empty_of_components_eq_nil hnil hrelative])
          have hfails : ∀ made, fs.makeDirectory path ≠ .ok made := by
            intro made hmake
            obtain ⟨place, hlocate, -⟩ := exists_of_makeDirectory hmake
            have hall := ((locate_eq_ok_iff hpath).mp hlocate).1
            refine hcurrent (hall fs.current ?_)
            have hstart : fs.start path = fs.current := by simp [start, hrelative]
            rw [parents, hstart]
            exact start_mem_trail _ _
          have hrest : (fs.makeAll above).1 = fs := ih fun path hp => h path (.tail _ hp)
          split
          · next made hmake => exact absurd hmake (hfails made)
          · split
            · next next fault habove => simpa [habove] using hrest
            · next next habove =>
                obtain rfl : next = fs := by simpa [habove] using hrest
                split
                · next made hmake => exact absurd hmake (hfails made)
                · rfl
          · rfl

/-! ## Writing -/

/-- A file can be written at a path once the directories above it are made: the
path has a name to write to, no file stands on the way, and its goal is no
directory and not one that must be there to get to it. -/
structure Writable (fs : FileSystem) (path : String) : Prop where
  named : Path.components path ≠ []
  plain : Path.namesDirectory path = false
  start : fs.entry? (fs.start path) = some .directory
  free : ∀ x ∈ fs.parents path, fs.entry? x = none ∨ fs.entry? x = some .directory
  apart : fs.goal path ∉ fs.parents path
  noDirectory : fs.entry? (fs.goal path) ≠ some .directory

/-- A file is written where a path leads and no directory stands. -/
theorem write_eq_ok_iff {bytes : ByteArray} {written : FileSystem} :
    fs.write path bytes = .ok written ↔
      ∃ place, fs.locate path = .ok place ∧ fs.entry? place ≠ some .directory ∧
        Path.namesDirectory path = false ∧ written = fs.set place (.file bytes) := by
  rw [write]
  cases fs.locate path with
  | error fault => exact iff_of_false (by rintro ⟨⟩) (by simp)
  | ok place =>
      simp only [bind, Except.bind, Except.ok.injEq, exists_eq_left']
      rcases hplace : fs.entry? place with _ | _ | _ <;>
        cases hdirectory : Path.namesDirectory path <;> simp [eq_comm]

/-- Writing a file, in terms of what is made before. -/
theorem writeBelow_eq (fs : FileSystem) (path : String) (bytes : ByteArray) :
    ∃ made fault?, fs.writeBelow path bytes =
        (match fault?, made.write path bytes with
        | some fault, _ => (made, some fault)
        | none, .error fault => (made, some fault)
        | none, .ok written => (written, none)) ∧
      fs.Adds made ∧
      ∀ above, Path.parent? path = some above → fs.makeDirectories above = (made, fault?) := by
  cases habove : Path.parent? path with
  | none =>
      refine ⟨fs, none, ?_, adds_self fs, nofun⟩
      rewrite [writeBelow, habove]
      rfl
  | some above =>
      refine ⟨(fs.makeDirectories above).1, (fs.makeDirectories above).2, ?_, adds_makeAll fs _, ?_⟩
      · rewrite [writeBelow, habove]
        rfl
      · rintro _ ⟨⟩
        rfl

/-- The file that a path names, with the given bytes, and directories where the
path passes are all that the second file system has and the first one may not
have. -/
structure Writes (fs written : FileSystem) (path : String) (bytes : ByteArray) : Prop where
  current : written.current = fs.current
  entries : ∀ x, written.entry? x =
    if x = fs.goal path then some (.file bytes)
    else if x ∈ fs.parents path then some .directory
    else fs.entry? x

/-- **Writing a file** at a writable path makes the missing directories that
the path passes and the file, and keeps all else as it is. -/
theorem writeBelow_of_writable (h : fs.Writable path) (bytes : ByteArray) :
    ∃ written, fs.writeBelow path bytes = (written, none) ∧ fs.Writes written path bytes := by
  obtain ⟨made, fault?, hwrite, -, hmade⟩ := writeBelow_eq fs path bytes
  cases habove : Path.parent? path with
  | none => exact absurd (Path.parent?_eq_none_iff.mp habove) h.named
  | some above =>
      obtain ⟨hstart, htrail⟩ := parents_of_parent? fs habove
      obtain ⟨next, hnext, hfills⟩ := @makeAll_ancestors fs above _
        (Nat.lt_succ_of_le (Path.length_components_le above)) (hstart.symm ▸ h.start)
        (htrail.symm ▸ h.free)
      rw [htrail] at hfills
      obtain ⟨rfl, rfl⟩ : next = made ∧ none = fault? :=
        Prod.mk.inj (hnext.symm.trans (hmade above habove))
      have hsame : next.start path = fs.start path := by
        rw [FileSystem.start, FileSystem.start, hfills.current]
      have hparents : next.parents path = fs.parents path := by rw [parents, parents, hsame]
      have hgoal : next.goal path = fs.goal path := by rw [goal, goal, hsame]
      have hlocate : next.locate path = .ok (fs.goal path) :=
        (locate_eq_ok_iff h.named).mpr ⟨fun x hx => by
          rw [hfills.entries, if_pos (hparents ▸ hx)], hgoal.symm⟩
      have hentry : next.entry? (fs.goal path) ≠ some .directory := by
        rw [hfills.entries, if_neg h.apart]
        exact h.noDirectory
      refine ⟨next.set (fs.goal path) (.file bytes), ?_, ⟨hfills.current, fun x => ?_⟩⟩
      · rw [hwrite, write_eq_ok_iff.mpr ⟨_, hlocate, hentry, h.plain, rfl⟩]
      · rw [entry_of_set next (ne_nil_of_no_directory next hentry), hfills.entries]

/-- Only at a writable path a file is written. -/
theorem writable_of_writeBelow {bytes : ByteArray} {written : FileSystem}
    (h : fs.writeBelow path bytes = (written, none)) : fs.Writable path := by
  obtain ⟨made, fault?, hwrite, hadds, hmade⟩ := writeBelow_eq fs path bytes
  rw [hwrite] at h
  obtain ⟨rfl, written', hok⟩ : fault? = none ∧ ∃ written, made.write path bytes = .ok written := by
    cases fault? with
    | some fault => cases h
    | none =>
        cases hok : made.write path bytes with
        | error fault => simp [hok] at h
        | ok written => exact ⟨rfl, written, rfl⟩
  obtain ⟨place, hlocate, hplace, hplain, -⟩ := write_eq_ok_iff.mp hok
  cases habove : Path.parent? path with
  | none =>
      -- without a name the path leads to the root or nowhere
      have hnil := Path.parent?_eq_none_iff.mp habove
      exfalso
      refine hplace ?_
      cases habsolute : Path.isAbsolute path with
      | true =>
          rw [locate_of_root habsolute hnil] at hlocate
          cases hlocate
          rfl
      | false =>
          rw [Path.eq_empty_of_components_eq_nil hnil habsolute] at hlocate
          cases hlocate
  | some above =>
      have hnamed : Path.components path ≠ [] := fun hnil => by
        rw [Path.parent?_eq_none_iff.mpr hnil] at habove
        cases habove
      have hmakes : (fs.makeDirectories above).1 = made := by rw [hmade above habove]
      obtain ⟨hparents, rfl⟩ := (locate_eq_ok_iff hnamed).mp hlocate
      have hsame : made.start path = fs.start path := by
        rw [FileSystem.start, FileSystem.start, hadds.current]
      rw [parents, hsame] at hparents
      rw [goal, hsame] at hplace
      refine ⟨hnamed, hplain, ?_, fun x hx => ?_, fun hx => hplace (hparents _ hx), ?_⟩
      · by_contra hstart
        have hrelative : Path.isAbsolute path = false := by
          by_contra habsolute
          exact hstart (by rw [FileSystem.start, if_pos (by simpa using habsolute)]; rfl)
        have hcurrent : fs.start path = fs.current := by simp [FileSystem.start, hrelative]
        have hsame : made = fs := by
          rw [← hmakes]
          refine makeAll_of_no_start (hcurrent ▸ hstart) fun other hother => ?_
          rw [Path.isAbsolute_of_mem_ancestors hother, Path.isAbsolute_of_parent? habove, hrelative]
        rw [hsame] at hparents
        exact hstart (hparents _ (start_mem_trail _ _))
      · rcases hadds.entries x with hsame | ⟨hnone, -⟩
        · exact .inr (hsame ▸ hparents x hx)
        · exact .inl hnone
      · intro hdirectory
        rcases hadds.entries (fs.goal path) with hsame | ⟨hnone, -⟩
        · exact hplace (hsame.trans hdirectory)
        · rw [hnone] at hdirectory
          cases hdirectory

/-- At any other path no more than directories are made, and why is said. -/
theorem writeBelow_of_not_writable (h : ¬ fs.Writable path) (bytes : ByteArray) :
    ∃ made fault, fs.writeBelow path bytes = (made, some fault) ∧ fs.Adds made := by
  obtain ⟨made, fault?, hwrite, hadds, -⟩ := writeBelow_eq fs path bytes
  cases fault? with
  | some fault => exact ⟨made, fault, hwrite, hadds⟩
  | none =>
      cases hok : made.write path bytes with
      | error fault => exact ⟨made, fault, by rw [hwrite, hok], hadds⟩
      | ok written =>
          rw [hok] at hwrite
          exact absurd (writable_of_writeBelow hwrite) h

/-- What was written is read again. -/
theorem Writes.read {written : FileSystem} {text : String}
    (h : fs.Writes written path text.toUTF8) (hwritable : fs.Writable path) :
    written.read path = .ok text := by
  have hsame : written.start path = fs.start path := by
    rw [FileSystem.start, FileSystem.start, h.current]
  have hlocate : written.locate path = .ok (fs.goal path) := by
    refine (locate_eq_ok_iff hwritable.named).mpr ⟨fun x hx => ?_, by rw [goal, goal, hsame]⟩
    have hx : x ∈ fs.parents path := by rwa [parents, ← hsame]
    have hapart : x ≠ fs.goal path := fun hgoal => hwritable.apart (hgoal ▸ hx)
    rw [h.entries, if_neg hapart, if_pos hx]
  have hentry : written.entry? (fs.goal path) = some (.file text.toUTF8) := by
    rw [h.entries, if_pos rfl]
  have htext : String.fromUTF8? text.toUTF8 = some text := by
    unfold String.fromUTF8?
    exact dif_pos text.isValidUTF8
  simp only [FileSystem.read, hlocate, bind, Except.bind, hentry, hwritable.plain,
    Bool.false_eq_true, if_false, htext]

end FileSystem

end CommandSchema
