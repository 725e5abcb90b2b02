import CommandSchema.Batch
import CommandSchema.Proofs.Contract.Strictness

/-!
# CommandSchema.Proofs.Settings

Which settings a run has, and which rules they meet.

A search takes the settings of the first file that has any (`search_append`).
So the nearest file that can be read decides alone when it holds settings, but
when it does not, the search goes on to the files above it
(`discover_of_nearest`).

All settings that come from a file meet the rules, and so do the defaults.  The
strict ref check is switched on behind that, and it breaks the rule about the
wrappers just where the settings know none (`settings_valid_iff`).
-/

namespace CommandSchema

namespace Settings

variable {reading reading' : Reading} {path text : String} {s : Settings}

/-! ## Rules -/

/-- Settings that meet all rules: there are names for the integer type and for
the factories, and the strict ref check has wrappers to look for. -/
theorem fault?_eq_none_iff :
    s.fault? = none ↔ s.int32Names ≠ [] ∧ s.factoryNames ≠ [] ∧
      (s.refPolicy.check = .stringLiteral → s.refPolicy.wrappers ≠ []) := by
  rw [fault?]
  grind

theorem fault?_default : default.fault? = none := rfl

/-- What a text holds meets all rules. -/
theorem fault?_of_parse (h : parse text = .ok s) : s.fault? = none := by
  rw [parse] at h
  split at h
  · cases h
  · split at h
    · cases h
    · next hfault =>
        cases h
        exact hfault

theorem load_eq_ok_iff :
    load reading path = .ok s ↔ ∃ text, reading path = .ok text ∧ parse text = .ok s := by
  rw [load]
  cases reading path with
  | error fault => simp
  | ok text => cases hparse : parse text <;> simp [hparse, Except.mapError]

/-- Switching the strict check on keeps all other values. -/
theorem strict_values :
    s.strict.int32Names = s.int32Names ∧ s.strict.factoryNames = s.factoryNames ∧
      s.strict.refPolicy = ⟨.stringLiteral, s.refPolicy.wrappers⟩ :=
  ⟨rfl, rfl, rfl⟩

/-- Settings that meet the rules break at most the rule about the wrappers under
the strict check. -/
theorem fault?_strict (h : s.fault? = none) :
    s.strict.fault? = if s.refPolicy.wrappers = [] then some .noRefWrappers else none := by
  obtain ⟨hint32, hfactories, -⟩ := fault?_eq_none_iff.mp h
  obtain ⟨hint32', hfactories', hpolicy⟩ := @strict_values s
  rw [fault?, hint32', hfactories', hpolicy, if_neg hint32, if_neg hfactories]
  simp

/-! ## Searches -/

/-- The settings that a search through the files of a list finds. -/
def search (reading : Reading) (paths : List String) : Settings :=
  (paths.findSome? fun path => (load reading path).toOption).getD default

theorem discover_eq_search (reading : Reading) (start : String) :
    discover reading start = search reading (candidates start) := rfl

theorem search_cons_of_ok (h : load reading path = .ok s) (paths : List String) :
    search reading (path :: paths) = s := by
  rw [search, List.findSome?_cons, h]
  rfl

/-- A file that has none is passed over, whatever the reason. -/
theorem search_cons_of_error {fault : LoadFault} (h : load reading path = .error fault)
    (paths : List String) : search reading (path :: paths) = search reading paths := by
  rw [search, List.findSome?_cons, h]
  rfl

/-- Files without settings are passed over. -/
theorem search_append {before : List String}
    (h : ∀ path ∈ before, ∃ fault, load reading path = .error fault) (paths : List String) :
    search reading (before ++ paths) = search reading paths := by
  induction before with
  | nil => rfl
  | cons path before ih =>
      obtain ⟨fault, hfault⟩ := h path (by simp)
      rw [List.cons_append, search_cons_of_error hfault]
      exact ih fun path hpath => h path (by simp [hpath])

/-- What a search finds meets all rules. -/
theorem fault?_search (reading : Reading) (paths : List String) :
    (search reading paths).fault? = none := by
  induction paths with
  | nil => exact fault?_default
  | cons path paths ih =>
      cases hfirst : load reading path with
      | ok s =>
          obtain ⟨text, -, hparse⟩ := load_eq_ok_iff.mp hfirst
          rw [search_cons_of_ok hfirst]
          exact fault?_of_parse hparse
      | error fault => rwa [search_cons_of_error hfirst]

/-! ## The nearest file -/

/-- The nearest of several files that can be read: the files before it cannot,
and it holds a text. -/
structure Nearest (reading : Reading) (paths before : List String) (path : String)
    (above : List String) (text : String) : Prop where
  split : paths = before ++ path :: above
  unreadable : ∀ p ∈ before, ∃ fault, reading p = .error fault
  readable : reading path = .ok text

/-- The nearest file that can be read decides alone: the search from the start
comes to its settings, or to the defaults when it has none. -/
def NearestDecides (reading : Reading) (start : String) : Prop :=
  ∀ before path above text, Nearest reading (candidates start) before path above text →
    discover reading start = (parse text).toOption.getD default

/-- Where there is no nearest file that can be read, none can be read. -/
theorem unreadable_of_no_nearest {paths : List String}
    (h : ¬ ∃ before path above text, Nearest reading paths before path above text) :
    ∀ path ∈ paths, ∃ fault, reading path = .error fault := by
  rcases forall_or_leftmost (p := fun path => ∃ fault, reading path = .error fault) paths with
    hall | ⟨before, path, above, hsplit, hbefore, hpath⟩
  · exact hall
  · cases hread : reading path with
    | error fault => exact absurd ⟨fault, hread⟩ hpath
    | ok text => exact absurd ⟨before, path, above, text, hsplit, hbefore, hread⟩ h

theorem load_of_unreadable {fault : FileFault} (h : reading path = .error fault) :
    load reading path = .error (.unreadable path fault) := by
  rw [load, h]

/-- A search goes past the files before the nearest one. -/
theorem Nearest.search_eq {paths before above : List String}
    (h : Nearest reading paths before path above text) :
    search reading paths = search reading (path :: above) := by
  rw [h.split]
  refine search_append (fun p hp => ?_) _
  obtain ⟨fault, hfault⟩ := h.unreadable p hp
  exact ⟨_, load_of_unreadable hfault⟩

/-- Another state of the files that agrees up to the nearest one has the same
nearest one. -/
theorem Nearest.congr {paths before above : List String}
    (h : Nearest reading paths before path above text)
    (hsame : ∀ p ∈ before ++ [path], reading' p = reading p) :
    Nearest reading' paths before path above text where
  split := h.split
  unreadable p hp := hsame p (by simp [hp]) ▸ h.unreadable p hp
  readable := hsame path (by simp) ▸ h.readable

/-- The nearest file ends the search when it has settings. -/
theorem Nearest.search_of_parse_ok {paths before above : List String}
    (h : Nearest reading paths before path above text) (hparse : parse text = .ok s) :
    search reading paths = s := by
  rw [h.search_eq]
  exact search_cons_of_ok (load_eq_ok_iff.mpr ⟨text, h.readable, hparse⟩) above

/-- The search goes on above the nearest file when it has none. -/
theorem Nearest.search_of_parse_error {paths before above : List String}
    (h : Nearest reading paths before path above text) {problem : Problem}
    (hparse : parse text = .error problem) : search reading paths = search reading above := by
  have hload : load reading path = .error (.unusable path problem) := by
    rw [load, h.readable]
    simp [hparse, Except.mapError]
  rw [h.search_eq, search_cons_of_error hload]

/-- **What the nearest settings file decides**, for every state of the files and
every start.  Where no file can be read the search comes to the defaults.  A
nearest file with settings decides alone: in every other state that agrees on
it and the files before it the search finds the same.  A nearest file without
settings is passed over, and the files above it are searched.  So the nearest
file always decides alone just where nothing but the defaults is found above
one without settings. -/
theorem discover_of_nearest (reading : Reading) (start : String) :
    ((¬ ∃ before path above text, Nearest reading (candidates start) before path above text) →
      discover reading start = default) ∧
    (∀ before path above text, Nearest reading (candidates start) before path above text →
      (∀ s, parse text = .ok s →
        ∀ reading' : Reading, (∀ p ∈ before ++ [path], reading' p = reading p) →
          discover reading' start = s) ∧
      ∀ problem, parse text = .error problem → discover reading start = search reading above) ∧
    (NearestDecides reading start ↔
      ∀ before path above text problem, Nearest reading (candidates start) before path above text →
        parse text = .error problem → search reading above = default) := by
  refine ⟨fun h => ?_, fun before path above text h => ⟨fun s hparse reading' hsame => ?_,
    fun problem hparse => h.search_of_parse_error hparse⟩, fun h => ?_, fun h => ?_⟩
  · rw [discover_eq_search, ← List.append_nil (candidates start)]
    refine search_append (fun p hp => ?_) []
    obtain ⟨fault, hfault⟩ := unreadable_of_no_nearest h p hp
    exact ⟨_, load_of_unreadable hfault⟩
  · exact (h.congr hsame).search_of_parse_ok hparse
  · intro before path above text problem hnearest hparse
    rw [← hnearest.search_of_parse_error hparse, ← discover_eq_search,
      h before path above text hnearest, hparse]
    rfl
  · intro before path above text hnearest
    cases hparse : parse text with
    | ok s => exact hnearest.search_of_parse_ok hparse
    | error problem =>
        rw [discover_eq_search, hnearest.search_of_parse_error hparse,
          h before path above text problem hnearest hparse]
        rfl

/-- The text of a settings file that names a factory. -/
def factoryText : String := "[discovery]\nfactories = [\"makeCommands\"]\n"

/-- The text of a settings file that breaks a rule. -/
def namelessText : String := "[types]\nint32 = []\n"

/-- Files of which the nearest one, seen from `/a`, breaks a rule. -/
def brokenBelow : Reading
  | "/a/.command-shapes.toml" => .ok namelessText
  | "/.command-shapes.toml" => .ok factoryText
  | _ => .error .notFound

/-- The file above one that breaks a rule is used in its place. -/
theorem not_nearestDecides_brokenBelow :
    parse namelessText = .error (.invalid .noInt32Names) ∧
    (discover brokenBelow "/a").factoryNames = ["makeCommands"] ∧
    ¬ NearestDecides brokenBelow "/a" := by
  have hbroken : parse namelessText = .error (.invalid .noInt32Names) := by decide +kernel
  have habove : (search brokenBelow ["/.command-shapes.toml"]).factoryNames = ["makeCommands"] := by
    decide +kernel
  have hnearest : Nearest brokenBelow (candidates "/a") [] "/a/.command-shapes.toml"
      ["/.command-shapes.toml"] namelessText :=
    ⟨by decide +kernel, nofun, rfl⟩
  obtain ⟨-, hcases, hdecides⟩ := discover_of_nearest brokenBelow "/a"
  have hdiscover := (hcases _ _ _ _ hnearest).2 _ hbroken
  refine ⟨hbroken, hdiscover ▸ habove, fun h => ?_⟩
  rw [hdecides.mp h _ _ _ _ _ hnearest hbroken] at habove
  exact absurd habove (by decide)

end Settings

/-! ## The settings of a run -/

namespace Batch

open CommandLine (ExtractArguments)
open Settings (Reading fault?_eq_none_iff fault?_of_parse fault?_search fault?_strict
  load_eq_ok_iff)

variable {reading : Reading} {directory : String} {arguments : ExtractArguments}
  {found : Settings}

/-- The settings that a run finds: those in the file that is named, which has to
hold some, or what the search from the directory comes to. -/
def Finds (reading : Reading) (directory : String) (arguments : ExtractArguments)
    (found : Settings) : Prop :=
  match arguments.config? with
  | some path => Settings.load reading path = .ok found
  | none => Settings.discover reading directory = found

/-- What a run finds meets all rules. -/
theorem Finds.fault?_eq_none (h : Finds reading directory arguments found) :
    found.fault? = none := by
  cases hconfig : arguments.config? with
  | none =>
      obtain rfl : Settings.discover reading directory = found := by simpa [Finds, hconfig] using h
      exact fault?_search reading _
  | some path =>
      have hload : Settings.load reading path = .ok found := by simpa [Finds, hconfig] using h
      obtain ⟨text, -, hparse⟩ := load_eq_ok_iff.mp hload
      exact fault?_of_parse hparse

/-- A run that finds settings has them, with the strict check switched on where
it is asked for. -/
theorem Finds.settings_eq (h : Finds reading directory arguments found) :
    Batch.settings reading directory arguments =
      .ok (if arguments.strictRefs then found.strict else found) := by
  cases hconfig : arguments.config? with
  | none =>
      obtain rfl : Settings.discover reading directory = found := by simpa [Finds, hconfig] using h
      rw [Batch.settings, hconfig]
      rfl
  | some path =>
      have hload : Settings.load reading path = .ok found := by simpa [Finds, hconfig] using h
      rw [Batch.settings, hconfig]
      simp only [hload]
      rfl

/-- **The rules that the settings of a run meet**, wherever the run finds them.
They meet all rules unless the run asks for the strict check and they know no
wrapper.  Then the run has its settings all the same: they break the rule about
the wrappers and no other one, and no command of any type can be extracted under
them. -/
theorem settings_valid_iff (h : Finds reading directory arguments found) :
    ∃ settings, Batch.settings reading directory arguments = .ok settings ∧
      settings.refPolicy.wrappers = found.refPolicy.wrappers ∧
      (settings.fault? = none ↔
        (arguments.strictRefs = true → settings.refPolicy.wrappers ≠ [])) ∧
      settings.int32Names ≠ [] ∧ settings.factoryNames ≠ [] ∧
      (settings.fault? ≠ none → settings.fault? = some .noRefWrappers ∧
        ∀ (N T : Type) (model : TypeModel N T) (owner : N) (names : List String)
          (out : List Command),
          Contract.extract model settings.refPolicy owner names = .ok out → names = []) := by
  have hfound := h.fault?_eq_none
  obtain ⟨hint32, hfactories, -⟩ := fault?_eq_none_iff.mp hfound
  refine ⟨_, h.settings_eq, ?_⟩
  cases hstrict : arguments.strictRefs with
  | false => exact ⟨rfl, by simp [hfound], hint32, hfactories, fun hfault => absurd hfound hfault⟩
  | true =>
      have hfault := fault?_strict hfound
      rw [if_pos rfl]
      refine ⟨rfl, ?_, hint32, hfactories, fun hbroken => ?_⟩
      · have hwrappers : found.strict.refPolicy.wrappers = found.refPolicy.wrappers := rfl
        rw [hfault, hwrappers]
        split <;> simp [*]
      · rw [hfault] at hbroken ⊢
        split at hbroken
        · next hwrappers =>
            refine ⟨if_pos hwrappers, fun N T model owner names out hout => ?_⟩
            have haccepts : ∀ reference?, found.strict.refPolicy.accepts reference? = false :=
              RefPolicy.accepts_of_no_wrappers rfl hwrappers
            exact Contract.eq_nil_of_extract_eq_ok haccepts hout
        · exact absurd rfl hbroken

/-- The text of a settings file without wrappers. -/
def bareText : String := "[types]\nref_wrappers = []\n"

/-- The text of a settings file without wrappers that asks for the strict
check. -/
def bareStrictText : String := bareText ++ "[ref_check]\nmode = \"string-literal\"\n"

/-- Files with these two texts. -/
def bareFiles : Reading
  | "bare.toml" => .ok bareText
  | "strict.toml" => .ok bareStrictText
  | _ => .error .notFound

/-- A run under a named settings file, with the strict check asked for or
not. -/
def runUnder (config : String) (strictRefs : Bool) : ExtractArguments where
  files := []
  selection := .discovered
  format? := none
  output? := none
  config? := some config
  strictRefs := strictRefs
  jobs? := none

/-- Settings without wrappers are refused when the file asks for the strict
check, but not when the run does. -/
theorem settings_valid_iff_bareFiles :
    Batch.settings bareFiles "/" (runUnder "strict.toml" false) =
      .error (.unusable "strict.toml" (.invalid .noRefWrappers)) ∧
    (∃ settings, Batch.settings bareFiles "/" (runUnder "bare.toml" false) = .ok settings ∧
      settings.fault? = none) ∧
    ∃ settings, Batch.settings bareFiles "/" (runUnder "bare.toml" true) = .ok settings ∧
      settings.fault? = some .noRefWrappers := by
  have hload : Settings.load bareFiles "bare.toml" =
      .ok { types := some { refWrappers := [] } } := by decide +kernel
  have hplain : Finds bareFiles "/" (runUnder "bare.toml" false) _ := hload
  have hstrict : Finds bareFiles "/" (runUnder "bare.toml" true) _ := hload
  obtain ⟨settings, hsettings, -, hvalid, -⟩ := settings_valid_iff hplain
  obtain ⟨settings', hsettings', hwrappers, hvalid', -, -, hbroken⟩ := settings_valid_iff hstrict
  have hinvalid : settings'.fault? ≠ none := fun hnone => hvalid'.mp hnone rfl hwrappers
  exact ⟨by decide +kernel, ⟨settings, hsettings, hvalid.mpr nofun⟩, settings', hsettings',
    (hbroken hinvalid).1⟩

end Batch

end CommandSchema
