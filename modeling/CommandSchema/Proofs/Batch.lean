import CommandSchema.Program
import CommandSchema.Proofs.FileSystem
import Mathlib.Data.List.Forall2

/-!
# CommandSchema.Proofs.Batch

What a run over several files comes to.

The files may be worked on in any order, since every outcome goes into the slot
of its file (`collected_eq_map`).  A run with a file that fails writes nothing
and reports every file that failed, in the order of the files.  A run without
one writes one text, to the standard output or to the output file
(`extract_all_or_nothing`).
-/

namespace CommandSchema

open CommandLine (ExtractArguments)

namespace Batch

/-! ## The order of the work -/

section Slots

variable {α β : Type} (f : α → β) (inputs : List α)

/-- Works on the input at a place and puts the outcome into the slot there. -/
def fill (slots : List (Option β)) (place : Nat) : List (Option β) :=
  slots.set place (inputs[place]?.map f)

/-- The slots of the inputs after the work on all places of a list, in the order
of the list. -/
def collected (order : List Nat) : List (Option β) :=
  order.foldl (fill f inputs) (List.replicate inputs.length none)

/-- The slots at the places that are done hold the outcomes, and the others are
empty. -/
def Filled (done : List Nat) (slots : List (Option β)) : Prop :=
  ∀ i, slots[i]? = inputs[i]?.map fun x => if i ∈ done then some (f x) else none

variable {f inputs}

/-- Work on one place fills its slot. -/
theorem Filled.fill {done : List Nat} {slots : List (Option β)} (h : Filled f inputs done slots)
    (place : Nat) : Filled f inputs (place :: done) (fill f inputs slots place) := by
  intro i
  have hi := h i
  rw [Batch.fill, List.getElem?_set]
  by_cases hplace : place = i
  · subst hplace
    have hlength : slots.length ≤ place ↔ inputs.length ≤ place := by
      rw [← List.getElem?_eq_none_iff, ← List.getElem?_eq_none_iff, hi, Option.map_eq_none_iff]
    by_cases hin : place < inputs.length
    · have hslot : place < slots.length := by omega
      simp [hslot, hin]
    · have hslot : ¬ place < slots.length := by omega
      simp [hslot, hin]
  · simp only [if_neg hplace, hi, List.mem_cons, Ne.symm hplace, false_or]

/-- Work on several places fills their slots. -/
theorem Filled.foldl {done : List Nat} {slots : List (Option β)} (h : Filled f inputs done slots)
    (order : List Nat) :
    Filled f inputs (order.reverse ++ done) (order.foldl (Batch.fill f inputs) slots) := by
  induction order generalizing done slots with
  | nil => exact h
  | cons place order ih => simpa using ih (h.fill place)

/-- Whatever the order of the work, the outcomes are those of the inputs in the
order of the inputs. -/
theorem collected_eq_map {order : List Nat} (h : order.Perm (List.range inputs.length)) :
    collected f inputs order = inputs.map fun x => some (f x) := by
  have hempty : Filled f inputs [] (List.replicate inputs.length none) := by
    intro i
    by_cases hi : i < inputs.length <;> simp [hi]
  refine List.ext_getElem? fun i => ?_
  rw [collected, hempty.foldl order i, List.getElem?_map]
  by_cases hi : i < inputs.length
  · have hmem : i ∈ order := h.mem_iff.mpr (List.mem_range.mpr hi)
    simp [hi, hmem]
  · simp [hi]

end Slots

/-! ## Outcomes -/

section Outcomes

variable {α β : Type} (f : α → Except Failure β)

/-- The inputs that fail, in order. -/
def failing (inputs : List α) : List α := inputs.filter fun x => (failure? (f x)).isSome

/-- The failures are those of the inputs that fail, one for each and in
order. -/
theorem forall₂_failures (inputs : List α) :
    List.Forall₂ (fun x failure => f x = .error failure) (failing f inputs)
      (failures (inputs.map f)) := by
  induction inputs with
  | nil => exact .nil
  | cons x inputs ih =>
      rw [List.map_cons, failing, failures, List.filter_cons, List.filterMap_cons]
      cases hx : f x with
      | error failure => exact .cons hx ih
      | ok b => exact ih

/-- Where no input fails, the results are those of the inputs, one for each and
in order. -/
theorem forall₂_results {inputs : List α} (h : failing f inputs = []) :
    List.Forall₂ (fun x result => f x = .ok result) inputs
      ((inputs.map f).filterMap Except.toOption) := by
  induction inputs with
  | nil => exact .nil
  | cons x inputs ih =>
      cases hx : f x with
      | error failure => simp [failing, failure?, hx] at h
      | ok b =>
          have hrest : failing f inputs = [] := by simpa [failing, failure?, hx] using h
          rw [List.map_cons, List.filterMap_cons, hx]
          exact .cons hx (ih hrest)

theorem eq_ok_of_toOption {ε : Type} {outcome : Except ε β} {result : β}
    (h : outcome.toOption = some result) : outcome = .ok result := by
  cases outcome with
  | error fault => cases h
  | ok other => exact congrArg Except.ok (Option.some.inj h)

theorem failures_eq_nil_iff {inputs : List α} :
    failures (inputs.map f) = [] ↔ failing f inputs = [] := by
  rw [← List.length_eq_zero_iff, ← (forall₂_failures f inputs).length_eq, List.length_eq_zero_iff]

end Outcomes

end Batch

namespace Program

open Batch (collected failing)

/-! ## Runs -/

/-- The line about a file that failed, the word in front of it in red if colors are
on. -/
theorem failureLine_eq (color : Bool) (failure : Failure) : failureLine color failure =
    (if color then "\x1b[1;31merror:\x1b[0m" else "error:") ++ " " ++ failure.message ++ "\n" := by
  have hpainted : String.ofList (Terminal.painted color .alarm "error:") =
      if color then "\x1b[1;31merror:\x1b[0m" else "error:" := by
    cases color <;> decide
  have hline : failureLine color failure = String.ofList (Terminal.painted color .alarm "error:") ++
      (" " ++ failure.message ++ "\n") := rfl
  rw [hline, hpainted]
  simp only [String.append_assoc]

/-- The end of a run that was not complete says how many files failed. -/
theorem ofReport_incomplete (stderr : String) (failed total : Nat) :
    Exit.ofReport { stderr := stderr, fault? := some (.incomplete failed total) } =
      ⟨1, "", stderr ++ ("Error: command extraction failed for " ++ toString failed ++ " of " ++
        toString total ++ " files\n")⟩ := by
  have hexit : Exit.ofReport { stderr := stderr, fault? := some (.incomplete failed total) } =
      ⟨1, "", stderr ++ ("Error: " ++ ("command extraction failed for " ++ toString failed ++
        " of " ++ toString total ++ " files") ++ "\n")⟩ := rfl
  have hstart : "Error: command extraction failed for " =
      "Error: " ++ "command extraction failed for " := by decide
  have hend : " files\n" = " files" ++ "\n" := by decide
  rw [hexit, hstart, hend]
  simp only [String.append_assoc]

section Runs

variable {fs : FileSystem} {arguments : ExtractArguments} {settings : Settings}
  {outcome : String → Except Failure (List Component)}
  (hsettings : Batch.settings fs.read fs.currentPath arguments = .ok settings)
  (houtcome : outcome = Batch.outcome fs.read settings arguments.selection) (color : Bool)

include hsettings houtcome

/-- A run with a file that fails comes to the failures. -/
theorem run_of_failing (h : failing outcome arguments.files ≠ []) :
    ∃ failures, List.Forall₂ (fun path failure => outcome path = .error failure)
        (failing outcome arguments.files) failures ∧
      Batch.run fs.read fs.currentPath color arguments =
        .failed failures arguments.files.length := by
  subst houtcome
  refine ⟨_, Batch.forall₂_failures _ _, ?_⟩
  have hne := (Batch.failures_eq_nil_iff _).not.mpr h
  rw [Batch.run, hsettings]
  cases hfailures : Batch.failures (arguments.files.map
      (Batch.outcome fs.read settings arguments.selection)) with
  | nil => exact absurd hfailures hne
  | cons failure failures =>
      simp only [Batch.outcomes, hfailures]

/-- A run without one comes to the text of all components. -/
theorem run_of_not_failing (h : failing outcome arguments.files = []) :
    ∃ results text, List.Forall₂ (fun path components => outcome path = .ok components)
        arguments.files results ∧
      text = ((arguments.format?.or settings.outputFormat?).getD .json).render color
        results.flatten ∧
      Batch.run fs.read fs.currentPath color arguments = .rendered text := by
  subst houtcome
  refine ⟨_, _, Batch.forall₂_results _ h, rfl, ?_⟩
  have hnil := (Batch.failures_eq_nil_iff _).mpr h
  rw [Batch.run, hsettings]
  simp only [Batch.outcomes, hnil]
  rfl

/-- **All or nothing**, under valid settings and for any files: the order in
which the files are worked on does not matter.  If some of them fail, no file is
touched, nothing goes to the standard output, and the error output has a line with
the message for each file that failed, in order, and then the count.  If none fails, the
components of all files, in order, are rendered once, in the format that is
asked for, or else that of the settings, or else as JSON.  The text goes to the
standard output, or to the output file if that can be written, and then the
file and the missing directories above it are all that changes. -/
theorem extract_all_or_nothing :
    (∀ order : List Nat, order.Perm (List.range arguments.files.length) →
      collected outcome arguments.files order =
        (Batch.outcomes fs.read settings arguments.selection arguments.files).map some) ∧
    (failing outcome arguments.files ≠ [] →
      ∃ failures, List.Forall₂ (fun path failure => outcome path = .error failure)
          (failing outcome arguments.files) failures ∧
        (extract fs color arguments).1 = fs ∧
        Exit.ofReport (extract fs color arguments).2 =
          ⟨1, "", String.join (failures.map fun failure =>
              (if color then "\x1b[1;31merror:\x1b[0m" else "error:") ++ " " ++ failure.message ++
                "\n") ++
            ("Error: command extraction failed for " ++ toString failures.length ++ " of " ++
              toString arguments.files.length ++ " files\n")⟩) ∧
    (failing outcome arguments.files = [] →
      ∃ results text, List.Forall₂ (fun path components => outcome path = .ok components)
          arguments.files results ∧
        text = ((arguments.format?.or settings.outputFormat?).getD .json).render color
          results.flatten ∧
        (arguments.output? = none →
          (extract fs color arguments).1 = fs ∧
          Exit.ofReport (extract fs color arguments).2 = ⟨0, text, ""⟩) ∧
        ∀ path, arguments.output? = some path →
          (fs.Writable path →
            fs.Writes (extract fs color arguments).1 path text.toUTF8 ∧
            (extract fs color arguments).1.read path = .ok text ∧
            Exit.ofReport (extract fs color arguments).2 = ⟨0, "", ""⟩) ∧
          (¬ fs.Writable path →
            fs.Adds (extract fs color arguments).1 ∧
            ∃ fault : FileFault, Exit.ofReport (extract fs color arguments).2 =
              ⟨1, "", "Error: " ++ fault.message ++ "\n"⟩)) := by
  refine ⟨fun order horder => ?_, fun h => ?_, fun h => ?_⟩
  · rw [Batch.collected_eq_map horder, Batch.outcomes, houtcome, List.map_map]
    rfl
  · obtain ⟨failures, hfailures, hrun⟩ := run_of_failing hsettings houtcome color h
    refine ⟨failures, hfailures, ?_⟩
    simp only [← failureLine_eq]
    rw [extract, hrun]
    exact ⟨rfl, ofReport_incomplete _ _ _⟩
  · obtain ⟨results, text, hresults, htext, hrun⟩ :=
      run_of_not_failing hsettings houtcome color h
    refine ⟨results, text, hresults, htext, fun houtput => ?_, fun path houtput => ?_⟩
    · rw [extract, hrun, houtput]
      exact ⟨rfl, rfl⟩
    · rw [extract, hrun, houtput]
      refine ⟨fun hwritable => ?_, fun hwritable => ?_⟩
      · obtain ⟨written, hwrite, hwrites⟩ :=
          FileSystem.writeBelow_of_writable hwritable text.toUTF8
        simp only [hwrite]
        exact ⟨hwrites, hwrites.read hwritable, rfl⟩
      · obtain ⟨made, fault, hwrite, hadds⟩ :=
          FileSystem.writeBelow_of_not_writable hwritable text.toUTF8
        simp only [hwrite]
        exact ⟨hadds, fault, rfl⟩

end Runs

/-- A directory with a source file that declares a command and one that cannot be
parsed. -/
def sourceDirectory : FileSystem where
  entries := [(["work".toList], .directory),
    (["work".toList, "a.ts".toList], .file "interface I \x7b a(r: R, b: string): void \x7d".toUTF8),
    (["work".toList, "c.ts".toList], .file "interface I".toUTF8)]
  current := ["work".toList]

/-- A request for the command `a` of `I`. -/
def requestFor (files : List String) (format? : Option OutputFormat) (output? : Option String) :
    ExtractArguments where
  files := files
  selection := .explicit "I" ["a"]
  format? := format?
  output? := output?
  config? := none
  strictRefs := false
  jobs? := none

/-- What is said about a file that is missing and one that cannot be parsed. -/
def twoFailures : String :=
  "error: File system error: Failed to read source file\n" ++
    "error: Parse error in c.ts:1:1: Syntax error near `interface I`\n" ++
    "Error: command extraction failed for 2 of 3 files\n"

/-- The command as JSON. -/
def commandJson : String :=
  "[\n  \x7b\n    \"path\": \"a.ts\",\n    \"typeName\": \"I\",\n    \"commands\": [\n" ++
    "      \x7b\n        \"name\": \"a\",\n        \"optional\": false,\n" ++
    "        \"parameters\": [\n          \x7b\n            \"name\": \"b\",\n" ++
    "            \"typeAnnotation\": \x7b\n              \"type\": \"StringTypeAnnotation\"\n" ++
    "            \x7d\n          \x7d\n        ]\n      \x7d\n    ]\n  \x7d\n]\n"

/-- The command as YAML. -/
def commandYaml : String :=
  "- path: a.ts\n  typeName: I\n  commands:\n  - name: a\n    optional: false\n" ++
    "    parameters:\n    - name: b\n      typeAnnotation:\n        type: StringTypeAnnotation\n"

/-- A file that is missing and one that cannot be parsed fail the run.  Without
them the output is written to the output file, whose directory is missing, as
JSON, or to the standard output in the format that is asked for. -/
theorem extract_sourceDirectory :
    let outcome := Batch.outcome sourceDirectory.read {} (.explicit "I" ["a"])
    let failed := requestFor ["b.ts", "a.ts", "c.ts"] none (some "out/commands.json")
    let written := requestFor ["a.ts"] none (some "out/commands.json")
    let shown := requestFor ["a.ts", "a.ts"] (some .yaml) none
    (∀ request ∈ [failed, written, shown], Batch.settings sourceDirectory.read
      sourceDirectory.currentPath request = .ok {}) ∧
    (failing outcome failed.files = ["b.ts", "c.ts"] ∧
      (extract sourceDirectory false failed).1 = sourceDirectory ∧
      Exit.ofReport (extract sourceDirectory false failed).2 = ⟨1, "", twoFailures⟩) ∧
    (failing outcome written.files = [] ∧ sourceDirectory.Writable "out/commands.json" ∧
      (extract sourceDirectory false written).1.read "out/commands.json" = .ok commandJson ∧
      Exit.ofReport (extract sourceDirectory false written).2 = ⟨0, "", ""⟩) ∧
    failing outcome shown.files = [] ∧
      (extract sourceDirectory false shown).1 = sourceDirectory ∧
      Exit.ofReport (extract sourceDirectory false shown).2 =
        ⟨0, commandYaml ++ commandYaml, ""⟩ := by
  intro outcome failed written shown
  have hsettings (files : List String) (format? : Option OutputFormat) (output? : Option String) :
      Batch.settings sourceDirectory.read sourceDirectory.currentPath
        (requestFor files format? output?) = .ok {} :=
    Batch.eq_ok_of_toOption (show (Batch.settings sourceDirectory.read
      sourceDirectory.currentPath (requestFor [] none none)).toOption = some {} by decide +kernel)
  obtain ⟨hfailed, hwritten, hshown⟩ : failing outcome failed.files = ["b.ts", "c.ts"] ∧
      failing outcome written.files = [] ∧ failing outcome shown.files = [] := by
    decide +kernel
  have hcomponents : outcome "a.ts" = .ok [⟨"a.ts", "I", [⟨"a", false, [⟨"b", .string⟩]⟩]⟩] :=
    Batch.eq_ok_of_toOption (by decide +kernel)
  have hwritable : sourceDirectory.Writable "out/commands.json" := by
    constructor <;> decide +kernel
  refine ⟨?_, ⟨hfailed, ?_⟩, ⟨hwritten, hwritable, ?_⟩, hshown, ?_⟩
  · simp only [List.forall_mem_cons, List.not_mem_nil, false_imp_iff, implies_true, and_true]
    exact ⟨hsettings _ _ _, hsettings _ _ _, hsettings _ _ _⟩
  · have hmissing : outcome "b.ts" = .error (.unreadable "b.ts") := by decide +kernel
    have hmalformed : outcome "c.ts" = .error (.malformed "c.ts" ⟨⟨1, 1⟩, "interface I"⟩) := by
      decide +kernel
    have hrun := hsettings ["b.ts", "a.ts", "c.ts"] none (some "out/commands.json")
    obtain ⟨-, hfails, -⟩ := extract_all_or_nothing hrun rfl false
    obtain ⟨failures, hfailures, hsame, hexit⟩ := hfails (hfailed ▸ List.cons_ne_nil _ _)
    refine ⟨hsame, hexit.trans ?_⟩
    cases hfailed ▸ hfailures with
    | cons hfirst hrest =>
        cases hrest with
        | cons hsecond hrest =>
            cases hrest
            cases hmissing.symm.trans hfirst
            cases hmalformed.symm.trans hsecond
            decide +kernel
  · have hrun := hsettings ["a.ts"] none (some "out/commands.json")
    obtain ⟨-, -, hsucceeds⟩ := extract_all_or_nothing hrun rfl false
    obtain ⟨results, text, hresults, htext, -, houtput⟩ := hsucceeds hwritten
    obtain ⟨-, hread, hexit⟩ := (houtput _ rfl).1 hwritable
    cases hresults with
    | cons hfirst hrest =>
        cases hrest
        cases hcomponents.symm.trans hfirst
        rw [hread, htext]
        exact ⟨congrArg Except.ok (by decide +kernel), hexit⟩
  · have hrun := hsettings ["a.ts", "a.ts"] (some .yaml) none
    obtain ⟨-, -, hsucceeds⟩ := extract_all_or_nothing hrun rfl false
    obtain ⟨results, text, hresults, htext, hstdout, -⟩ := hsucceeds hshown
    obtain ⟨hsame, hexit⟩ := hstdout rfl
    refine ⟨hsame, hexit.trans ?_⟩
    cases hresults with
    | cons hfirst hrest =>
        cases hrest with
        | cons hsecond hrest =>
            cases hrest
            cases hcomponents.symm.trans hfirst
            cases hcomponents.symm.trans hsecond
            rw [htext]
            decide +kernel

end Program

end CommandSchema
