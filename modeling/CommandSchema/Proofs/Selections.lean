import CommandSchema.Extraction
import CommandSchema.Proofs.Contract.Extraction
import CommandSchema.Proofs.FactoryCalls

/-!
# CommandSchema.Proofs.Selections

What the three selections of a file have to do with each other.

All factory calls together yield what the explicit requests for them yield one
after the other, and the calls for one type yield the part of it that belongs to
the type (`selections_agree`).
-/

namespace CommandSchema

open Syntax Syntax.Node

namespace Extraction

variable {settings : Settings} {file : SourceFile}

/-! ## One request -/

/-- The records of the commands that are asked for carry their names. -/
theorem map_name_of_extract {N T : Type} {model : TypeModel N T} {policy : RefPolicy} {owner : N}
    {names : List String} {records : List Command}
    (h : Contract.extract model policy owner names = .ok records) :
    records.map (·.name) = names := by
  rw [Contract.extract_eq_ok_iff_describes] at h
  induction h with
  | nil => rfl
  | cons hrecord _ ih =>
      obtain ⟨_, _, _, _, hname, _⟩ := hrecord
      rw [List.map_cons, hname, ih]

/-- A component is of the type and has the commands that were asked for. -/
theorem of_component_eq_ok {typeName : String} {commands : List String} {c : Component}
    (h : component settings file typeName commands = .ok c) :
    c.typeName = typeName ∧ c.commands.map (·.name) = commands := by
  rw [component] at h
  split at h
  · cases h
  · split at h
    · cases h
    · next hextract =>
        cases h
        exact ⟨rfl, map_name_of_extract hextract⟩

/-- An explicit request yields the component that it asks for, alone. -/
theorem ofFile_explicit (settings : Settings) (file : SourceFile) (typeName : String)
    (commands : List String) : ofFile settings (.explicit typeName commands) file =
      (component settings file typeName commands).map ([·]) := by
  have hfile : ofFile settings (.explicit typeName commands) file =
      [(typeName, commands)].mapM fun r => component settings file r.1 r.2 := rfl
  rw [hfile]
  cases hc : component settings file typeName commands with
  | error e => exact mapM_cons_of_error hc []
  | ok c => exact mapM_cons_of_ok hc []

/-! ## The requests of a file -/

/-- The components of the calls that are kept. -/
theorem ofFile_of_requests {rs : List Request}
    (h : Factory.requests settings.factoryNames file.root = .ok rs) (typeName : String) :
    ofFile settings .discovered file =
        (if rs = [] then .error (.noCall file.path settings.factoryNames none)
        else rs.mapM fun r => component settings file r.typeName r.commands) ∧
      ofFile settings (.discoveredType typeName) file =
        if rs.filter (·.typeName = typeName) = [] then
          .error (.noCall file.path settings.factoryNames (some typeName))
        else (rs.filter (·.typeName = typeName)).mapM fun r =>
          component settings file r.typeName r.commands := by
  have hkept : ∀ (wantedType : Option String) (keep : Request → Bool),
      (wanted.discovered settings file wantedType keep >>= fun requests =>
        requests.mapM fun r => component settings file r.1 r.2) =
      if rs.filter keep = [] then .error (.noCall file.path settings.factoryNames wantedType)
      else (rs.filter keep).mapM fun r => component settings file r.typeName r.commands := by
    intro wantedType keep
    simp only [wanted.discovered, h]
    cases rs.filter keep with
    | nil => rfl
    | cons r kept =>
        rw [if_neg (List.cons_ne_nil r kept)]
        exact List.mapM_map ..
  refine ⟨?_, hkept (some typeName) (·.typeName = typeName)⟩
  have hall := hkept none fun _ => true
  rw [List.filter_true] at hall
  exact hall

/-- **The selections agree.**  Where a file has factory calls and all of them are
well formed, the selection of all calls yields what the explicit requests of the
calls yield one after the other, up to the first failure, and a success has one
component for each call, in order, of its type and with its commands.  Where the
selection of all calls succeeds, that of the calls for one type yields the
components of the type, in order, or fails for want of a call. -/
theorem selections_agree (settings : Settings) (file : SourceFile) :
    (Factory.calls settings.factoryNames file.root ≠ [] →
      (∀ call ∈ Factory.calls settings.factoryNames file.root,
        ∃ typeName commands, Factory.Asks call typeName commands) →
      ∃ rs : List (String × List String),
        List.Forall₂ (fun call r => Factory.Asks call r.1 r.2)
          (Factory.calls settings.factoryNames file.root) rs ∧
        ofFile settings .discovered file =
          (rs.mapM fun r => ofFile settings (.explicit r.1 r.2) file).map List.flatten ∧
        ∀ components, ofFile settings .discovered file = .ok components →
          List.Forall₂ (fun r c => c.typeName = r.1 ∧ c.commands.map (·.name) = r.2)
            rs components) ∧
    ∀ components, ofFile settings .discovered file = .ok components → ∀ typeName,
      ofFile settings (.discoveredType typeName) file =
        if components.filter (·.typeName = typeName) = [] then
          .error (.noCall file.path settings.factoryNames (some typeName))
        else .ok (components.filter (·.typeName = typeName)) := by
  constructor
  · intro hcalls hasks
    obtain ⟨rs, hrequests, hrs⟩ := Factory.exists_requests hasks
    have hne : rs ≠ [] := by
      rintro rfl
      exact hcalls (List.forall₂_nil_right_iff.mp hrs)
    have hfile := (ofFile_of_requests hrequests "").1
    rw [if_neg hne] at hfile
    refine ⟨rs.map fun r => (r.typeName, r.commands), List.forall₂_map_right_iff.mpr hrs, ?_, ?_⟩
    · simp only [ofFile_explicit, mapM_singleton_flatten, hfile, List.mapM_map, Function.comp_def]
    · intro components hok
      rw [hok] at hfile
      rw [List.forall₂_map_left_iff]
      exact (mapM_eq_ok_iff.mp hfile.symm).imp fun _ _ => of_component_eq_ok
  · intro components hok typeName
    cases hrequests : Factory.requests settings.factoryNames file.root with
    | error fault =>
        have hfault : ofFile settings .discovered file = .error (.badCall file.path fault) := by
          rw [ofFile, wanted, wanted.discovered, hrequests]
          rfl
        rw [hfault] at hok
        cases hok
    | ok rs =>
        obtain ⟨hall, htype⟩ := ofFile_of_requests hrequests typeName
        rw [hok] at hall
        split at hall
        · cases hall
        · have hkept := mapM_filter_eq_ok hall.symm
            (p := fun r => decide (r.typeName = typeName))
            (q := fun c => decide (c.typeName = typeName))
            fun r c hc => by simp only [(of_component_eq_ok hc).1]
          have hempty : components.filter (·.typeName = typeName) = [] ↔
              rs.filter (·.typeName = typeName) = [] := by
            rw [← List.length_eq_zero_iff, ← List.length_eq_zero_iff,
              (mapM_eq_ok_iff.mp hkept).length_eq]
          rw [htype, hkept]
          simp only [hempty]

/-- The tree of a file that declares `interface V { a(r: R): void; b(r: R): void }`
and `interface W {}`, and calls a factory for `a` of `V`, for nothing of `W` and
for `b` of `V`; places and texts that are not looked at are left out. -/
def threeCalls : Node :=
  let reference (name : String) (role : Option Role) : Node :=
    ⟨.typeIdentifier, role, name, ⟨1, 1⟩, []⟩
  let parameter : Node := ⟨.requiredParameter, none, "r: R", ⟨1, 1⟩,
    [⟨.identifier, some .pattern, "r", ⟨1, 1⟩, []⟩,
      ⟨.annotatedType, some .type, ": R", ⟨1, 1⟩, [reference "R" none]⟩]⟩
  let method (name : String) : Node := ⟨.methodSignature, none, name ++ "(r: R): void", ⟨1, 1⟩,
    [⟨.propertyName, some .name, name, ⟨1, 1⟩, []⟩,
      ⟨.formalParameters, some .parameters, "(r: R)", ⟨1, 1⟩, [parameter]⟩,
      ⟨.annotatedType, some .returnType, ": void", ⟨1, 1⟩,
        [⟨.predefinedType, none, "void", ⟨1, 1⟩, []⟩]⟩]⟩
  let declared (name : String) (members : List Node) : Node :=
    ⟨.interfaceDeclaration, none, name, ⟨1, 1⟩,
      [reference name (some .name), ⟨.interfaceBody, some .body, "", ⟨1, 1⟩, members⟩]⟩
  let string (value : String) : Node := ⟨.stringLiteral, none, "'" ++ value ++ "'", ⟨1, 1⟩,
    [⟨.stringFragment, none, value, ⟨1, 1⟩, []⟩]⟩
  let options (commands : List String) : Node := ⟨.object, none, "", ⟨1, 1⟩,
    [⟨.pair, none, "", ⟨1, 1⟩, [⟨.propertyName, some .key, "supportedCommands", ⟨1, 1⟩, []⟩,
      ⟨.array, some .value, "", ⟨1, 1⟩, commands.map string⟩]⟩]⟩
  let call (typeName : String) (commands : List String) : Node :=
    ⟨.callExpression, none, "", ⟨1, 1⟩,
      [⟨.identifier, some .function, "codegenNativeCommands", ⟨1, 1⟩, []⟩,
        ⟨.typeArguments, some .typeArguments, "", ⟨1, 1⟩, [reference typeName none]⟩,
        ⟨.arguments, some .arguments, "", ⟨1, 1⟩, [options commands]⟩]⟩
  ⟨.program, none, "", ⟨1, 1⟩, [declared "V" [method "a", method "b"], declared "W" [],
    call "V" ["a"], call "W" [], call "V" ["b"]]⟩

/-- The calls yield a component each, in order, and two of them are of the same
type. -/
theorem selections_agree_threeCalls :
    let file : SourceFile := ⟨"V.ts", .typeScript, threeCalls⟩
    let v (name : String) : Component := ⟨"V.ts", "V", [⟨name, false, []⟩]⟩
    ofFile .default .discovered file = .ok [v "a", ⟨"V.ts", "W", []⟩, v "b"] ∧
      (∃ rs : List (String × List String),
        List.Forall₂ (fun call r => Factory.Asks call r.1 r.2)
          (Factory.calls Settings.default.factoryNames threeCalls) rs ∧
        ofFile .default .discovered file =
          (rs.mapM fun r => ofFile .default (.explicit r.1 r.2) file).map List.flatten ∧
        rs = [("V", ["a"]), ("W", []), ("V", ["b"])]) ∧
      ofFile .default (.discoveredType "V") file = .ok [v "a", v "b"] := by
  intro file v
  have hfile : ofFile .default .discovered file = .ok [v "a", ⟨"V.ts", "W", []⟩, v "b"] := by
    decide +kernel
  have hread : ∀ call ∈ Factory.calls Settings.default.factoryNames threeCalls,
      (Factory.read call).toOption.isSome = true := by
    decide +kernel
  have hasks : ∀ call ∈ Factory.calls Settings.default.factoryNames threeCalls,
      ∃ typeName commands, Factory.Asks call typeName commands := by
    intro call hcall
    have hsome := hread call hcall
    cases hrequest : Factory.read call with
    | error fault => simp [hrequest, Except.toOption] at hsome
    | ok r => exact ⟨_, _, (Factory.read_eq_ok_iff.mp hrequest).1⟩
  obtain ⟨hall, htype⟩ := selections_agree .default file
  obtain ⟨rs, hrs, hexplicit, hnames⟩ := hall (by decide +kernel) hasks
  have hrequests : rs = [("V", ["a"]), ("W", []), ("V", ["b"])] := by
    have heach := hnames _ hfile
    simp only [List.forall₂_cons_right_iff, List.forall₂_nil_right_iff] at heach
    obtain ⟨⟨_, _⟩, _, ⟨rfl, rfl⟩, ⟨⟨_, _⟩, _, ⟨rfl, rfl⟩, ⟨⟨_, _⟩, _, ⟨rfl, rfl⟩, rfl, rfl⟩,
      rfl⟩, rfl⟩ := heach
    rfl
  refine ⟨hfile, ⟨rs, hrs, hexplicit, hrequests⟩, ?_⟩
  rw [htype _ hfile "V"]
  rfl

end Extraction

end CommandSchema
