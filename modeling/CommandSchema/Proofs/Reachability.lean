import CommandSchema.Proofs.Selections
import CommandSchema.Proofs.Typing.RewrittenModel

/-!
# CommandSchema.Proofs.Reachability

The commands of a type depend on the declarations that it reaches, and on
nothing else in the file.

A type reaches the names that its declarations mention, and those that the
declarations of these names mention in turn (`Scope.Reaches`).  Two files that
declare all these names alike, up to where the declarations stand, have the same
commands for the type (`Extraction.explicit_eq_of_reaches`).  What else is
declared can be added, removed, edited and moved about, as long as the
declarations of one name keep their order.  The first file is one in which type
declarations stand among statements only; every parsed file is
(`SourceFile.declaresInStatements_root`).
-/

namespace CommandSchema

open Syntax Syntax.Node

namespace Scope

/-- Where names are closed under mention, all names that are reached from one of
them are among them. -/
theorem Reaches.mem {scope : Scope} {names : List String} {first : String}
    (hfirst : first ∈ names)
    (hclosed : ∀ name ∈ names, ∀ d ∈ scope.declarationsNamed name, d.mentions ⊆ names)
    {name : String} (h : scope.Reaches first name) : name ∈ names := by
  induction h with
  | first => exact hfirst
  | mention _ declared mentioned ih => exact hclosed _ ih _ declared mentioned

end Scope

namespace Extraction

/-- Explicit requests have alike outcomes where a name means nothing in both files,
or declarations whose commands are extracted alike. -/
theorem explicit_alike {settings : Settings} {path : String} {dialect dialect' : Dialect}
    {root root' : Node} {typeName : String} {commands : List String} {R : Node → Node → Prop}
    {E : Failure → Failure → Prop}
    (hdeclared : Option.Rel R ((Scope.ofTree root settings.int32Names).declaration? typeName)
      ((Scope.ofTree root' settings.int32Names).declaration? typeName))
    (hmissing : (Scope.ofTree root settings.int32Names).declaration? typeName = none →
      E (.typeNotFound path typeName) (.typeNotFound path typeName))
    (hextract : ∀ d d', R d d' →
      AlikeOutcomes (fun r r' => E (.rejected path r) (.rejected path r')) (· = ·)
        (Contract.extract (Scope.ofTree root settings.int32Names).model settings.refPolicy d
          commands)
        (Contract.extract (Scope.ofTree root' settings.int32Names).model settings.refPolicy d'
          commands)) :
    AlikeOutcomes E (· = ·) (ofFile settings (.explicit typeName commands) ⟨path, dialect, root⟩)
      (ofFile settings (.explicit typeName commands) ⟨path, dialect', root'⟩) := by
  rw [ofFile_explicit, ofFile_explicit, component, component]
  generalize (Scope.ofTree root settings.int32Names).declaration? typeName = declared?
    at hdeclared hmissing ⊢
  generalize (Scope.ofTree root' settings.int32Names).declaration? typeName = declared'?
    at hdeclared ⊢
  cases hdeclared with
  | none => exact .error (hmissing rfl)
  | @some d d' hd =>
      have houtcomes := hextract d d' hd
      simp only
      generalize Contract.extract _ _ d commands = x, Contract.extract _ _ d' commands = x'
        at houtcomes ⊢
      cases houtcomes with
      | ok hcommands => exact .ok (by rw [hcommands])
      | error hr => exact .error hr

/-- **Only what is reached matters**: two files with copies of the same
declarations, in the same order, of every name that is reached from a type have
the same outcome for every request of commands of the type, whatever else they
declare. -/
theorem explicit_eq_of_reaches (settings : Settings) (path : String) (dialect dialect' : Dialect)
    (root root' : Node) (hlaw : root.DeclaresInStatements) (typeName : String)
    (h : ∀ name, (Scope.ofTree root settings.int32Names).Reaches typeName name →
      ((Scope.ofTree root settings.int32Names).declarationsNamed name).map unplaced =
        ((Scope.ofTree root' settings.int32Names).declarationsNamed name).map unplaced)
    (commands : List String) :
    ofFile settings (.explicit typeName commands) ⟨path, dialect, root⟩ =
      ofFile settings (.explicit typeName commands) ⟨path, dialect', root'⟩ := by
  let w : Scope.Rewriting := .ofCopies (Scope.ofTree root settings.int32Names)
    (Scope.ofTree root' settings.int32Names)
    ((Scope.ofTree root settings.int32Names).Reaches typeName) rfl
    (fun name hname => forall₂_copy (h name hname))
    fun name hname d hd =>
      ⟨hlaw.of_mem (Scope.mem_preorder_of_mem_declarationsNamed hd),
      fun other hother => .mention hname hd hother⟩
  have hdeclared : Option.Rel w.Linked
      ((Scope.ofTree root settings.int32Names).declaration? typeName)
      ((Scope.ofTree root' settings.int32Names).declaration? typeName) :=
    Scope.Rewriting.declaration?_rel .first
  refine (explicit_alike hdeclared (fun _ => rfl) fun d d' hd => ?_).eq
  exact (w.extract_same_of_text (fun _ _ => id) settings.refPolicy
    (fun name => Scope.Rewriting.memberSites?_rel (Scope.Rewriting.resolve_similar hd) name)
    commands (hd.rewritten.text_eq_or_encloses.resolve_right (not_encloses fun _ _ => id))).imp
      (fun _ _ he => congrArg _ he) fun _ _ h => h

/-! ### Two files -/

/-- A reference to a type, in a line. -/
def referenceAt (line : Nat) (name : String) (role : Option Role) : Node :=
  ⟨.typeIdentifier, role, name, ⟨line, 1⟩, []⟩

/-- The method `name(r: R): void` in a line. -/
def methodAt (line : Nat) (name : String) : Node :=
  ⟨.methodSignature, none, name ++ "(r: R): void", ⟨line, 1⟩,
    [⟨.propertyName, some .name, name, ⟨line, 1⟩, []⟩,
      ⟨.formalParameters, some .parameters, "(r: R)", ⟨line, 1⟩,
        [⟨.requiredParameter, none, "r: R", ⟨line, 1⟩,
          [⟨.identifier, some .pattern, "r", ⟨line, 1⟩, []⟩,
            ⟨.annotatedType, some .type, ": R", ⟨line, 1⟩, [referenceAt line "R" none]⟩]⟩]⟩,
      ⟨.annotatedType, some .returnType, ": void", ⟨line, 1⟩,
        [⟨.predefinedType, none, "void", ⟨line, 1⟩, []⟩]⟩]⟩

/-- An interface in a line, with the names that it extends and its members. -/
def interfaceAt (line : Nat) (name : String) (bases : List String) (members : List Node) : Node :=
  ⟨.interfaceDeclaration, none, name, ⟨line, 1⟩,
    [referenceAt line name (some .name)] ++
      (if bases = [] then [] else [⟨.extendsTypeClause, none, "extends", ⟨line, 1⟩,
        bases.map (referenceAt line · (some .type))⟩]) ++
      [⟨.interfaceBody, some .body, "", ⟨line, 1⟩, members⟩]⟩

/-- The tree of a file with the given statements. -/
def fileOf (statements : List Node) : Node := ⟨.program, none, "", ⟨1, 1⟩, statements⟩

/-- `interface V extends B { a(r: R): void }`, its base and an interface that it
does not reach. -/
def reached : Node :=
  fileOf [interfaceAt 1 "V" ["B"] [methodAt 1 "a"], interfaceAt 2 "B" [] [methodAt 2 "b"],
    interfaceAt 3 "W" [] [methodAt 3 "a"]]

/-- The base stands first, and what is not reached is no longer the same. -/
def reordered : Node :=
  fileOf [interfaceAt 1 "B" [] [methodAt 1 "b"], interfaceAt 2 "W" ["B", "V"] [],
    interfaceAt 3 "X" [] [], interfaceAt 5 "V" ["B"] [methodAt 5 "a"]]

/-- Both files have the same commands of `V`. -/
theorem explicit_eq_of_reaches_reordered :
    ofFile .default (.explicit "V" ["a", "b"]) ⟨"V.ts", .typeScript, reached⟩ =
        ofFile .default (.explicit "V" ["a", "b"]) ⟨"V.ts", .typeScript, reordered⟩ ∧
      ofFile .default (.explicit "V" ["a", "b"]) ⟨"V.ts", .typeScript, reached⟩ =
        .ok [⟨"V.ts", "V", [⟨"a", false, []⟩, ⟨"b", false, []⟩]⟩] := by
  refine ⟨explicit_eq_of_reaches .default "V.ts" .typeScript .typeScript reached reordered
    (by decide +kernel) "V" (fun name hname => ?_) ["a", "b"], by decide +kernel⟩
  have hmem : name ∈ ["V", "B", "R"] := hname.mem (by simp) (by decide +kernel)
  clear hname
  revert name
  decide +kernel

end Extraction

end CommandSchema
