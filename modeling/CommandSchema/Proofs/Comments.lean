import CommandSchema.Extraction
import CommandSchema.Proofs.Discovery
import CommandSchema.Proofs.Typing.CommentedModel

/-!
# CommandSchema.Proofs.Comments

Files with comments in them.

Comments stand wherever the grammar lets white space stand, and most functions
pass them over: they look nodes up by role or kind.  `InvisibleComments` says
that one tree is another one with comments inserted, none of them in one of the
places in which a node is taken as it comes (`Node.Undisturbed`,
`Factory.Undisturbed`, `Factory.KeepsCallee`).  Such comments change nothing:
the same types and commands are wanted, and the same components are extracted,
or the extraction fails for the same reason (`Extraction.ofFile_alike`).  In these
places a comment is taken for what should stand there (`Extraction.comment_seen`).
-/

namespace CommandSchema

open Syntax Syntax.Node

/-! ## Declarations -/

namespace Scope

theorem declarationsOf_comment {c : Node} (h : c.isComment = true) : declarationsOf c = [] := by
  simp [declarationsOf_eq, kind_of_isComment h, isTransparent]

section Declarations

variable {P : Node → Node → Prop}

/-- The declarations inside a statement correspond when those of its children
do. -/
theorem flatMap_declarationsOf_rel {n n' : Node}
    (h : List.Forall₂ (fun c c' => List.Forall₂ (Inserted P) (declarationsOf c) (declarationsOf c'))
      n.children n'.code) :
    List.Forall₂ (Inserted P) (n.children.flatMap declarationsOf)
      (n'.children.flatMap declarationsOf) := by
  have hskip : ∀ c ∈ n'.children, (!c.isComment) = false → declarationsOf c = [] :=
    fun c _ hc => declarationsOf_comment (by simpa using hc)
  rw [← flatMap_filter_of_eq_nil hskip]
  exact List.rel_flatMap h fun _ _ hc => hc

variable (hlaw : ∀ n n', P n n' → n'.Grammatical)

include hlaw

/-- The declarations of corresponding statements correspond. -/
theorem declarationsOf_rel {n n' : Node} (h : Inserted P n n') :
    List.Forall₂ (Inserted P) (declarationsOf n) (declarationsOf n') := by
  have hdeclares : isTypeDeclaration n = isTypeDeclaration n' := by
    have hname := h.child? (hlaw _ _ h.pair) .name
    rw [isTypeDeclaration, isTypeDeclaration, h.kind_eq]
    generalize n.child? _ = name?, n'.child? _ = name'? at hname ⊢
    cases hname <;> rfl
  have hbelow := flatMap_declarationsOf_rel
    (forall₂_imp_of_mem h.children fun c hc c' _ hchild => declarationsOf_rel hchild)
  rw [declarationsOf_eq, declarationsOf_eq, hdeclares, isTransparent, isTransparent, h.kind_eq]
  split
  · split
    · exact .cons h .nil
    · exact .nil
  · split
    · exact hbelow
    · exact .nil
termination_by sizeOf n
decreasing_by exact sizeOf_lt_of_mem_children hc

theorem declarations_ofTree_rel {root root' : Node} (h : Inserted P root root')
    (int32Names : List String) :
    List.Forall₂ (Inserted P) (ofTree root int32Names).declarations
      (ofTree root' int32Names).declarations := by
  rw [ofTree, ofTree, declarationsOfAll_eq_flatMap, declarationsOfAll_eq_flatMap]
  exact flatMap_declarationsOf_rel (h.children.imp fun _ _ hchild => declarationsOf_rel hlaw hchild)

end Declarations

end Scope

/-! ## Files -/

/-- The second tree is the first one with comments inserted, none of them in a
place in which it is seen under the settings: in what a factory call calls,
takes as its type or takes as its options, or in the type declarations where
`Node.Undisturbed` forbids it. -/
structure InvisibleComments (settings : Settings) (root root' : Node) : Prop where
  inserted : Inserted (Factory.KeepsCallee settings.factoryNames) root root'
  grammatical : ∀ m ∈ root'.preorder, m.Grammatical
  calls : ∀ call ∈ Factory.calls settings.factoryNames root', Factory.Undisturbed call
  declarations : ∀ d ∈ (Scope.ofTree root' settings.int32Names).declarations,
    ∀ m ∈ d.preorder, m.Undisturbed settings.refPolicy

/-- Failures for the same reason: the same call misses the same requirement, the
same call or type is not there, or the same command breaks the same rule.  Lines
and the texts of types may differ. -/
inductive Failure.Alike : Failure → Failure → Prop
  | badCall (path : String) {fault fault' : FactoryFault} (fault_alike : fault.Alike fault') :
      Alike (.badCall path fault) (.badCall path fault')
  | noCall (path : String) (factories : List String) (typeName : Option String) :
      Alike (.noCall path factories typeName) (.noCall path factories typeName)
  | typeNotFound (path typeName : String) :
      Alike (.typeNotFound path typeName) (.typeNotFound path typeName)
  | rejected (path : String) {rejection rejection' : Rejection}
      (rejection_alike : Rejection.Alike Scope.SameBesideComments rejection rejection') :
      Alike (.rejected path rejection) (.rejected path rejection')

namespace InvisibleComments

variable {settings : Settings} {root root' : Node}
  (h : InvisibleComments settings root root')

include h

/-- What is known of the nodes of the two trees. -/
theorem inserted_grammatical :
    Inserted (fun n n' => n'.Grammatical ∧ Factory.KeepsCallee settings.factoryNames n n')
      root root' :=
  h.inserted.imp fun _ m' hm' hkept => ⟨h.grammatical m' hm', hkept⟩

/-- The factory calls make the same requests. -/
theorem requests_alike :
    AlikeOutcomes FactoryFault.Alike (List.Forall₂ Request.Alike)
      (Factory.requests settings.factoryNames root)
      (Factory.requests settings.factoryNames root') :=
  Factory.requests_alike (fun _ _ hP => hP) h.inserted_grammatical h.grammatical h.calls

/-- The scopes hold the same declarations but for comments that are not seen. -/
theorem commented :
    Scope.Commented settings.refPolicy (Scope.ofTree root settings.int32Names)
      (Scope.ofTree root' settings.int32Names) where
  int32Names := rfl
  declarations := by
    have hdeclarations := Scope.declarations_ofTree_rel (fun _ _ hP => hP.1)
      h.inserted_grammatical settings.int32Names
    refine forall₂_imp_of_mem hdeclarations fun d _ d' hd' hinserted => ?_
    exact hinserted.imp fun _ m' hm' hP => ⟨hP.1, h.declarations d' hd' m' hm'⟩

end InvisibleComments

namespace Extraction

variable {root root' : Node}

/-- The same types and commands are wanted. -/
theorem wanted_alike (settings : Settings) (selection : Selection) (path : String)
    (dialect : Dialect) (h : InvisibleComments settings root root') :
    AlikeOutcomes Failure.Alike (· = ·) (wanted settings selection ⟨path, dialect, root⟩)
      (wanted settings selection ⟨path, dialect, root'⟩) := by
  have hdiscovered : ∀ typeName (keep : String → Bool),
      AlikeOutcomes Failure.Alike (· = ·)
        (wanted.discovered settings ⟨path, dialect, root⟩ typeName fun r => keep r.typeName)
        (wanted.discovered settings ⟨path, dialect, root'⟩ typeName fun r => keep r.typeName) := by
    intro typeName keep
    have hrequests := h.requests_alike
    rw [wanted.discovered, wanted.discovered]
    generalize Factory.requests _ root = outcome, Factory.requests _ root' = outcome'
      at hrequests ⊢
    cases hrequests with
    | error hfault => exact .error (.badCall path hfault)
    | @ok requests requests' hrequests =>
        have hkept : List.Forall₂ Request.Alike (requests.filter fun r => keep r.typeName)
            (requests'.filter fun r => keep r.typeName) :=
          List.rel_filter (fun {r r'} hr => by simp only [hr.typeName]) hrequests
        have hpairs : List.Forall₂ (· = ·)
            ((requests.filter fun r => keep r.typeName).map fun r => (r.typeName, r.commands))
            ((requests'.filter fun r => keep r.typeName).map fun r => (r.typeName, r.commands)) :=
          List.rel_map (fun {r r'} hr => Prod.ext hr.typeName hr.commands) hkept
        rw [List.forall₂_eq_eq_eq] at hpairs
        simp only
        generalize requests.filter _ = kept, requests'.filter _ = kept' at hkept hpairs ⊢
        cases hkept with
        | nil => exact .error (.noCall path settings.factoryNames typeName)
        | cons hr hrest => exact .ok hpairs
  match selection with
  | .explicit typeName commands => exact .ok rfl
  | .discovered => exact hdiscovered none fun _ => true
  | .discoveredType typeName => exact hdiscovered (some typeName) (· = typeName)

/-- A type has the same component. -/
theorem component_alike (settings : Settings) (path : String) (dialect : Dialect)
    (h : InvisibleComments settings root root') (typeName : String)
    (commands : List String) :
    AlikeOutcomes Failure.Alike (· = ·)
      (component settings ⟨path, dialect, root⟩ typeName commands)
      (component settings ⟨path, dialect, root'⟩ typeName commands) := by
  have hscope := h.commented
  have hdeclared := hscope.declaration? typeName
  rw [component, component]
  simp only
  generalize Scope.ofTree root settings.int32Names = scope,
    Scope.ofTree root' settings.int32Names = scope' at hscope hdeclared ⊢
  generalize scope.declaration? typeName = d?, scope'.declaration? typeName = d'? at hdeclared ⊢
  cases hdeclared with
  | none => exact .error (.typeNotFound path typeName)
  | @some d d' hd =>
      have hextract := Contract.extract_alike hscope.alike_model hd commands
      simp only
      generalize Contract.extract scope.model settings.refPolicy d commands = outcome,
        Contract.extract scope'.model settings.refPolicy d' commands = outcome' at hextract ⊢
      cases hextract with
      | error hrejection => exact .error (.rejected path hrejection)
      | ok hcommands => exact .ok (by rw [hcommands])

/-- **Comments that are not seen change nothing**: whatever the settings and the
selection, the same types and commands are wanted from the two trees, and the
same components are extracted from them, or both extractions fail for the same
reason. -/
theorem ofFile_alike (settings : Settings) (selection : Selection) (path : String)
    (dialect : Dialect) (root root' : Node)
    (h : InvisibleComments settings root root') :
    let file : SourceFile := ⟨path, dialect, root⟩
    let file' : SourceFile := ⟨path, dialect, root'⟩
    AlikeOutcomes Failure.Alike (· = ·) (wanted settings selection file)
        (wanted settings selection file') ∧
      AlikeOutcomes Failure.Alike (· = ·) (ofFile settings selection file)
        (ofFile settings selection file') := by
  have hwanted := wanted_alike settings selection path dialect h
  refine ⟨hwanted, hwanted.bind fun requests _ hsame => ?_⟩
  rw [← hsame]
  have hrequests : List.Forall₂ (· = ·) requests requests := List.forall₂_same.mpr fun _ _ => rfl
  have hcomponents := AlikeOutcomes.mapM hrequests fun request _ hrequest => by
    rw [← hrequest]
    exact component_alike settings path dialect h request.1 request.2
  rwa [List.forall₂_eq_eq_eq] at hcomponents

/-- The tree of `interface B { m(r: R): void; }`, `interface I extends B {}` and
`codegenNativeCommands<I>({ supportedCommands: ['m'] });` on three lines, with
the given comment in front of `B` and of `'m'`. -/
def inheritedCommand (comment : Option String) : Node :=
  let gap := (comment.map (· ++ " ")).getD ""
  let comments (start : Position) : List Node :=
    comment.toList.map fun text => ⟨.comment, none, text, start, []⟩
  let reference (text : String) (role : Option Role) (start : Position) : Node :=
    ⟨.typeIdentifier, role, text, start, []⟩
  let parameter : Node := ⟨.requiredParameter, none, "r: R", ⟨1, 17⟩,
    [⟨.identifier, some .pattern, "r", ⟨1, 17⟩, []⟩,
      ⟨.annotatedType, some .type, ": R", ⟨1, 18⟩, [reference "R" none ⟨1, 20⟩]⟩]⟩
  let method : Node := ⟨.methodSignature, none, "m(r: R): void", ⟨1, 15⟩,
    [⟨.propertyName, some .name, "m", ⟨1, 15⟩, []⟩,
      ⟨.formalParameters, some .parameters, "(r: R)", ⟨1, 16⟩, [parameter]⟩,
      ⟨.annotatedType, some .returnType, ": void", ⟨1, 22⟩,
        [⟨.predefinedType, none, "void", ⟨1, 24⟩, []⟩]⟩]⟩
  let base : Node := ⟨.interfaceDeclaration, none, "interface B \x7b m(r: R): void; \x7d", ⟨1, 1⟩,
    [reference "B" (some .name) ⟨1, 11⟩,
      ⟨.interfaceBody, some .body, "\x7b m(r: R): void; \x7d", ⟨1, 13⟩, [method]⟩]⟩
  let owner : Node := ⟨.interfaceDeclaration, none,
    "interface I extends " ++ gap ++ "B \x7b\x7d", ⟨2, 1⟩,
    [reference "I" (some .name) ⟨2, 11⟩,
      ⟨.extendsTypeClause, none, "extends " ++ gap ++ "B", ⟨2, 13⟩,
        comments ⟨2, 21⟩ ++ [reference "B" (some .type) ⟨2, 21 + gap.length⟩]⟩,
      ⟨.interfaceBody, some .body, "\x7b\x7d", ⟨2, 23 + gap.length⟩, []⟩]⟩
  let names : Node := ⟨.array, some .value, "[" ++ gap ++ "'m']", ⟨3, 47⟩,
    comments ⟨3, 48⟩ ++ [⟨.stringLiteral, none, "'m'", ⟨3, 48 + gap.length⟩,
      [⟨.stringFragment, none, "m", ⟨3, 49 + gap.length⟩, []⟩]⟩]⟩
  let options : Node := ⟨.object, none, "\x7b supportedCommands: [" ++ gap ++ "'m'] \x7d", ⟨3, 26⟩,
    [⟨.pair, none, "supportedCommands: [" ++ gap ++ "'m']", ⟨3, 28⟩,
      [⟨.propertyName, some .key, "supportedCommands", ⟨3, 28⟩, []⟩, names]⟩]⟩
  let call : Node := ⟨.callExpression, none,
    "codegenNativeCommands<I>(\x7b supportedCommands: [" ++ gap ++ "'m'] \x7d)", ⟨3, 1⟩,
    [⟨.identifier, some .function, "codegenNativeCommands", ⟨3, 1⟩, []⟩,
      ⟨.typeArguments, some .typeArguments, "<I>", ⟨3, 22⟩, [reference "I" none ⟨3, 23⟩]⟩,
      ⟨.arguments, some .arguments, "(\x7b supportedCommands: [" ++ gap ++ "'m'] \x7d)", ⟨3, 25⟩,
        [options]⟩]⟩
  ⟨.program, none, base.text ++ "\n" ++ owner.text ++ "\n" ++ call.text ++ ";", ⟨1, 1⟩,
    [base, owner, ⟨.otherStatement, none, call.text ++ ";", ⟨3, 1⟩, [call]⟩]⟩

/-- The command is found through both comments. -/
theorem ofFile_alike_inheritedCommand :
    let plain : SourceFile := ⟨"View.ts", .typeScript, inheritedCommand none⟩
    let commented : SourceFile := ⟨"View.ts", .typeScript, inheritedCommand (some "/* of B */")⟩
    InvisibleComments .default plain.root commented.root ∧
      ofFile .default .discovered plain = .ok [⟨"View.ts", "I", [⟨"m", false, []⟩]⟩] ∧
      ofFile .default .discovered commented = .ok [⟨"View.ts", "I", [⟨"m", false, []⟩]⟩] := by
  intro plain commented
  have hinserted : Inserted (Factory.KeepsCallee Settings.default.factoryNames) plain.root
      commented.root := by
    repeat' first
      | exact .nil
      | apply List.Forall₂.cons
      | refine .mk rfl rfl (by decide +kernel) (by decide +kernel) ?_ (by decide +kernel)
  have hinvisible : InvisibleComments .default plain.root commented.root :=
    ⟨hinserted, by decide +kernel, by decide +kernel, by decide +kernel⟩
  have hplain : ofFile .default .discovered plain =
      .ok [⟨"View.ts", "I", [⟨"m", false, []⟩]⟩] := by
    decide +kernel
  have halike : AlikeOutcomes Failure.Alike (· = ·) (ofFile .default .discovered plain)
      (ofFile .default .discovered commented) :=
    (ofFile_alike .default .discovered "View.ts" .typeScript _ _ hinvisible).2
  refine ⟨hinvisible, hplain, ?_⟩
  rw [hplain] at halike
  generalize ofFile .default .discovered commented = outcome at halike ⊢
  cases halike with
  | ok hsame => rw [hsame]

/-- **Comments that are seen.**  In front of the type argument or the options of a
call a comment makes the call unreadable.  In front of the type in an annotation, a
parenthesis or behind `readonly` it is taken for the type, so that a parameter is
of no category and a result is not void, and a union with a comment among its
members is of no class either.  Among the arguments of a reference it keeps the
reference from being a wrapper around one string literal. -/
theorem comment_seen (scope : Scope) {c : Node} (hc : c.isComment = true) :
    (∀ call, Factory.firstOf? .typeArguments call = some c →
      Factory.read call =
        .error ⟨(Factory.callee? call).getD "", call.start.line, .typeArgument⟩) ∧
    (∀ call typeName, Factory.typeName? call = some typeName →
      Factory.firstOf? .arguments call = some c →
      Factory.read call = .error ⟨(Factory.callee? call).getD "", call.start.line, .options⟩) ∧
    (∀ n : Node, n.kind = .annotatedType ∨ n.kind = .parenthesizedType ∨ n.kind = .readonlyType →
      n.firstNamed? = some c →
      scope.resolve n = .other c.text ∧ (scope.resolve n).isVoid = false ∧
        ∀ category, (scope.resolve n).isOf category = false) ∧
    (∀ n : Node, n.kind = .unionType → c ∈ n.namedChildren →
      ∀ category, (scope.resolve n).isOf category = false) ∧
    ∀ (n list : Node) (policy : RefPolicy), n.kind = .genericType →
      n.child? .typeArguments = some list → c ∈ list.namedChildren →
      policy.check = .stringLiteral → policy.accepts n.reference? = false := by
  refine ⟨fun _ => Factory.read_of_comment_typeArgument hc,
    fun _ _ => Factory.read_of_comment_options hc, fun n hkind hfirst => ?_,
    fun _ => Scope.isOf_resolve_of_comment_member hc,
    fun n list policy hkind hlist hmem hcheck => ?_⟩
  · have htaken : scope.resolve n = .other c.text := Scope.resolve_of_comment_first hc hkind hfirst
    rw [htaken]
    exact ⟨rfl, rfl, fun category => by cases category <;> rfl⟩
  have hwrapped := Scope.isWrapped_of_comment_argument policy hkind hlist hmem hc
  cases hreference : n.reference? with
  | none => rfl
  | some reference =>
      rw [RefPolicy.accepts, hcheck]
      exact hwrapped reference hreference

end Extraction

end CommandSchema
