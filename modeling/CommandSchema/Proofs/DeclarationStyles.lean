import CommandSchema.Proofs.Reachability

/-!
# CommandSchema.Proofs.DeclarationStyles

Commands that are declared as methods or as properties.

A method `m(P): R` and a property `m: (P) => R` are read by different ways: the
parts of a method are read off its node, and the type of a property is resolved
and asked for the ways in which it can be called.  A property may also have an
object type with a call signature, stand in parentheses or name an alias of any of
these: all that counts is the signature that its type comes to
(`Scope.Restyled`).  The two ways lead to the same commands, and to the same
reports where a command is rejected (`Extraction.explicit_agree_of_restyled`).

The one thing in a report that can tell the styles apart is an unexpected result
type: where it stands for the object type in which the command itself is declared,
the report quotes the command in its own style
(`Extraction.explicit_restyled_quotes`).

That type declarations stand among statements only is a law that every parsed
file obeys (`SourceFile.declaresInStatements_root`).
-/

namespace CommandSchema

open Syntax Syntax.Node

/-! ## Signatures -/

namespace Syntax.Node

/-- Two nodes have the same type parameters, parameters and result. -/
structure SameSignature (n n' : Node) : Prop where
  typeParameters : Option.Rel Copy (n.child? .typeParameters) (n'.child? .typeParameters)
  parameters : Option.Rel Copy (n.child? .parameters) (n'.child? .parameters)
  result : Option.Rel Copy n.result? n'.result?

/-- A type that can be called in one way: a function type, or an object type with
a single call signature. -/
inductive CallableAs : Node → Node → Prop
  | function {n : Node} (kind : n.kind = .functionType) : CallableAs n n
  | object {n signature : Node} (kind : n.kind = .objectType)
      (single : n.namedChildren.filter (·.kind = .callSignature) = [signature]) :
      CallableAs n signature

end Syntax.Node

namespace Scope

/-- A method and a property that declare the same command: the type of the
property leads to a type that can be called with the signature of the method. -/
structure Restyled (scope' : Scope) (method property : Node) : Prop where
  isMethod : method.kind = .methodSignature
  isProperty : property.kind = .propertySignature
  optional : property.isOptional = method.isOptional
  signature : ∃ type k last signature, property.child? .type = some type ∧ k ≤ maxDepth ∧
    scope'.LeadsIn k type.unannotated last ∧ last.CallableAs signature ∧
    method.SameSignature signature

/-- A type that can be called in one way is resolved to one with this way. -/
theorem callSignatures_of_leadsIn {scope : Scope} {k : Nat} {n last signature : Node}
    (h : scope.LeadsIn k n last) (hk : k ≤ maxDepth) (hlast : last.CallableAs signature) :
    scope.model.callSignatures (scope.model.resolve n) = [scope.callSignature signature] := by
  obtain ⟨htarget, hinterface, hunion, halias⟩ : scope.target? last = none ∧
      last.kind ≠ .interfaceDeclaration ∧ last.kind ≠ .unionType ∧
      last.kind ≠ .typeAliasDeclaration := by
    cases hlast with
    | function kind | object kind => simp [target?, kind]
  have hpath : ∀ a ∈ ([] : List Node), ∃ j, k < j ∧ scope.LeadsIn j a last := by simp
  obtain ⟨path, htype⟩ := typeWithin_of_leadsIn h htarget hpath
    (show k ≤ maxDepth + 1 by omega) []
  obtain ⟨steps, hsteps⟩ : ∃ i, maxDepth + 1 - k = i + 1 := ⟨maxDepth - k, by omega⟩
  have hresolve : scope.model.resolve n = scope.typeWithin (steps + 1) path last [] := by
    rw [← hsteps, ← htype]
    rfl
  rw [hresolve, typeWithin, resolveWithin_of_target?_eq_none htarget hinterface hunion steps
    fun kind => absurd kind halias, ownType]
  cases hlast with
  | function kind =>
      rw [kind]
      rfl
  | object kind single =>
      have hnodes : (ResolvedType.object last.text [[last]]).signatureNodes = [signature] := by
        rw [ResolvedType.signatureNodes, List.flatten_singleton, List.flatMap_singleton, single]
      rw [kind]
      exact congrArg (List.map scope.callSignature) hnodes

namespace Rewriting

variable {w : Rewriting}

/-- Copies of types within the names that count. -/
theorem typeCopy_result? {n n' : Node} (hwithin : n.RefersWithin w.names)
    (hkind : n.kind.holdsStatements = false) (h : Option.Rel Copy n.result? n'.result?) :
    Option.Rel w.TypeCopy n.result? n'.result? := by
  refine rel_imp_of_mem h fun t ht t' _ hcopy => ?_
  obtain ⟨c, hc, rfl⟩ := Option.map_eq_some_iff.mp ht
  have hchild : c ∈ n.children := mem_children_of_child? hc
  have hself : w.TypeCopy c c := ⟨⟨⟨rfl, rfl, rfl⟩, hwithin.of_mem_children hchild⟩,
    hwithin.lawful.declaresType_eq_false hkind hchild⟩
  exact ⟨⟨hcopy, hself.unannotated.copy.within⟩, hself.unannotated.plain⟩

/-- **A method and a property for it agree**: both have the same signature, or
break the same rule. -/
theorem declarationAgree_of_restyled {m m' : Node} (hwithin : m.RefersWithin w.names)
    (h : w.scope'.Restyled m m') :
    Contract.DeclarationAgree w.TypeCopy w.SameExpression w.texts w.scope.model w.scope'.model
      m.declaration m'.declaration := by
  obtain ⟨hmethod, hproperty, hoptional, type, k, last, s, htype, hk, hleads, hcall, hsame⟩ := h
  have hstatements : m.kind.holdsStatements = false := by rw [hmethod]
  have hlist : Option.Rel (CopyWithin w.names) (m.child? .parameters) (s.child? .parameters) :=
    rel_imp_of_mem hsame.parameters fun c hc _ _ hcopy =>
      ⟨hcopy, hwithin.of_mem_children (mem_children_of_child? hc)⟩
  have hcount : s.typeParameterCount = m.typeParameterCount :=
    copying_copy.typeParameterCount_eq_of hsame.typeParameters
  have hresult : Contract.ResultAgree w.SameExpression w.scope'.model
      (m.result?.map w.scope.resolve) (some (w.scope'.callSignature s).result) := by
    rw [callSignature]
    have hresults := typeCopy_result? hwithin hstatements hsame.result
    generalize m.result? = result?, s.result? = result'? at hresults ⊢
    cases hresults with
    | none => exact .implicit rfl rfl
    | some ht => exact .typed (.written ht)
  rw [Contract.DeclarationAgree, declaration, declaration, hmethod, hproperty]
  simp only [htype, Option.map_some, Contract.signatureOf, Contract.signatureOfCall,
    callSignatures_of_leadsIn hleads hk hcall, callSignature, hcount]
  split
  · exact .error .generic
  · exact (Contract.mapM_plainParameter_agree (parameterSites_alike hlist)).bind
      fun ps ps' hps => .ok ⟨hoptional.symm, hresult, hps⟩

end Rewriting

end Scope

/-! ## Unexpected results -/

/-- Where the declarations of a member agree and its result is unexpected on both
sides, the two results agree. -/
theorem Contract.resultAgree_of_firstViolation {N N' T T' : Type} {R : N → N' → Prop}
    {S : T → T' → Prop} {texts : ReportTexts} {model : TypeModel N T} {model' : TypeModel N' T'}
    {policy : RefPolicy} {owner : T} {owner' : T'} {name type type' : String}
    (hdeclared : Option.Rel (List.Forall₂ (DeclarationAgree R S texts model model'))
      (model.declarations? owner name) (model'.declarations? owner' name))
    (h : FirstViolation model policy owner name (.nonVoidResult type))
    (h' : FirstViolation model' policy owner' name (.nonVoidResult type')) :
    ∃ result? result'?, Returns model owner name result? ∧ Returns model' owner' name result'? ∧
      type = writtenResult model result? ∧ type' = writtenResult model' result'? ∧
      ResultAgree S model' result? result'? := by
  cases h with
  | @nonVoidResult d _ result? declared called =>
    cases h' with
    | @nonVoidResult d' _ result'? declared' called' =>
      have hd : DeclarationAgree R S texts model model' d d' := by
        rw [declared, declared'] at hdeclared
        cases hdeclared with
        | some hall => exact (List.forall₂_cons.mp hall).1
      obtain ⟨style, hsignature⟩ := signatureOf_of_calls called
      obtain ⟨style', hsignature'⟩ := signatureOf_of_calls called'
      rw [mapM_plainParameter_plain] at hsignature hsignature'
      rw [DeclarationAgree, hsignature, hsignature'] at hd
      cases hd with
      | ok hagree =>
          exact ⟨result?, result'?, ⟨d, _, declared, called⟩, ⟨d', _, declared', called'⟩, rfl,
            rfl, hagree.result⟩

namespace Scope

/-! ## Files with restyled members -/

/-- Two trees in which the declarations of the names that a type reaches are the
same but for restyled members. -/
def Rewriting.ofRestyled (root root' : Node) (int32Names : List String) (typeName : String)
    (hlaw : root.DeclaresInStatements)
    (h : ∀ name, (ofTree root int32Names).Reaches typeName name →
      List.Forall₂ (Rewritten (ofTree root' int32Names).Restyled)
        ((ofTree root int32Names).declarationsNamed name)
        ((ofTree root' int32Names).declarationsNamed name)) : Rewriting where
  scope := ofTree root int32Names
  scope' := ofTree root' int32Names
  names := (ofTree root int32Names).Reaches typeName
  member := (ofTree root' int32Names).Restyled
  int32Names := rfl
  declarations := h
  within _ hname _ hd := ⟨hlaw.of_mem (mem_preorder_of_mem_declarationsNamed hd),
    fun _ hmentioned => .mention hname hd hmentioned⟩

/-- The declaration of a command of a named type returns a type. -/
def CommandReturns (scope : Scope) (typeName command : String) (result : ResolvedType) : Prop :=
  ∃ owner, scope.declaration? typeName = some owner ∧
    Contract.Returns scope.model (scope.resolve owner) command (some result)

/-- Two types that copies of one result type stand for.  Variant by variant they
have the same text, or quote corresponding nodes around a restyled member. -/
def SameResult (scope scope' : Scope) (t t' : ResolvedType) : Prop :=
  ∃ n n', Copy n n' ∧ t = scope.resolve n ∧ t' = scope'.resolve n' ∧
    List.Forall₂ (Quotes scope scope' scope'.Restyled n n') t.variants t'.variants

/-- Types of copies of one expression are the same, or the result types of copies. -/
theorem Rewriting.eq_or_sameResult {w : Rewriting} (hstyles : w.member = w.scope'.Restyled)
    {t t' : ResolvedType} (h : w.SameExpression t t') :
    t' = t ∨ w.scope.SameResult w.scope' t t' := by
  cases h with
  | leaf => exact .inl rfl
  | @written n n' hcopy =>
      have hquotes := quotes_resolve hcopy.linked
      rw [hstyles] at hquotes
      exact .inr ⟨n, n', hcopy.copy.copy, rfl, rfl, hquotes⟩

end Scope

namespace Extraction

/-- Reports of the same failure for a type in two scopes.  The owner of a rejected
command may be another one, and an unexpected result is reported as each scope
quotes it. -/
inductive SameReport (scope scope' : Scope) (typeName : String) : Failure → Failure → Prop
  | missing (path : String) :
      SameReport scope scope' typeName (.typeNotFound path typeName) (.typeNotFound path typeName)
  | rejected {path : String} {r r' : Rejection} (command : r'.command = r.command)
      (violation : r'.violation = r.violation) :
      SameReport scope scope' typeName (.rejected path r) (.rejected path r')
  | result {path : String} {r r' : Rejection} {t t' : ResolvedType}
      (command : r'.command = r.command)
      (left : scope.CommandReturns typeName r.command t)
      (right : scope'.CommandReturns typeName r.command t')
      (reported : r.violation = .nonVoidResult t.text)
      (reported' : r'.violation = .nonVoidResult t'.text)
      (quoted : scope.SameResult scope' t t') :
      SameReport scope scope' typeName (.rejected path r) (.rejected path r')

/-- Rejections that agree under a rewriting with restyled members are reported
alike. -/
theorem sameReport_of_agree {w : Scope.Rewriting} (hstyles : w.member = w.scope'.Restyled)
    {typeName path owner owner' : String} {d d' : Node} {policy : RefPolicy} {r r' : Rejection}
    (hfound : w.scope.declaration? typeName = some d)
    (hfound' : w.scope'.declaration? typeName = some d')
    (hdeclared : ∀ name, Option.Rel (List.Forall₂ (Contract.DeclarationAgree w.TypeCopy
        w.SameExpression w.texts w.scope.model w.scope'.model))
      (w.scope.model.declarations? (w.scope.resolve d) name)
      (w.scope'.model.declarations? (w.scope'.resolve d') name))
    (hfirst : Contract.FirstViolation w.scope.model policy (w.scope.resolve d) r.command
      r.violation)
    (hfirst' : Contract.FirstViolation w.scope'.model policy (w.scope'.resolve d') r'.command
      r'.violation)
    (h : Rejection.Agree w.texts owner owner' r r') :
    SameReport w.scope w.scope' typeName (.rejected path r) (.rejected path r') := by
  obtain ⟨command, -, -, violation⟩ := h
  obtain ⟨name, _, v⟩ := r
  obtain ⟨_, _, v'⟩ := r'
  obtain rfl : name = _ := command
  cases violation with
  | nonVoidResult =>
      obtain ⟨result?, result'?, hreturns, hreturns', rfl, rfl, hagree⟩ :=
        Contract.resultAgree_of_firstViolation (hdeclared name) hfirst hfirst'
      have hwritten (scope : Scope) (t : ResolvedType) :
          Contract.writtenResult scope.model (some t) = t.text := rfl
      have hunwritten (scope : Scope) :
          Contract.writtenResult scope.model none = Contract.implicitAny := rfl
      cases hagree with
      | missing =>
          rw [hunwritten, hunwritten]
          exact .rejected rfl rfl
      | @implicit t' _ htext =>
          rw [hunwritten, hwritten]
          exact .rejected rfl (congrArg Violation.nonVoidResult htext)
      | @typed t t' ht =>
          rw [hwritten, hwritten]
          rcases Scope.Rewriting.eq_or_sameResult hstyles ht with rfl | hsame
          · exact .rejected rfl rfl
          · exact .result rfl ⟨d, hfound, hreturns⟩ ⟨d', hfound', hreturns'⟩ rfl rfl hsame
  | malformedParameter htext | invalidRef htext | unsupportedParameter _ htext =>
      cases htext
      exact .rejected rfl rfl
  | _ => exact .rejected rfl rfl

/-- **The styles of declaration are interchangeable**: two files in which all
declarations that a type reaches are the same but for methods of the first file
that are properties with the same signature in the second one have the same
commands for the type, and the same reports where one is rejected.  Only the
result type of a rejected command may be reported in two ways, as far as it quotes
nodes around such members. -/
theorem explicit_agree_of_restyled (settings : Settings) (path : String)
    (dialect dialect' : Dialect) (root root' : Node) (hlaw : root.DeclaresInStatements)
    (typeName : String)
    (h : ∀ name, (Scope.ofTree root settings.int32Names).Reaches typeName name →
      List.Forall₂ (Rewritten (Scope.ofTree root' settings.int32Names).Restyled)
        ((Scope.ofTree root settings.int32Names).declarationsNamed name)
        ((Scope.ofTree root' settings.int32Names).declarationsNamed name))
    (commands : List String) :
    AlikeOutcomes
      (SameReport (Scope.ofTree root settings.int32Names) (Scope.ofTree root' settings.int32Names)
        typeName) (· = ·)
      (ofFile settings (.explicit typeName commands) ⟨path, dialect, root⟩)
      (ofFile settings (.explicit typeName commands) ⟨path, dialect', root'⟩) := by
  let w : Scope.Rewriting := .ofRestyled root root' settings.int32Names typeName hlaw h
  have hdeclared := rel_imp_of_mem (Scope.Rewriting.declaration?_rel (w := w) .first)
    fun d hd d' hd' hlinked => And.intro (And.intro hd hd') hlinked
  refine explicit_alike hdeclared (fun _ => .missing path) fun d d' hd => ?_
  have hsites (name : String) := Scope.Rewriting.memberSites?_rel
    (Scope.Rewriting.resolve_similar hd.2) name
  have hmembers : w.MembersAgree := fun _ _ hwithin hm =>
    Scope.Rewriting.declarationAgree_of_restyled hwithin hm
  have hagree := Scope.Rewriting.extract_agree hmembers hsites settings.refPolicy commands
  refine hagree.with_errors.imp (fun r r' hr => ?_) fun _ _ h => h
  obtain ⟨hr, hfails, hfails'⟩ := hr
  exact sameReport_of_agree rfl hd.1.1 hd.1.2
    (Scope.Rewriting.declarations?_agree hmembers hsites)
    (Contract.firstViolation_of_extract_eq_error hfails)
    (Contract.firstViolation_of_extract_eq_error hfails') hr

/-! ### A method and a property -/

/-- `interface V { a(r: R): void }` -/
def methodStyle : Node := fileOf [interfaceAt 1 "V" [] [methodAt 1 "a"]]

/-- The property `name: type` in a line. -/
def propertyAt (line : Nat) (name type : String) : Node :=
  ⟨.propertySignature, none, name ++ ": " ++ type, ⟨line, 1⟩,
    [⟨.propertyName, some .name, name, ⟨line, 1⟩, []⟩,
      ⟨.annotatedType, some .type, ": " ++ type, ⟨line, 1⟩, [referenceAt line type none]⟩]⟩

/-- The object type with the call signature `(r: R): void` in a line. -/
def callableAt (line : Nat) : Node :=
  ⟨.objectType, some .value, "", ⟨line, 1⟩,
    [⟨.callSignature, none, "(r: R): void", ⟨line, 1⟩, (methodAt line "").children.tail⟩]⟩

/-- `type F = { (r: R): void }` and `interface V { a: F }`. -/
def propertyStyle : Node :=
  fileOf [⟨.typeAliasDeclaration, none, "F", ⟨1, 1⟩,
      [referenceAt 1 "F" (some .name), callableAt 1]⟩,
    interfaceAt 2 "V" [] [propertyAt 2 "a" "F"]]

/-- Both files have the same command of `V`. -/
theorem explicit_agree_of_restyled_alias :
    AlikeOutcomes
      (SameReport (Scope.ofTree methodStyle Settings.default.int32Names)
        (Scope.ofTree propertyStyle Settings.default.int32Names) "V") (· = ·)
      (ofFile .default (.explicit "V" ["a"]) ⟨"V.ts", .typeScript, methodStyle⟩)
      (ofFile .default (.explicit "V" ["a"]) ⟨"V.ts", .typeScript, propertyStyle⟩) ∧
    ofFile .default (.explicit "V" ["a"]) ⟨"V.ts", .typeScript, methodStyle⟩ =
      .ok [⟨"V.ts", "V", [⟨"a", false, []⟩]⟩] := by
  let scope' : Scope := Scope.ofTree propertyStyle Settings.default.int32Names
  have hrestyled : scope'.Restyled (methodAt 1 "a") (propertyAt 2 "a" "F") := by
    let callable : Node := ⟨.typeAliasDeclaration, none, "F", ⟨1, 1⟩,
      [referenceAt 1 "F" (some .name), callableAt 1]⟩
    have hdeclared : scope'.declaration? "F" = some callable := by decide +kernel
    have hleads : scope'.LeadsIn 2 (referenceAt 2 "F" none) (callableAt 1) :=
      .step (.reference (.inl rfl) (by decide +kernel) hdeclared)
        (.step (.aliased rfl rfl) (.refl _))
    exact ⟨rfl, rfl, rfl, _, 2, _, _, rfl, by decide, hleads, .object rfl rfl,
      ⟨.none, .some ⟨rfl, rfl, rfl⟩, .some ⟨rfl, rfl, rfl⟩⟩⟩
  refine ⟨explicit_agree_of_restyled .default "V.ts" .typeScript .typeScript methodStyle
    propertyStyle (by decide +kernel) "V" (fun name hname => ?_) ["a"], by decide +kernel⟩
  have hmem : name ∈ ["V", "R"] := hname.mem (by simp) (by decide +kernel)
  rcases List.mem_pair.mp hmem with rfl | rfl
  · refine .cons (.around rfl rfl (.inl rfl) rfl rfl (.cons (.copy ⟨rfl, rfl, rfl⟩)
      (.cons ?_ .nil))) .nil
    exact .members rfl rfl (.inl rfl) (.cons (.rewritten rfl rfl rfl hrestyled) .nil)
  · exact .nil

/-- A command that returns the object type in which it is declared is rejected with
the text of this type, which has the command in one style or the other. -/
theorem explicit_restyled_quotes :
    ofText .default (.explicit "O" ["m"]) "O.ts" "type O = \x7b m(r: R): O \x7d" =
        .error (.rejected "O.ts" ⟨"m", "type O = \x7b m(r: R): O \x7d",
          .nonVoidResult "\x7b m(r: R): O \x7d"⟩) ∧
      ofText .default (.explicit "O" ["m"]) "O.ts" "type O = \x7b m: (r: R) => O \x7d" =
        .error (.rejected "O.ts" ⟨"m", "type O = \x7b m: (r: R) => O \x7d",
          .nonVoidResult "\x7b m: (r: R) => O \x7d"⟩) := by
  decide +kernel

end Extraction

end CommandSchema
