import CommandSchema.Command.Contract
import CommandSchema.Proofs.Traversal

/-!
# CommandSchema.Proofs.Contract.Agreement

Requests to two type models that agree.

The extraction of commands sees expressions and types through the answers of a
type model only.  `TypeModel.Agree` says that two models answer questions about
related expressions and types alike; the texts that they report are related in
some way of their own (`ReportTexts`).  Then signatures that agree are checked
alike, whichever way they are declared, and so one lemma for each function of
the contract leads to the extraction of commands (`Contract.extract_agree`).
The categories of types matter for the parameters behind the ref only, so up to
these the lemmas ask for less (`TypeModel.AgreeOnShapes`).
-/

namespace CommandSchema

variable {N N' T T' : Type}

/-! ## Reports that agree -/

/-- How the texts that two sides report are related: those of places without a
plain parameter, of expressions and of types. -/
structure ReportTexts where
  place : String → String → Prop
  expression : String → String → Prop
  type : String → String → Prop
  expression_refl : ∀ text, expression text text
  type_refl : ∀ text, type text text

/-- Related texts are the same. -/
structure ReportTexts.Same (texts : ReportTexts) : Prop where
  place : ∀ {a b}, texts.place a b → a = b
  expression : ∀ {a b}, texts.expression a b → a = b
  type : ∀ {a b}, texts.type a b → a = b

/-- The same rule is broken, and the texts are related. -/
inductive Violation.Agree (texts : ReportTexts) : Violation → Violation → Prop
  | memberNotFound : Agree texts .memberNotFound .memberNotFound
  | ambiguous (count : Nat) : Agree texts (.ambiguous count) (.ambiguous count)
  | notAFunction : Agree texts .notAFunction .notAFunction
  | generic : Agree texts .generic .generic
  | malformedParameter {place place' : String} (htext : texts.place place place') :
      Agree texts (.malformedParameter place) (.malformedParameter place')
  | nonVoidResult {type type' : String} (htext : texts.type type type') :
      Agree texts (.nonVoidResult type) (.nonVoidResult type')
  | missingRef : Agree texts .missingRef .missingRef
  | invalidRef {type type' : String} (htext : texts.expression type type') :
      Agree texts (.invalidRef type) (.invalidRef type')
  | unsupportedParameter (name : String) {type type' : String}
      (htext : texts.expression type type') :
      Agree texts (.unsupportedParameter name type) (.unsupportedParameter name type')

/-- The same command is rejected for breaking the same rule, on the two given
owners. -/
structure Rejection.Agree (texts : ReportTexts) (owner owner' : String)
    (rejection rejection' : Rejection) : Prop where
  command : rejection.command = rejection'.command
  left : rejection.owner = owner
  right : rejection'.owner = owner'
  violation : Violation.Agree texts rejection.violation rejection'.violation

/-- Violations with the same texts are the same. -/
theorem Violation.Agree.eq {texts : ReportTexts} (hsame : texts.Same) {v v' : Violation}
    (h : Agree texts v v') : v = v' := by
  cases h with
  | memberNotFound | ambiguous | notAFunction | generic | missingRef => rfl
  | malformedParameter htext => rw [hsame.place htext]
  | nonVoidResult htext => rw [hsame.type htext]
  | invalidRef htext | unsupportedParameter _ htext => rw [hsame.expression htext]

/-- Rejections with the same texts are the same, but for the owners. -/
theorem Rejection.Agree.eq {texts : ReportTexts} (hsame : texts.Same) {owner owner' : String}
    {e e' : Rejection} (h : Agree texts owner owner' e e') : e' = { e with owner := owner' } := by
  have hviolation : e.violation = e'.violation := h.violation.eq hsame
  cases e'
  rw [Rejection.mk.injEq]
  exact ⟨h.command.symm, h.right, hviolation.symm⟩

/-! ## Answers that agree -/

section Answers

variable (R : N → N' → Prop) (S : T → T' → Prop) (text : String → String → Prop)

/-- The same plain parameter of related types, or two places with related
texts that hold none. -/
inductive ParameterSite.Alike : ParameterSite N → ParameterSite N' → Prop
  | plain {name : String} {type? : Option N} {type'? : Option N'}
      (htype : Option.Rel R type? type'?) : Alike (.plain ⟨name, type?⟩) (.plain ⟨name, type'?⟩)
  | other {place place' : String} (htext : text place place') : Alike (.other place) (.other place')

/-- Declarations of the same form with related types. -/
inductive Declaration.Alike : Declaration N → Declaration N' → Prop
  | method {optional : Bool} {typeParameters : Nat} {sites : List (ParameterSite N)}
      {sites' : List (ParameterSite N')} {result? : Option N} {result'? : Option N'}
      (hsites : List.Forall₂ (ParameterSite.Alike R text) sites sites')
      (hresult : Option.Rel R result? result'?) :
      Alike (.method optional typeParameters sites result?)
        (.method optional typeParameters sites' result'?)
  | property {optional : Bool} {type? : Option N} {type'? : Option N'}
      (htype : Option.Rel R type? type'?) :
      Alike (.property optional type?) (.property optional type'?)
  | other {kind kind' : String} : Alike (.other kind) (.other kind')

/-- Call signatures of the same form with related types. -/
structure CallSignature.Alike (call : CallSignature N T) (call' : CallSignature N' T') : Prop where
  typeParameters : call.typeParameters = call'.typeParameters
  parameters : List.Forall₂ (ParameterSite.Alike R text) call.parameters call'.parameters
  result : S call.result call'.result

variable {text} in
theorem ParameterSite.alike_refl (htext : ∀ a, text a a) (site : ParameterSite N) :
    ParameterSite.Alike (· = ·) text site site := by
  cases site with
  | plain p => exact .plain (rel_self (fun _ => rfl) _)
  | other place => exact .other (htext place)

variable {text} in
/-- A declaration is alike itself. -/
theorem Declaration.alike_refl (htext : ∀ a, text a a) (d : Declaration N) :
    Declaration.Alike (· = ·) text d d := by
  have hsites (sites : List (ParameterSite N)) :
      List.Forall₂ (ParameterSite.Alike (· = ·) text) sites sites :=
    List.forall₂_same.mpr fun site _ => site.alike_refl htext
  cases d with
  | method => exact .method (hsites _) (rel_self (fun _ => rfl) _)
  | property => exact .property (rel_self (fun _ => rfl) _)
  | other => exact .other

/-- Two type models agree on related expressions and types, the categories of
types left aside, under a policy on refs. -/
structure TypeModel.AgreeOnShapes (texts : ReportTexts) (policy : RefPolicy)
    (model : TypeModel N T) (model' : TypeModel N' T') : Prop where
  resolve : ∀ n n', R n n' → S (model.resolve n) (model'.resolve n')
  callSignatures : ∀ t t', S t t' → List.Forall₂ (CallSignature.Alike R S texts.place)
    (model.callSignatures t) (model'.callSignatures t')
  isVoid : ∀ t t', S t t' → model.isVoid t = model'.isVoid t'
  accepts : ∀ n n', R n n' →
    policy.accepts (model.reference? n) = policy.accepts (model'.reference? n')
  exprText : ∀ n n', R n n' → texts.expression (model.exprText n) (model'.exprText n')
  typeText : ∀ t t', S t t' → texts.type (model.typeText t) (model'.typeText t')

/-- Two type models agree on related expressions and types, under a policy on
refs. -/
structure TypeModel.Agree (texts : ReportTexts) (policy : RefPolicy) (model : TypeModel N T)
    (model' : TypeModel N' T') : Prop
    extends TypeModel.AgreeOnShapes R S texts policy model model' where
  isString : ∀ t t', S t t' → model.isString t = model'.isString t'
  isBoolean : ∀ t t', S t t' → model.isBoolean t = model'.isBoolean t'
  isInt32 : ∀ t t', S t t' → model.isInt32 t = model'.isInt32 t'

end Answers

namespace Contract

/-! ## Signatures that agree -/

section Signatures

variable (R : N → N' → Prop) (S : T → T' → Prop) (texts : ReportTexts)

/-- The same name with related types. -/
structure ParameterAlike (R : N → N' → Prop) (p : Parameter N) (p' : Parameter N') : Prop where
  name : p.name = p'.name
  type : Option.Rel R p.type? p'.type?

/-- Results that are checked alike: related types, or none on the first side and
on the second one none or a type that is not void and has the text of a missing
one. -/
inductive ResultAgree (model' : TypeModel N' T') : Option T → Option T' → Prop
  | typed {t : T} {t' : T'} (h : S t t') : ResultAgree model' (some t) (some t')
  | missing : ResultAgree model' none none
  | implicit {t' : T'} (hvoid : model'.isVoid t' = false)
      (htext : model'.typeText t' = implicitAny) : ResultAgree model' none (some t')

/-- Signatures that are checked alike. -/
structure SignatureAgree (model' : TypeModel N' T') (signature : Signature N T)
    (signature' : Signature N' T') : Prop where
  optional : signature.optional = signature'.optional
  result : ResultAgree S model' signature.result? signature'.result?
  parameters : List.Forall₂ (ParameterAlike R) signature.parameters signature'.parameters

/-- Two declarations of a command have signatures that agree, or break the same
rule. -/
def DeclarationAgree (model : TypeModel N T) (model' : TypeModel N' T') (d : Declaration N)
    (d' : Declaration N') : Prop :=
  AlikeOutcomes (Violation.Agree texts) (SignatureAgree R S model') (signatureOf model d)
    (signatureOf model' d')

end Signatures

variable {R : N → N' → Prop} {S : T → T' → Prop} {texts : ReportTexts}

/-- Alike places of a parameter list are read alike. -/
theorem plainParameter_agree {site : ParameterSite N} {site' : ParameterSite N'}
    (h : ParameterSite.Alike R texts.place site site') :
    AlikeOutcomes (Violation.Agree texts) (ParameterAlike R) (plainParameter site)
      (plainParameter site') := by
  cases h with
  | plain htype => exact .ok ⟨rfl, htype⟩
  | other htext => exact .error (.malformedParameter htext)

theorem mapM_plainParameter_agree {sites : List (ParameterSite N)}
    {sites' : List (ParameterSite N')}
    (h : List.Forall₂ (ParameterSite.Alike R texts.place) sites sites') :
    AlikeOutcomes (Violation.Agree texts) (List.Forall₂ (ParameterAlike R))
      (sites.mapM plainParameter) (sites'.mapM plainParameter) :=
  AlikeOutcomes.mapM h fun _ _ => plainParameter_agree

section Models

variable {model : TypeModel N T} {model' : TypeModel N' T'} {policy : RefPolicy}

/-- Alike lists of call signatures make signatures that agree. -/
theorem signatureOfCall_agree {optional : Bool} {calls : List (CallSignature N T)}
    {calls' : List (CallSignature N' T')}
    (hcalls : List.Forall₂ (CallSignature.Alike R S texts.place) calls calls') :
    AlikeOutcomes (Violation.Agree texts) (SignatureAgree R S model')
      (signatureOfCall optional calls) (signatureOfCall optional calls') := by
  match hcalls with
  | .nil => exact .error .notAFunction
  | .cons hcall .nil =>
      rw [signatureOfCall, signatureOfCall, hcall.typeParameters]
      split
      · exact .error .generic
      · exact (mapM_plainParameter_agree hcall.parameters).bind
          fun ps ps' hps => .ok ⟨rfl, .typed hcall.result, hps⟩
  | .cons _ (.cons _ _) => exact .error .notAFunction

section Shapes

variable (h : TypeModel.AgreeOnShapes R S texts policy model model')

include h

/-- Alike declarations agree. -/
theorem signatureOf_agree {d : Declaration N} {d' : Declaration N'}
    (hd : Declaration.Alike R texts.place d d') : DeclarationAgree R S texts model model' d d' := by
  rw [DeclarationAgree]
  cases hd with
  | @method _ _ _ _ result? result'? hsites hresult =>
      rw [signatureOf, signatureOf]
      split
      · exact .error .generic
      · have htypes : ResultAgree S model' (result?.map model.resolve)
            (result'?.map model'.resolve) := by
          cases hresult with
          | none => exact .missing
          | some hn => exact .typed (h.resolve _ _ hn)
        exact (mapM_plainParameter_agree hsites).bind fun ps ps' hps => .ok ⟨rfl, htypes, hps⟩
  | property htype =>
      cases htype with
      | none => exact .error .notAFunction
      | some hn => exact signatureOfCall_agree (h.callSignatures _ _ (h.resolve _ _ hn))
  | other => exact .error .notAFunction

/-! ## Checks that agree -/

/-- Alike parameters are accepted alike for refs. -/
theorem checkRef_agree {ref : Parameter N} {ref' : Parameter N'}
    (href : ParameterAlike R ref ref') :
    AlikeOutcomes (Violation.Agree texts) (fun _ _ => True) (checkRef model policy ref)
      (checkRef model' policy ref') := by
  rw [checkRef, checkRef]
  match ref.type?, ref'.type?, href.type with
  | _, _, .none => exact .error (.invalidRef (texts.expression_refl _))
  | _, _, .some hn =>
      simp only [h.accepts _ _ hn]
      split
      · exact .ok trivial
      · exact .error (.invalidRef (h.exprText _ _ hn))

/-- Signatures that agree are checked alike. -/
theorem validate_agree {signature : Signature N T} {signature' : Signature N' T'}
    (hsignature : SignatureAgree R S model' signature signature') :
    AlikeOutcomes (Violation.Agree texts) (List.Forall₂ (ParameterAlike R))
      (validate model policy signature) (validate model' policy signature') := by
  rw [validate, validate]
  match signature.result?, signature'.result?, hsignature.result with
  | _, _, .missing => exact .error (.nonVoidResult (texts.type_refl _))
  | _, _, .implicit hvoid htext =>
      simp only [hvoid, Bool.false_eq_true, if_false, htext]
      exact .error (.nonVoidResult (texts.type_refl _))
  | _, _, .typed hresult =>
      simp only [h.isVoid _ _ hresult]
      split
      · match signature.parameters, signature'.parameters, hsignature.parameters with
        | _, _, .nil => exact .error .missingRef
        | _, _, .cons href hrest => exact (checkRef_agree h href).bind fun _ _ _ => .ok hrest
      · exact .error (.nonVoidResult (h.typeText _ _ hresult))

end Shapes

variable (h : TypeModel.Agree R S texts policy model model')

include h

theorem classify_agree {t : T} {t' : T'} (ht : S t t') : classify model t = classify model' t' := by
  rw [classify, classify, h.isString _ _ ht, h.isBoolean _ _ ht, h.isInt32 _ _ ht]

/-- Alike parameters have the same record. -/
theorem mapParameter_agree {p : Parameter N} {p' : Parameter N'} (hp : ParameterAlike R p p') :
    AlikeOutcomes (Violation.Agree texts) (· = ·) (mapParameter model p)
      (mapParameter model' p') := by
  rw [mapParameter, mapParameter, hp.name]
  match p.type?, p'.type?, hp.type with
  | _, _, .none => exact .error (.unsupportedParameter _ (texts.expression_refl _))
  | _, _, .some hn =>
      simp only [classify_agree h (h.resolve _ _ hn)]
      split
      · exact .ok rfl
      · exact .error (.unsupportedParameter _ (h.exprText _ _ hn))

/-! ## Extractions that agree -/

section Owners

variable {owner : T} {owner' : T'} {name : String}
  (hdeclared : Option.Rel (List.Forall₂ (DeclarationAgree R S texts model model'))
    (model.declarations? owner name) (model'.declarations? owner' name))

include hdeclared

omit h in
/-- A command is found alike where its declarations agree. -/
theorem resolve_agree :
    AlikeOutcomes (Violation.Agree texts) (SignatureAgree R S model')
      (resolve model owner name) (resolve model' owner' name) := by
  rw [resolve, resolve]
  match model.declarations? owner name, model'.declarations? owner' name, hdeclared with
  | _, _, .none => exact .error .memberNotFound
  | _, _, .some .nil => exact .error (.ambiguous 0)
  | _, _, .some (.cons hd .nil) => exact hd
  | _, _, .some (.cons _ (.cons _ hrest)) =>
      simp only [List.length_cons, hrest.length_eq]
      exact .error (.ambiguous _)

/-- One command whose declarations agree. -/
theorem command_agree :
    AlikeOutcomes (Violation.Agree texts) (· = ·) (command model policy owner name)
      (command model' policy owner' name) := by
  refine (resolve_agree hdeclared).bind fun signature signature' hsignature => ?_
  refine (validate_agree h.toAgreeOnShapes hsignature).bind fun ps ps' hps => ?_
  refine (AlikeOutcomes.mapM hps fun p p' hp => mapParameter_agree h hp).bind fun _ _ hparams => ?_
  rw [List.forall₂_eq_eq_eq] at hparams
  rw [hparams, hsignature.optional]
  exact .ok rfl

end Owners

/-- **Models that agree**: where the declarations of every member of two owners
agree, requests for the same names have the same commands, or are rejected at
the same command for breaking the same rule. -/
theorem extract_agree {owner : N} {owner' : N'}
    (hdeclared : ∀ name, Option.Rel (List.Forall₂ (DeclarationAgree R S texts model model'))
      (model.declarations? (model.resolve owner) name)
      (model'.declarations? (model'.resolve owner') name)) (names : List String) :
    AlikeOutcomes (Rejection.Agree texts (model.exprText owner) (model'.exprText owner')) (· = ·)
      (extract model policy owner names) (extract model' policy owner' names) := by
  have hnames : List.Forall₂ (· = ·) names names := List.forall₂_same.mpr fun _ _ => rfl
  have hone : ∀ name name' : String, name = name' →
      AlikeOutcomes (Rejection.Agree texts (model.exprText owner) (model'.exprText owner')) (· = ·)
        (rejecting (model.exprText owner) name (command model policy (model.resolve owner) name))
        (rejecting (model'.exprText owner') name'
          (command model' policy (model'.resolve owner') name')) := by
    rintro name _ rfl
    exact (command_agree h (hdeclared name)).mapError fun v v' hv => ⟨rfl, rfl, rfl, hv⟩
  have hall := AlikeOutcomes.mapM hnames hone
  rwa [List.forall₂_eq_eq_eq] at hall

end Models

end Contract

end CommandSchema
