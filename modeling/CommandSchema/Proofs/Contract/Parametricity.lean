import CommandSchema.Proofs.Contract.Agreement

/-!
# CommandSchema.Proofs.Contract.Parametricity

Type models that answer alike.

Where two models answer alike about related expressions and types, declarations
included (`TypeModel.Alike`), requests for related owners have the same commands,
or fail with the same command and with violations that differ in texts at most
(`Contract.extract_alike`).
-/

namespace CommandSchema

variable {N N' T T' : Type}

/-! ## Alike answers -/

section Answers

variable (R : N → N' → Prop) (S : T → T' → Prop) (text : String → String → Prop)

/-- Type arguments that are both one string literal, or both something else. -/
inductive TypeArgument.Alike : TypeArgument → TypeArgument → Prop
  | stringLiteral (value value' : String) : Alike (.stringLiteral value) (.stringLiteral value')
  | other (text text' : String) : Alike (.other text) (.other text')

/-- References to the same name, with alike arguments where the policy looks at
them. -/
structure Reference.Alike (policy : RefPolicy) (reference reference' : Reference) : Prop where
  name : reference.name = reference'.name
  arguments : policy.check = .stringLiteral → reference.name ∈ policy.wrappers →
    List.Forall₂ TypeArgument.Alike reference.arguments reference'.arguments

/-- The same rule is broken; the texts of types may differ, and those of places
without a plain parameter are related. -/
inductive Violation.Alike : Violation → Violation → Prop
  | memberNotFound : Alike .memberNotFound .memberNotFound
  | ambiguous (count : Nat) : Alike (.ambiguous count) (.ambiguous count)
  | notAFunction : Alike .notAFunction .notAFunction
  | generic : Alike .generic .generic
  | malformedParameter {place place' : String} (htext : text place place') :
      Alike (.malformedParameter place) (.malformedParameter place')
  | nonVoidResult (type type' : String) : Alike (.nonVoidResult type) (.nonVoidResult type')
  | missingRef : Alike .missingRef .missingRef
  | invalidRef (type type' : String) : Alike (.invalidRef type) (.invalidRef type')
  | unsupportedParameter (name type type' : String) :
      Alike (.unsupportedParameter name type) (.unsupportedParameter name type')

/-- The same command is rejected for breaking the same rule. -/
structure Rejection.Alike (rejection rejection' : Rejection) : Prop where
  command : rejection.command = rejection'.command
  violation : Violation.Alike text rejection.violation rejection'.violation

/-- Two type models answer alike about related expressions and types, under a
policy on refs. -/
structure TypeModel.Alike (policy : RefPolicy) (model : TypeModel N T) (model' : TypeModel N' T') :
    Prop where
  resolve : ∀ n n', R n n' → S (model.resolve n) (model'.resolve n')
  declarations? : ∀ t t' name, S t t' →
    Option.Rel (List.Forall₂ (Declaration.Alike R text)) (model.declarations? t name)
      (model'.declarations? t' name)
  callSignatures : ∀ t t', S t t' →
    List.Forall₂ (CallSignature.Alike R S text) (model.callSignatures t) (model'.callSignatures t')
  isString : ∀ t t', S t t' → model.isString t = model'.isString t'
  isBoolean : ∀ t t', S t t' → model.isBoolean t = model'.isBoolean t'
  isInt32 : ∀ t t', S t t' → model.isInt32 t = model'.isInt32 t'
  isVoid : ∀ t t', S t t' → model.isVoid t = model'.isVoid t'
  reference? : ∀ n n', R n n' →
    Option.Rel (Reference.Alike policy) (model.reference? n) (model'.reference? n')

end Answers

/-- Of references with alike arguments both are a wrapper around one string
literal, or neither is. -/
theorem RefPolicy.isWrapped_eq (policy : RefPolicy) {name : String}
    {arguments arguments' : List TypeArgument}
    (h : List.Forall₂ TypeArgument.Alike arguments arguments') :
    policy.isWrapped ⟨name, arguments⟩ = policy.isWrapped ⟨name, arguments'⟩ := by
  match arguments, arguments', h with
  | _, _, .nil => rfl
  | _, _, .cons hargument .nil => cases hargument <;> rfl
  | _, _, .cons _ (.cons _ _) => simp [isWrapped]

/-- Alike references are accepted alike. -/
theorem RefPolicy.accepts_alike {policy : RefPolicy} {reference? reference'? : Option Reference}
    (h : Option.Rel (Reference.Alike policy) reference? reference'?) :
    policy.accepts reference? = policy.accepts reference'? := by
  cases h with
  | none => rfl
  | @some reference reference' h =>
      obtain ⟨name, arguments⟩ := reference
      obtain ⟨name', arguments'⟩ := reference'
      obtain ⟨rfl, harguments⟩ := h
      rw [accepts, accepts]
      cases hcheck : policy.check with
      | reference => rfl
      | stringLiteral =>
          by_cases hwrapper : name ∈ policy.wrappers
          · exact policy.isWrapped_eq (harguments hcheck hwrapper)
          · simp [isWrapped, hwrapper]

/-! ## Alike extractions -/

/-- The texts of places are related, and those of expressions and types may be
any. -/
def ReportTexts.places (text : String → String → Prop) : ReportTexts where
  place := text
  expression _ _ := True
  type _ _ := True
  expression_refl _ := trivial
  type_refl _ := trivial

variable {R : N → N' → Prop} {S : T → T' → Prop} {text : String → String → Prop}

/-- Violations that agree are alike. -/
theorem Violation.Agree.alike {v v' : Violation} (h : Violation.Agree (.places text) v v') :
    Violation.Alike text v v' := by
  cases h with
  | memberNotFound => exact .memberNotFound
  | ambiguous count => exact .ambiguous count
  | notAFunction => exact .notAFunction
  | generic => exact .generic
  | malformedParameter htext => exact .malformedParameter htext
  | nonVoidResult => exact .nonVoidResult _ _
  | missingRef => exact .missingRef
  | invalidRef => exact .invalidRef _ _
  | unsupportedParameter name => exact .unsupportedParameter name _ _

section Models

variable {model : TypeModel N T} {model' : TypeModel N' T'} {policy : RefPolicy}
  (h : TypeModel.Alike R S text policy model model')

include h

/-- Models that answer alike agree. -/
theorem TypeModel.Alike.agree : TypeModel.Agree R S (.places text) policy model model' where
  resolve := h.resolve
  callSignatures := h.callSignatures
  isString := h.isString
  isBoolean := h.isBoolean
  isInt32 := h.isInt32
  isVoid := h.isVoid
  accepts n n' hn := RefPolicy.accepts_alike (h.reference? n n' hn)
  exprText _ _ _ := trivial
  typeText _ _ _ := trivial

/-- **Alike models**: requests for the same names on related owners have the
same commands, or are rejected at the same command for breaking the same
rule. -/
theorem Contract.extract_alike {owner : N} {owner' : N'} (howner : R owner owner')
    (names : List String) :
    AlikeOutcomes (Rejection.Alike text) (· = ·) (extract model policy owner names)
      (extract model' policy owner' names) := by
  have hdeclared (name : String) :
      Option.Rel (List.Forall₂ (DeclarationAgree R S (.places text) model model'))
        (model.declarations? (model.resolve owner) name)
        (model'.declarations? (model'.resolve owner') name) := by
    have halike := h.declarations? _ _ name (h.resolve _ _ howner)
    exact rel_imp_of_mem halike fun _ _ _ _ hds =>
      hds.imp fun _ _ => signatureOf_agree h.agree.toAgreeOnShapes
  exact (extract_agree h.agree hdeclared names).imp
    (fun e e' he => ⟨he.command, he.violation.alike⟩) fun _ _ hcommands => hcommands

end Models

end CommandSchema
