import CommandSchema.Proofs.Contract.Rules

/-!
# CommandSchema.Proofs.Contract.Outcome

What becomes of one command.

`Describes` says when a record describes a command, and `FirstViolation`
which violation is the first one of a command that has some.  The order of
the rules is written into `FirstViolation`: each case asks for the rules
before its own and leaves those after it open.  Every command is described by
a record or has a first violation (`describes_or_firstViolation`), and the
extraction finds it (`command_eq_ok_iff`, `command_eq_error_iff`).
-/

namespace CommandSchema.Contract

variable {N T : Type}

/-! ## Commands and their records -/

/-- The member `name` of the type `owner` is a command, declared by `d` with
the given first and later parameters. -/
structure IsCommand (model : TypeModel N T) (policy : RefPolicy) (owner : T) (name : String)
    (d : Declaration N) (ref : Parameter N) (later : List (Parameter N)) : Prop where
  /-- The member has this declaration and no other. -/
  declared : model.declarations? owner name = some [d]
  /-- It can be called in one way, is not generic, has plain parameters only,
  and returns void. -/
  called : ∃ result, Calls model d 0 (plain (ref :: later)) (some result) ∧
    model.isVoid result = true
  accepted : AcceptsRef model policy ref
  supported : ∀ p ∈ later, Supported model p

/-- A record describes the command `name` of the type `owner`: the name that
is asked for, the flag of the declaration, and the later parameters in
order. -/
def Describes (model : TypeModel N T) (policy : RefPolicy) (owner : T) (name : String)
    (c : Command) : Prop :=
  ∃ d ref later, IsCommand model policy owner name d ref later ∧
    c.name = name ∧ c.optional = d.isOptional ∧ List.Forall₂ (Records model) later c.parameters

/-! ## The first violation -/

/-- The first rule, in the order of the contract, that the member `name` of
the type `owner` breaks. -/
inductive FirstViolation (model : TypeModel N T) (policy : RefPolicy) (owner : T)
    (name : String) : Violation → Prop
  | memberNotFound (missing : model.declarations? owner name = none) :
      FirstViolation model policy owner name .memberNotFound
  | ambiguous {ds : List (Declaration N)} (found : model.declarations? owner name = some ds)
      (several : ds.length ≠ 1) :
      FirstViolation model policy owner name (.ambiguous ds.length)
  | notAFunction {d : Declaration N} (declared : model.declarations? owner name = some [d])
      (uncallable : ¬ ∃ k sites result?, Calls model d k sites result?) :
      FirstViolation model policy owner name .notAFunction
  | generic {d : Declaration N} {k : Nat} {sites : List (ParameterSite N)} {result? : Option T}
      (declared : model.declarations? owner name = some [d])
      (called : Calls model d k sites result?) (parametric : k ≠ 0) :
      FirstViolation model policy owner name .generic
  | malformedParameter {d : Declaration N} {before : List (Parameter N)} {text : String}
      {after : List (ParameterSite N)} {result? : Option T}
      (declared : model.declarations? owner name = some [d])
      (called : Calls model d 0 (plain before ++ .other text :: after) result?) :
      FirstViolation model policy owner name (.malformedParameter text)
  | nonVoidResult {d : Declaration N} {parameters : List (Parameter N)} {result? : Option T}
      (declared : model.declarations? owner name = some [d])
      (called : Calls model d 0 (plain parameters) result?)
      (nonVoid : ¬ ∃ result, result? = some result ∧ model.isVoid result = true) :
      FirstViolation model policy owner name (.nonVoidResult (writtenResult model result?))
  | missingRef {d : Declaration N} {result : T}
      (declared : model.declarations? owner name = some [d])
      (called : Calls model d 0 [] (some result)) (void : model.isVoid result = true) :
      FirstViolation model policy owner name .missingRef
  | invalidRef {d : Declaration N} {ref : Parameter N} {later : List (Parameter N)} {result : T}
      (declared : model.declarations? owner name = some [d])
      (called : Calls model d 0 (plain (ref :: later)) (some result))
      (void : model.isVoid result = true) (refused : ¬ AcceptsRef model policy ref) :
      FirstViolation model policy owner name (.invalidRef (writtenType model ref))
  | unsupportedParameter {d : Declaration N} {ref p : Parameter N}
      {before after : List (Parameter N)} {result : T}
      (declared : model.declarations? owner name = some [d])
      (called : Calls model d 0 (plain (ref :: (before ++ p :: after))) (some result))
      (void : model.isVoid result = true) (accepted : AcceptsRef model policy ref)
      (supported : ∀ q ∈ before, Supported model q) (unsupported : ¬ Supported model p) :
      FirstViolation model policy owner name
        (.unsupportedParameter p.name (writtenType model p))

/-! ## The steps of the extraction, put together -/

section Steps

variable {model : TypeModel N T} {policy : RefPolicy} {owner : T} {name : String}
variable {d : Declaration N} {k : Nat} {sites : List (ParameterSite N)} {result? : Option T}

theorem resolve_of_declared (h : model.declarations? owner name = some [d]) :
    resolve model owner name = signatureOf model d := by
  rw [resolve, h]

theorem command_of_signatureOf_error {v : Violation}
    (hdeclared : model.declarations? owner name = some [d])
    (h : signatureOf model d = .error v) : command model policy owner name = .error v := by
  rw [command, resolve_of_declared hdeclared, h]
  rfl

/-- The extraction of a command with plain parameters goes on with its
signature. -/
theorem command_of_calls_plain (policy : RefPolicy) {parameters : List (Parameter N)}
    (hdeclared : model.declarations? owner name = some [d])
    (hcalled : Calls model d 0 (plain parameters) result?) :
    ∃ style, command model policy owner name = do
      let later ← validate model policy ⟨style, d.isOptional, result?, parameters⟩
      let params ← mapParameters model later
      return ⟨name, d.isOptional, params⟩ := by
  obtain ⟨style, hsignature⟩ := signatureOf_of_calls hcalled
  refine ⟨style, ?_⟩
  rw [command, resolve_of_declared hdeclared, hsignature, mapM_plainParameter_plain]
  rfl

/-- Behind a void result and an accepted ref only the later parameters
count. -/
theorem command_of_accepted {ref : Parameter N} {later : List (Parameter N)} {result : T}
    (hdeclared : model.declarations? owner name = some [d])
    (hcalled : Calls model d 0 (plain (ref :: later)) (some result))
    (hvoid : model.isVoid result = true) (haccepted : AcceptsRef model policy ref) :
    command model policy owner name =
      (mapParameters model later).map (⟨name, d.isOptional, ·⟩) := by
  obtain ⟨style, hcommand⟩ := command_of_calls_plain policy hdeclared hcalled
  have hvalidate : validate model policy ⟨style, d.isOptional, some result, ref :: later⟩ =
      .ok later := by
    simp only [validate, hvoid, if_true, checkRef_of_acceptsRef model policy haccepted]
    rfl
  rw [hcommand, hvalidate]
  show (mapParameters model later >>= fun params =>
    pure (⟨name, d.isOptional, params⟩ : Command)) = _
  cases mapParameters model later <;> rfl

end Steps

/-! ## What the extraction finds -/

variable {model : TypeModel N T} {policy : RefPolicy} {owner : T} {name : String}

/-- The extraction finds the record that describes a command. -/
theorem command_of_describes {c : Command} (h : Describes model policy owner name c) :
    command model policy owner name = .ok c := by
  obtain ⟨name', optional, parameters⟩ := c
  obtain ⟨d, ref, later, hcommand, rfl, rfl, hrecords⟩ := h
  obtain ⟨result, hcalled, hvoid⟩ := hcommand.called
  rw [command_of_accepted hcommand.declared hcalled hvoid hcommand.accepted,
    (mapParameters_eq_ok_iff model).mpr hrecords]
  rfl

/-- The extraction finds the first violation of a command. -/
theorem command_of_firstViolation {v : Violation}
    (h : FirstViolation model policy owner name v) :
    command model policy owner name = .error v := by
  cases h with
  | memberNotFound missing =>
      rw [command, resolve, missing]
      rfl
  | @ambiguous ds found several =>
      have hresolve : resolve model owner name = .error (.ambiguous ds.length) := by
        rw [resolve, found]
        match ds with
        | [] => rfl
        | [_] => exact absurd rfl several
        | _ :: _ :: _ => rfl
      rw [command, hresolve]
      rfl
  | notAFunction declared uncallable =>
      exact command_of_signatureOf_error declared (signatureOf_of_not_calls uncallable)
  | generic declared called parametric =>
      obtain ⟨style, hsignature⟩ := signatureOf_of_calls called
      rw [if_pos parametric] at hsignature
      exact command_of_signatureOf_error declared hsignature
  | malformedParameter declared called =>
      obtain ⟨style, hsignature⟩ := signatureOf_of_calls called
      rw [mapM_plainParameter_other] at hsignature
      exact command_of_signatureOf_error declared hsignature
  | @nonVoidResult d parameters result? declared called nonVoid =>
      obtain ⟨style, hcommand⟩ := command_of_calls_plain policy declared called
      rw [hcommand]
      cases result? with
      | none => rfl
      | some result =>
          have hresult : model.isVoid result = false := by
            rw [Bool.eq_false_iff]
            exact fun hvoid => nonVoid ⟨result, rfl, hvoid⟩
          simp only [validate, hresult, Bool.false_eq_true, if_false]
          rfl
  | missingRef declared called void =>
      have hplain : Calls model _ 0 (plain []) _ := called
      obtain ⟨style, hcommand⟩ := command_of_calls_plain policy declared hplain
      rw [hcommand]
      simp only [validate, void, if_true]
      rfl
  | invalidRef declared called void refused =>
      obtain ⟨style, hcommand⟩ := command_of_calls_plain policy declared called
      rw [hcommand]
      simp only [validate, void, if_true, checkRef_of_not_acceptsRef model policy refused]
      rfl
  | unsupportedParameter declared called void accepted supported unsupported =>
      rw [command_of_accepted declared called void accepted,
        mapParameters_of_not_supported model supported unsupported]
      rfl

/-- Every member is a command that some record describes, or breaks a first
rule. -/
theorem describes_or_firstViolation (model : TypeModel N T) (policy : RefPolicy) (owner : T)
    (name : String) :
    (∃ c, Describes model policy owner name c) ∨
      ∃ v, FirstViolation model policy owner name v := by
  -- the rules are tried in their order, and each that is broken ends the search
  cases hfound : model.declarations? owner name with
  | none => exact .inr ⟨_, .memberNotFound hfound⟩
  | some ds =>
    by_cases hsingle : ds.length = 1
    case neg => exact .inr ⟨_, .ambiguous hfound hsingle⟩
    obtain ⟨d, rfl⟩ := List.length_eq_one_iff.mp hsingle
    by_cases hcallable : ∃ k sites result?, Calls model d k sites result?
    case neg => exact .inr ⟨_, .notAFunction hfound hcallable⟩
    obtain ⟨k, sites, result?, hcalled⟩ := hcallable
    by_cases hgeneric : k = 0
    case neg => exact .inr ⟨_, .generic hfound hcalled hgeneric⟩
    subst hgeneric
    rcases plain_or_other sites with ⟨parameters, rfl⟩ | ⟨before, text, after, rfl⟩
    case inr => exact .inr ⟨_, .malformedParameter hfound hcalled⟩
    by_cases hvoid : ∃ result, result? = some result ∧ model.isVoid result = true
    case neg => exact .inr ⟨_, .nonVoidResult hfound hcalled hvoid⟩
    obtain ⟨result, rfl, hvoid⟩ := hvoid
    cases parameters with
    | nil => exact .inr ⟨_, .missingRef hfound hcalled hvoid⟩
    | cons ref later =>
      by_cases haccepted : AcceptsRef model policy ref
      case neg => exact .inr ⟨_, .invalidRef hfound hcalled hvoid haccepted⟩
      rcases forall_or_leftmost (p := Supported model) later with
        hsupported | ⟨before, p, after, rfl, hbefore, hp⟩
      case inr =>
        exact .inr ⟨_, .unsupportedParameter hfound hcalled hvoid haccepted hbefore hp⟩
      obtain ⟨records, hrecords⟩ := exists_forall₂_records model hsupported
      exact .inl ⟨⟨name, d.isOptional, records⟩, d, ref, later,
        ⟨hfound, ⟨result, hcalled, hvoid⟩, haccepted, hsupported⟩, rfl, rfl, hrecords⟩

/-- The extraction of a command succeeds exactly with the record that
describes it. -/
theorem command_eq_ok_iff {c : Command} :
    command model policy owner name = .ok c ↔ Describes model policy owner name c := by
  refine ⟨fun h => ?_, command_of_describes⟩
  rcases describes_or_firstViolation model policy owner name with ⟨c', hc'⟩ | ⟨v, hv⟩
  · rw [command_of_describes hc'] at h
    rw [← Except.ok.inj h]
    exact hc'
  · rw [command_of_firstViolation hv] at h
    cases h

/-- The extraction of a command fails exactly with its first violation. -/
theorem command_eq_error_iff {v : Violation} :
    command model policy owner name = .error v ↔ FirstViolation model policy owner name v := by
  refine ⟨fun h => ?_, command_of_firstViolation⟩
  rcases describes_or_firstViolation model policy owner name with ⟨c, hc⟩ | ⟨v', hv'⟩
  · rw [command_of_describes hc] at h
    cases h
  · rw [command_of_firstViolation hv'] at h
    rw [← Except.error.inj h]
    exact hv'

end CommandSchema.Contract
