import CommandSchema.Command.Contract
import CommandSchema.Proofs.Traversal

/-!
# CommandSchema.Proofs.Contract.Rules

The rules of the contract, said without the steps that check them, and each
step of the extraction against its rule.

The rules speak about what a type model answers: which declarations a member
has, in how many ways it can be called (`Calls`), whether the first parameter
is a ref (`AcceptsRef`), and of which category a later one is (`Records`,
`Supported`).  For every step there are two facts: what it returns when its
rule holds, and with which violation it ends when the rule is the first that
is broken.
-/

namespace CommandSchema

variable {N T : Type}

/-- Whether a declaration carries the optional marker. -/
def Declaration.isOptional : Declaration N → Bool
  | .method optional .. => optional
  | .property optional _ => optional
  | .other _ => false

namespace Contract

variable (model : TypeModel N T) (policy : RefPolicy)

/-! ## The rules -/

/-- A declaration can be called in exactly one way: with a number of type
parameters, a parameter list, and a result that may be left out.  A method is
called as it is written, and a property by the only call signature of its
type. -/
inductive Calls : Declaration N → Nat → List (ParameterSite N) → Option T → Prop
  | method (optional : Bool) (typeParameters : Nat) (sites : List (ParameterSite N))
      (result? : Option N) :
      Calls (.method optional typeParameters sites result?) typeParameters sites
        (result?.map model.resolve)
  | property (optional : Bool) (type : N) (call : CallSignature N T)
      (only : model.callSignatures (model.resolve type) = [call]) :
      Calls (.property optional (some type)) call.typeParameters call.parameters
        (some call.result)

/-- A member has a single declaration, which is not generic and has a result that
may be left out. -/
def Returns (owner : T) (name : String) (result? : Option T) : Prop :=
  ∃ d sites, model.declarations? owner name = some [d] ∧ Calls model d 0 sites result?

/-- The first parameter has a type that the policy accepts for a ref. -/
def AcceptsRef (ref : Parameter N) : Prop :=
  ∃ type, ref.type? = some type ∧ policy.accepts (model.reference? type) = true

/-- The category of a type: the first one, in a fixed order, whose predicate
holds of it. -/
inductive HasKind (type : T) : ParamKind → Prop
  | string (string : model.isString type = true) : HasKind type .string
  | boolean (notString : model.isString type = false) (boolean : model.isBoolean type = true) :
      HasKind type .boolean
  | int32 (notString : model.isString type = false) (notBoolean : model.isBoolean type = false)
      (int32 : model.isInt32 type = true) : HasKind type .int32

/-- A later parameter has a type of a primitive category. -/
def Supported (p : Parameter N) : Prop :=
  ∃ type, p.type? = some type ∧ (model.isString (model.resolve type) = true ∨
    model.isBoolean (model.resolve type) = true ∨ model.isInt32 (model.resolve type) = true)

/-- A record holds the name of a parameter and the category of its type. -/
def Records (p : Parameter N) (record : Param) : Prop :=
  record.name = p.name ∧
    ∃ type, p.type? = some type ∧ HasKind model (model.resolve type) record.kind

/-- The type of a parameter as a report shows it. -/
def writtenType (p : Parameter N) : String :=
  match p.type? with
  | none => implicitAny
  | some type => model.exprText type

/-- The result of a call as a report shows it. -/
def writtenResult : Option T → String
  | none => implicitAny
  | some result => model.typeText result

/-- A parameter list in which every place holds a plain parameter. -/
def plain (parameters : List (Parameter N)) : List (ParameterSite N) :=
  parameters.map .plain

/-! ## Parameter lists -/

theorem mapM_plainParameter_plain (parameters : List (Parameter N)) :
    (plain parameters).mapM plainParameter = .ok parameters := by
  rw [mapM_eq_ok_iff, plain, List.forall₂_map_left_iff]
  exact List.forall₂_same.mpr fun _ _ => rfl

/-- The leftmost place without a plain parameter is the one that is
reported. -/
theorem mapM_plainParameter_other (before : List (Parameter N)) (text : String)
    (after : List (ParameterSite N)) :
    (plain before ++ .other text :: after).mapM plainParameter =
      .error (.malformedParameter text) := by
  rw [mapM_eq_error_iff]
  refine ⟨plain before, .other text, after, rfl, ?_, rfl⟩
  intro site hsite
  obtain ⟨p, -, rfl⟩ := List.mem_map.mp hsite
  exact ⟨p, rfl⟩

/-- A parameter list is plain, or has a leftmost place that is not. -/
theorem plain_or_other (sites : List (ParameterSite N)) :
    (∃ parameters, sites = plain parameters) ∨
      ∃ before text after, sites = plain before ++ .other text :: after := by
  induction sites with
  | nil => exact .inl ⟨[], rfl⟩
  | cons site sites ih =>
      cases site with
      | other text => exact .inr ⟨[], text, sites, rfl⟩
      | plain p =>
          rcases ih with ⟨parameters, rfl⟩ | ⟨before, text, after, rfl⟩
          · exact .inl ⟨p :: parameters, rfl⟩
          · exact .inr ⟨p :: before, text, after, rfl⟩

/-! ## The signature of a declaration -/

section Signature

variable {model}
variable {d : Declaration N} {k : Nat} {sites : List (ParameterSite N)} {result? : Option T}

/-- Reading the signature of a declaration that can be called in one way
stops at type parameters, and otherwise reads the parameter list. -/
theorem signatureOf_of_calls (h : Calls model d k sites result?) :
    ∃ style, signatureOf model d = if k ≠ 0 then .error .generic
      else (sites.mapM plainParameter).map (⟨style, d.isOptional, result?, ·⟩) := by
  cases h with
  | method optional k sites result? =>
      refine ⟨.method, ?_⟩
      simp only [signatureOf, Declaration.isOptional]
      cases sites.mapM plainParameter <;> rfl
  | property optional type call only =>
      refine ⟨.property, ?_⟩
      simp only [signatureOf, only, signatureOfCall, Declaration.isOptional]
      cases call.parameters.mapM plainParameter <;> rfl

/-- A declaration that cannot be called in exactly one way is no function. -/
theorem signatureOf_of_not_calls (h : ¬ ∃ k sites result?, Calls model d k sites result?) :
    signatureOf model d = .error .notAFunction := by
  cases d with
  | method optional k sites result? =>
      exact absurd ⟨k, sites, _, .method optional k sites result?⟩ h
  | other kind => rfl
  | property optional type? =>
      cases type? with
      | none => rfl
      | some type =>
          simp only [signatureOf]
          -- only a list with exactly one signature makes the property callable
          match hcalls : model.callSignatures (model.resolve type) with
          | [] => rfl
          | [call] => exact absurd ⟨_, _, _, .property optional type call hcalls⟩ h
          | _ :: _ :: _ => rfl

end Signature

/-! ## The ref -/

theorem checkRef_of_acceptsRef {ref : Parameter N} (h : AcceptsRef model policy ref) :
    checkRef model policy ref = .ok () := by
  obtain ⟨type, htype, haccepts⟩ := h
  rw [checkRef, htype]
  exact if_pos haccepts

/-- Any other first parameter is reported with its type. -/
theorem checkRef_of_not_acceptsRef {ref : Parameter N} (h : ¬ AcceptsRef model policy ref) :
    checkRef model policy ref = .error (.invalidRef (writtenType model ref)) := by
  cases htype : ref.type? with
  | none => simp only [checkRef, writtenType, htype]
  | some type =>
      have hrefused : ¬ policy.accepts (model.reference? type) = true :=
        fun haccepts => h ⟨type, htype, haccepts⟩
      simp only [checkRef, writtenType, htype]
      exact if_neg hrefused

/-! ## The categories -/

/-- A type has at most the category that classification finds. -/
theorem classify_eq_some_iff {type : T} {kind : ParamKind} :
    classify model type = some kind ↔ HasKind model type kind := by
  constructor
  · intro h
    unfold classify at h
    split at h
    · next hs => cases h; exact .string hs
    · next hs =>
        split at h
        · next hb => cases h; exact .boolean (by simpa using hs) hb
        · next hb =>
            split at h
            · next hi => cases h; exact .int32 (by simpa using hs) (by simpa using hb) hi
            · cases h
  · intro h
    cases h with
    | string hs => simp [classify, hs]
    | boolean hs hb => simp [classify, hs, hb]
    | int32 hs hb hi => simp [classify, hs, hb, hi]

/-- A parameter is mapped to a record exactly when the record describes
it. -/
theorem mapParameter_eq_ok_iff {p : Parameter N} {record : Param} :
    mapParameter model p = .ok record ↔ Records model p record := by
  obtain ⟨name, kind⟩ := record
  cases htype : p.type? with
  | none => simp [mapParameter, Records, htype]
  | some type =>
      simp only [mapParameter, Records, htype, Option.some.injEq, exists_eq_left']
      rw [← classify_eq_some_iff]
      cases classify model (model.resolve type) with
      | none => simp
      | some found => simp [eq_comm]

/-- A parameter of a primitive category has a record. -/
theorem Supported.exists_records {p : Parameter N} (h : Supported model p) :
    ∃ record, Records model p record := by
  obtain ⟨type, htype, hprimitive⟩ := h
  have hkind : ∃ kind, HasKind model (model.resolve type) kind := by
    cases hs : model.isString (model.resolve type) with
    | true => exact ⟨_, .string hs⟩
    | false =>
        cases hb : model.isBoolean (model.resolve type) with
        | true => exact ⟨_, .boolean hs hb⟩
        | false => exact ⟨_, .int32 hs hb (by simpa [hs, hb] using hprimitive)⟩
  obtain ⟨kind, hkind⟩ := hkind
  exact ⟨⟨p.name, kind⟩, rfl, type, htype, hkind⟩

/-- A parameter with a record is of a primitive category. -/
theorem Records.supported {p : Parameter N} {record : Param} (h : Records model p record) :
    Supported model p := by
  obtain ⟨name, kind⟩ := record
  obtain ⟨-, type, htype, hkind⟩ := h
  refine ⟨type, htype, ?_⟩
  cases hkind with
  | string hs => exact .inl hs
  | boolean _ hb => exact .inr (.inl hb)
  | int32 _ _ hi => exact .inr (.inr hi)

/-- A parameter of no primitive category is reported with its type. -/
theorem mapParameter_of_not_supported {p : Parameter N} (h : ¬ Supported model p) :
    mapParameter model p = .error (.unsupportedParameter p.name (writtenType model p)) := by
  cases htype : p.type? with
  | none => simp only [mapParameter, writtenType, htype]
  | some type =>
      simp only [mapParameter, writtenType, htype]
      cases hclass : classify model (model.resolve type) with
      | none => rfl
      | some kind =>
          have hrecords : Records model p ⟨p.name, kind⟩ :=
            ⟨rfl, type, htype, (classify_eq_some_iff model).mp hclass⟩
          exact absurd hrecords.supported h

theorem mapParameters_eq_ok_iff {later : List (Parameter N)} {records : List Param} :
    mapParameters model later = .ok records ↔ List.Forall₂ (Records model) later records := by
  simp only [mapParameters, mapM_eq_ok_iff, mapParameter_eq_ok_iff]

/-- The leftmost later parameter of no primitive category is the one that is
reported. -/
theorem mapParameters_of_not_supported {before after : List (Parameter N)} {p : Parameter N}
    (hbefore : ∀ q ∈ before, Supported model q) (hp : ¬ Supported model p) :
    mapParameters model (before ++ p :: after) =
      .error (.unsupportedParameter p.name (writtenType model p)) := by
  rw [mapParameters, mapM_eq_error_iff]
  refine ⟨before, p, after, rfl, ?_, mapParameter_of_not_supported model hp⟩
  intro q hq
  obtain ⟨record, hrecord⟩ := (hbefore q hq).exists_records
  exact ⟨record, (mapParameter_eq_ok_iff model).mpr hrecord⟩

/-- Parameters of primitive categories have records. -/
theorem exists_forall₂_records {later : List (Parameter N)}
    (h : ∀ p ∈ later, Supported model p) :
    ∃ records, List.Forall₂ (Records model) later records := by
  induction later with
  | nil => exact ⟨[], .nil⟩
  | cons p later ih =>
      obtain ⟨record, hrecord⟩ := (h p (by simp)).exists_records
      obtain ⟨records, hrecords⟩ := ih fun q hq => h q (by simp [hq])
      exact ⟨record :: records, .cons hrecord hrecords⟩

end Contract

end CommandSchema
