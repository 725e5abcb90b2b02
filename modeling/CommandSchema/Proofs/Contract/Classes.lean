import CommandSchema.Proofs.Contract.Rules
import CommandSchema.Proofs.Typing.Denotation
import CommandSchema.Typing.FileModel
import CommandSchema.Typing.MemoryModel

/-!
# CommandSchema.Proofs.Contract.Classes

The classes of types do not overlap.

A type model that finds no type to be of two classes (`TypeModel.Separates`)
leaves no choice to classification: the predicates may be tested in any order
(`TypeModel.Separates.firstKind_eq`), and the result of a command, which is void,
is never the type of a recorded parameter
(`TypeModel.Separates.mapParameter_of_isVoid`).

The models of this library are of this kind (`separates_models`).  For types of
files this needs an argument, since a union is of the classes that all its
variants are of: a union of several classes would be a union of nothing, and
that is of no class at all.
-/

namespace CommandSchema

variable {N T : Type}

/-! ## Models whose classes do not overlap -/

/-- The class of the types of a category of parameters. -/
def ParamKind.typeClass : ParamKind → TypeClass
  | .string => .string
  | .boolean => .boolean
  | .int32 => .int32

namespace TypeModel

/-- Whether a model finds a type to be of a class. -/
def isOf (model : TypeModel N T) : TypeClass → T → Bool
  | .string => model.isString
  | .boolean => model.isBoolean
  | .int32 => model.isInt32
  | .void => model.isVoid

/-- The category of a type, if it has one, when the categories are tested in the
given order. -/
def firstKind (model : TypeModel N T) (order : List ParamKind) (type : T) : Option ParamKind :=
  order.find? fun kind => model.isOf kind.typeClass type

/-- No type is of two classes. -/
def Separates (model : TypeModel N T) : Prop :=
  ∀ {type : T} {c d : TypeClass}, model.isOf c type = true → model.isOf d type = true → c = d

variable {model : TypeModel N T}

/-- Classification tests for strings first, and for integers last. -/
theorem classify_eq_firstKind (type : T) :
    Contract.classify model type = model.firstKind [.string, .boolean, .int32] type := by
  simp only [Contract.classify, firstKind, List.find?_cons, List.find?_nil, ParamKind.typeClass,
    isOf]
  cases model.isString type <;> cases model.isBoolean type <;> cases model.isInt32 type <;> rfl

namespace Separates

variable (h : model.Separates)

include h

/-- Whichever order the categories are tested in, a type of one of them is found to
be of this one. -/
theorem firstKind_eq_some_iff {order : List ParamKind} (hall : ∀ kind, kind ∈ order) {type : T}
    {kind : ParamKind} :
    model.firstKind order type = some kind ↔ model.isOf kind.typeClass type = true := by
  have hfound {found : ParamKind} (hfirst : model.firstKind order type = some found) :
      model.isOf found.typeClass type = true := by
    rw [firstKind] at hfirst
    simpa using List.find?_some hfirst
  constructor
  · exact hfound
  · intro hkind
    cases hfirst : model.firstKind order type with
    | none => exact absurd hkind (List.find?_eq_none.mp hfirst kind (hall kind))
    | some found =>
        have hclass := h (hfound hfirst) hkind
        cases found <;> cases kind <;> first | rfl | cases hclass

/-- The order in which the categories are tested is immaterial. -/
theorem firstKind_eq {order : List ParamKind} (hall : ∀ kind, kind ∈ order) (type : T) :
    model.firstKind order type = Contract.classify model type := by
  have hsame : ∀ kind, model.firstKind order type = some kind ↔
      Contract.classify model type = some kind := by
    intro kind
    have hfixed : ∀ kind : ParamKind, kind ∈ [ParamKind.string, .boolean, .int32] := by
      intro kind
      cases kind <;> decide
    rw [classify_eq_firstKind, h.firstKind_eq_some_iff hall, h.firstKind_eq_some_iff hfixed]
  exact Option.ext hsame

theorem classify_of_isVoid {type : T} (hvoid : model.isVoid type = true) :
    Contract.classify model type = none := by
  rw [classify_eq_firstKind, firstKind, List.find?_eq_none]
  intro kind _ hkind
  have hclass : kind.typeClass = .void := h hkind hvoid
  cases kind <;> cases hclass

theorem mapParameter_of_isVoid {p : Parameter N} {type : N} (htype : p.type? = some type)
    (hvoid : model.isVoid (model.resolve type) = true) :
    Contract.mapParameter model p =
      .error (.unsupportedParameter p.name (model.exprText type)) := by
  simp only [Contract.mapParameter, htype, h.classify_of_isVoid hvoid]

end Separates

end TypeModel

/-- The result of a signature that is accepted is void. -/
theorem Contract.isVoid_of_validate {model : TypeModel N T} {policy : RefPolicy}
    {signature : Signature N T} {later : List (Parameter N)}
    (h : validate model policy signature = .ok later) :
    ∃ result, signature.result? = some result ∧ model.isVoid result = true := by
  rw [validate] at h
  cases hresult : signature.result? with
  | none => simp [hresult] at h
  | some result =>
      refine ⟨result, rfl, ?_⟩
      by_contra hvoid
      simp [hresult, hvoid] at h

/-! ## The models of this library -/

/-- A type of a file is of one class at most.  The variants of a union are of all
classes that the union is of, and there is one at least. -/
theorem ResolvedType.isOf_unique {t : ResolvedType} {c d : TypeClass} (hc : t.isOf c = true)
    (hd : t.isOf d = true) : c = d := by
  cases hunion : t.isUnion with
  | false =>
      have hclassc := (isOf_iff_class? hunion).mp hc
      have hclassd := (isOf_iff_class? hunion).mp hd
      exact Option.some.inj (hclassc.symm.trans hclassd)
  | true =>
      obtain ⟨ts, ht⟩ : ∃ ts, t = .union ts := by
        cases t with
        | union ts => exact ⟨ts, rfl⟩
        | _ => cases hunion
      rw [ht] at hc hd
      obtain ⟨-, hne, hallc⟩ := isOf_union_iff.mp hc
      obtain ⟨-, -, halld⟩ := isOf_union_iff.mp hd
      obtain ⟨v, hv⟩ := List.exists_mem_of_ne_nil ts hne
      have hlt : sizeOf v < sizeOf t := by
        have := List.sizeOf_lt_of_mem hv
        rw [ht, union.sizeOf_spec]
        omega
      exact isOf_unique (hallc v hv) (halld v hv)
termination_by sizeOf t

namespace MemoryType

/-- The class of a type built in memory, if it has one. -/
def class? : MemoryType → Option TypeClass
  | .string => some .string
  | .boolean => some .boolean
  | .int32 => some .int32
  | .void => some .void
  | _ => none

/-- A type built in memory is of its own class only. -/
theorem isOf_iff_class? {t : MemoryType} {c : TypeClass} :
    model.isOf c t = true ↔ t.class? = some c := by
  cases t <;> cases c <;>
    simp [TypeModel.isOf, model, class?, isString, isBoolean, isInt32, isVoid]

end MemoryType

/-- What follows from classes that do not overlap, for the extraction over a model. -/
structure TypeModel.ClassesApart (model : TypeModel N T) : Prop where
  /-- A type is of one class at most. -/
  unique : ∀ (type : T) (c d : TypeClass),
    model.isOf c type = true → model.isOf d type = true → c = d
  /-- The categories may be tested in any order. -/
  anyOrder : ∀ order : List ParamKind, (∀ kind, kind ∈ order) → ∀ type : T,
    model.firstKind order type = Contract.classify model type
  /-- No parameter is recorded whose type is accepted as the result of a command. -/
  resultOnly : ∀ (policy : RefPolicy) (signature : Contract.Signature N T)
    (later : List (Parameter N)), Contract.validate model policy signature = .ok later →
    ∀ (p : Parameter N) (type : N), p.type? = some type →
      signature.result? = some (model.resolve type) →
      Contract.mapParameter model p =
        .error (.unsupportedParameter p.name (model.exprText type))

/-- Where no type is of two classes, extraction does not depend on their order. -/
theorem TypeModel.Separates.classesApart {model : TypeModel N T} (h : model.Separates) :
    model.ClassesApart where
  unique _ _ _ hc hd := h hc hd
  anyOrder _ hall type := h.firstKind_eq hall type
  resultOnly policy signature later hvalid p type htype hresult := by
    obtain ⟨result, hsome, hvoid⟩ := Contract.isVoid_of_validate hvalid
    rw [hresult, Option.some.injEq] at hsome
    exact h.mapParameter_of_isVoid htype (hsome ▸ hvoid)

/-- **The classes of types exclude each other**, over every file and over types
built in memory: no type is of two of them, so parameters are classified alike in
whatever order the classes are tested, and no type that is accepted as the
result of a command is accepted for a parameter. -/
theorem classesApart_models (scope : Scope) :
    scope.model.ClassesApart ∧ MemoryType.model.ClassesApart := by
  have hfile : scope.model.Separates := by
    intro t c d hc hd
    have hof : ∀ c, scope.model.isOf c t = t.isOf c := fun c => by cases c <;> rfl
    rw [hof] at hc hd
    exact ResolvedType.isOf_unique hc hd
  have hmemory : MemoryType.model.Separates := by
    intro t c d hc hd
    rw [MemoryType.isOf_iff_class?] at hc hd
    exact Option.some.inj (hc.symm.trans hd)
  exact ⟨hfile.classesApart, hmemory.classesApart⟩

end CommandSchema
