import CommandSchema.Proofs.Contract.Widening
import CommandSchema.Proofs.Typing.Simulation

/-!
# CommandSchema.Proofs.Int32Names

More names of the 32-bit integer type.

A name that a file does not declare is unresolved, and a name of the integer type
once it is listed as one.  Nothing else that a type expression leads to depends on
the listed names, so under a longer list an expression has the same type but for
such names (`ResolvedType.Widened`), which have no members, cannot be called and
are not void either way.  Requests therefore have the same outcome under the
longer list, unless they are rejected at a parameter
(`Scope.extract_withInt32Names`).
-/

namespace CommandSchema

open Syntax

/-! ## Types under more names -/

namespace ResolvedType

/-- The second type is the first one with unresolved names among the given ones
taken for the integer type. -/
inductive Widened (more : List String) : ResolvedType → ResolvedType → Prop
  | same (t : ResolvedType) : Widened more t t
  | int32 {name : String} (listed : name ∈ more) : Widened more (.unresolved name) .int32
  | union {ts ts' : List ResolvedType} (all : List.Forall₂ (Widened more) ts ts') :
      Widened more (.union ts) (.union ts')

namespace Widened

variable {more : List String} {t t' : ResolvedType}

theorem variants (h : Widened more t t') : List.Forall₂ (Widened more) t.variants t'.variants := by
  cases h with
  | same => exact List.forall₂_same.mpr fun t _ => .same t
  | int32 listed => exact .cons (.int32 listed) .nil
  | union all => exact all

theorem levels_eq (h : Widened more t t') : t'.levels = t.levels := by
  cases h <;> rfl

theorem memberSites?_eq (h : Widened more t t') (name : String) :
    t'.memberSites? name = t.memberSites? name := by
  cases h <;> rfl

theorem signatureNodes_eq (h : Widened more t t') : t'.signatureNodes = t.signatureNodes := by
  cases h <;> rfl

theorem isVoid_eq (h : Widened more t t') : t'.isVoid = t.isVoid := by
  cases h <;> rfl

/-- A type of some class has no unresolved names, so it stays the same. -/
theorem eq_of_isOf {t t' : ResolvedType} {c : TypeClass} (h : Widened more t t') :
    t.isOf c = true → t' = t := by
  cases h with
  | same => exact fun _ => rfl
  | int32 => cases c <;> exact nofun
  | @union ts ts' all =>
      intro hclass
      obtain ⟨-, -, hvariants⟩ := isOf_union_iff.mp hclass
      have hsame : List.Forall₂ (· = ·) ts ts' :=
        forall₂_imp_of_mem all fun v hv v' _ hwidened =>
          (hwidened.eq_of_isOf (hvariants v hv)).symm
      rw [List.forall₂_eq_eq_eq] at hsame
      rw [hsame]
termination_by sizeOf t
decreasing_by
  have hlt := List.sizeOf_lt_of_mem hv
  simp only [ResolvedType.union.sizeOf_spec]
  omega

/-- Along with equal nodes, types widen. -/
theorem lifts (more : List String) : Lifts (· = ·) (Widened more) where
  object hall := by
    simp only [List.forall₂_eq_eq_eq] at hall
    rw [hall]
    exact .same _
  union := .union
  variants := variants
  levels h := by
    simp only [List.forall₂_eq_eq_eq]
    exact h.levels_eq.symm

end Widened

end ResolvedType

/-! ## Scopes with more names -/

namespace Scope

/-- A scope with more names for the integer type. -/
def withInt32Names (scope : Scope) (more : List String) : Scope :=
  { scope with int32Names := scope.int32Names ++ more }

variable {scope : Scope} {more : List String}
  (hmore : ∀ name ∈ more, scope.declaration? name = none)

include hmore

/-- A node leads to the same node under more names. -/
theorem target?_withInt32Names (n : Node) :
    (scope.withInt32Names more).target? n = scope.target? n := by
  have hreference : (if n.text ∈ scope.int32Names ++ more then none
        else scope.declaration? n.text) =
      if n.text ∈ scope.int32Names then none else scope.declaration? n.text := by
    by_cases hlisted : n.text ∈ more
    · simp [hmore n.text hlisted]
    · simp [hlisted]
  unfold target?
  split
  case h_4 | h_5 => exact hreference
  all_goals rfl

omit hmore in
/-- The type of a node by its own form widens under more names. -/
theorem ownType_withInt32Names (n : Node) :
    ResolvedType.Widened more (scope.ownType n) ((scope.withInt32Names more).ownType n) := by
  have hreference : ResolvedType.Widened more
      (if n.text ∈ scope.int32Names then .int32 else .unresolved n.text)
      (if n.text ∈ scope.int32Names ++ more then .int32 else .unresolved n.text) := by
    by_cases hnamed : n.text ∈ scope.int32Names
    · simp only [hnamed, List.mem_append, true_or, if_true]
      exact .same _
    · by_cases hlisted : n.text ∈ more
      · simp only [hnamed, hlisted, List.mem_append, or_true, if_true, if_false]
        exact .int32 hlisted
      · simp only [hnamed, hlisted, List.mem_append, or_self, if_false]
        exact .same _
  unfold ownType
  split
  case h_7 | h_8 => exact hreference
  all_goals exact .same _

/-- Resolution goes the same way under more names. -/
theorem simulation_withInt32Names :
    Simulation scope (scope.withInt32Names more) (fun _ => True) (· = ·)
      (ResolvedType.Widened more) where
  toLifts := ResolvedType.Widened.lifts more
  kind_eq h := by rw [h]
  declaredName_eq h _ := by rw [h]
  alias_iff hm hn _ _ := by rw [hm, hn]
  counts _ _ := trivial
  target? := by
    rintro n _ rfl
    rw [target?_withInt32Names hmore]
    exact rel_self (fun _ => rfl) _
  joined h _ := by
    rw [h]
    exact List.forall₂_same.mpr fun _ _ => rfl
  other h := by
    rw [h]
    exact .same _
  own h _ := by
    rw [h]
    exact ownType_withInt32Names _
  ownLevels _ := List.forall₂_same.mpr fun _ _ => List.forall₂_same.mpr fun _ _ => rfl
  nexts _ := List.forall₂_same.mpr fun p _ => by
    cases p with
    | interface name => exact .interface trivial
    | expression n => exact .expression rfl

/-- A node stands for a widened type under more names. -/
theorem resolve_withInt32Names (n : Node) :
    ResolvedType.Widened more (scope.resolve n) ((scope.withInt32Names more).resolve n) :=
  have hsame : n = n := rfl
  (simulation_withInt32Names hmore).resolve hsame

end Scope

/-! ## Requests under more names -/

/-- Reports that agree but for the texts of types. -/
def ReportTexts.anyTypes : ReportTexts where
  place := (· = ·)
  expression := (· = ·)
  type _ _ := True
  expression_refl _ := rfl
  type_refl _ := trivial

namespace Scope

open Contract

variable {scope : Scope} {more : List String}

/-- A call signature has a widened result under more names. -/
theorem callSignature_withInt32Names (hmore : ∀ name ∈ more, scope.declaration? name = none)
    (n : Node) : CallSignature.Alike (· = ·) (ResolvedType.Widened more) (· = ·)
      (scope.callSignature n) ((scope.withInt32Names more).callSignature n) where
  typeParameters := rfl
  parameters := List.forall₂_same.mpr fun site _ => site.alike_refl fun _ => rfl
  result := by
    rw [callSignature, callSignature]
    cases n.result? with
    | none => exact .same .any
    | some result => exact resolve_withInt32Names hmore result

/-- A type of a category has no unresolved names, and keeps the category. -/
theorem hasKind_of_widened {t t' : ResolvedType} {kind : ParamKind}
    (h : ResolvedType.Widened more t t') (hkind : HasKind scope.model t kind) :
    HasKind (scope.withInt32Names more).model t' kind := by
  cases hkind with
  | string hs =>
      have hsame : t' = t := h.eq_of_isOf (c := .string) hs
      rw [hsame]
      exact .string hs
  | boolean hs hb =>
      have hsame : t' = t := h.eq_of_isOf (c := .boolean) hb
      rw [hsame]
      exact .boolean hs hb
  | int32 hs hb hi =>
      have hsame : t' = t := h.eq_of_isOf (c := .int32) hi
      rw [hsame]
      exact .int32 hs hb hi

/-- The model of a scope widens under more names. -/
theorem widens_withInt32Names (hmore : ∀ name ∈ more, scope.declaration? name = none)
    (policy : RefPolicy) :
    TypeModel.Widens (· = ·) (ResolvedType.Widened more) .anyTypes policy scope.model
      (scope.withInt32Names more).model where
  resolve n _ hn := by
    rw [← hn]
    exact resolve_withInt32Names hmore n
  callSignatures t t' ht := by
    simp only [model, ht.signatureNodes_eq]
    rw [List.forall₂_map_left_iff, List.forall₂_map_right_iff]
    exact List.forall₂_same.mpr fun n _ => callSignature_withInt32Names hmore n
  isVoid _ _ ht := ht.isVoid_eq.symm
  accepts _ _ hn := by rw [hn]; rfl
  exprText _ _ hn := congrArg Node.text hn
  typeText _ _ _ := trivial
  hasKind _ _ _ := hasKind_of_widened

/-- The declarations of a member agree under more names. -/
theorem declarations?_withInt32Names (hmore : ∀ name ∈ more, scope.declaration? name = none)
    (owner : Node) (name : String) :
    Option.Rel (List.Forall₂ (DeclarationAgree (· = ·) (ResolvedType.Widened more) .anyTypes
        scope.model (scope.withInt32Names more).model))
      (scope.model.declarations? (scope.model.resolve owner) name)
      ((scope.withInt32Names more).model.declarations?
        ((scope.withInt32Names more).model.resolve owner) name) := by
  have howner := resolve_withInt32Names hmore owner
  have hsame : (scope.withInt32Names more).model.declarations?
      ((scope.withInt32Names more).model.resolve owner) name =
        scope.model.declarations? (scope.model.resolve owner) name := by
    simp only [model, howner.memberSites?_eq]
  rw [hsame]
  -- the declarations are read before the ref is checked, so any policy will do
  have hwidens := widens_withInt32Names hmore ⟨.reference, []⟩
  exact rel_self (fun ds => List.forall₂_same.mpr fun d _ =>
    signatureOf_agree hwidens.toAgreeOnShapes (d.alike_refl fun _ => rfl)) _

/-- **More names of the integer type change nothing but the parameters that are
refused.**  Let more names be listed, none of which is declared in the file.  What
is extracted under the shorter list is extracted under the longer one, and a
request that is rejected under the shorter list, and not at a parameter, is
rejected under the longer one at the same command for breaking the same rule.
This holds for every file, owner, policy on refs and list of commands. -/
theorem extract_withInt32Names (root owner : Node) (policy : RefPolicy)
    (commands names more : List String)
    (hmore : ∀ d ∈ (ofTree root names).declarations, declaredName d ∉ more) :
    (∀ out, extract (ofTree root names).model policy owner commands = .ok out →
      extract (ofTree root (names ++ more)).model policy owner commands = .ok out) ∧
    ∀ e, extract (ofTree root names).model policy owner commands = .error e →
      ¬ e.violation.IsUnsupported →
      ∃ i e', RejectsAt (ofTree root names).model policy owner commands i e ∧
        RejectsAt (ofTree root (names ++ more)).model policy owner commands i e' ∧
        extract (ofTree root (names ++ more)).model policy owner commands = .error e' ∧
        e'.command = e.command ∧ e'.owner = e.owner ∧
        Violation.Agree .anyTypes e.violation e'.violation := by
  have hfresh : ∀ name ∈ more, (ofTree root names).declaration? name = none := by
    intro name hname
    refine List.find?_eq_none.mpr fun d hd hdeclares => hmore d hd ?_
    rwa [of_decide_eq_true hdeclares]
  have hwidens := widens_withInt32Names hfresh policy
  have hdeclared := declarations?_withInt32Names hfresh owner
  refine ⟨fun out hout => extract_eq_ok_of_widens hwidens hdeclared hout, fun e he hother => ?_⟩
  obtain ⟨i, hrejects⟩ := extract_eq_error_iff_rejectsAt.mp he
  obtain ⟨e', hrejects', hagree⟩ := hrejects.widens hwidens hdeclared hother
  exact ⟨i, e', hrejects, hrejects', hrejects'.extract_eq, hagree.command.symm,
    hagree.right.trans hagree.left.symm, hagree.violation⟩

/-- The tree of `interface I { m(r: R, a: string): void; n(r: R): Word; }`. -/
def wordOwner : Node :=
  let reference (text : String) (role : Option Role) (start : Position) : Node :=
    ⟨.typeIdentifier, role, text, start, []⟩
  let ref (start : Nat) : Node := ⟨.requiredParameter, none, "r: R", ⟨1, start⟩,
    [⟨.identifier, some .pattern, "r", ⟨1, start⟩, []⟩,
      ⟨.annotatedType, some .type, ": R", ⟨1, start + 1⟩, [reference "R" none ⟨1, start + 3⟩]⟩]⟩
  let text : Node := ⟨.requiredParameter, none, "a: string", ⟨1, 23⟩,
    [⟨.identifier, some .pattern, "a", ⟨1, 23⟩, []⟩,
      ⟨.annotatedType, some .type, ": string", ⟨1, 24⟩,
        [⟨.predefinedType, none, "string", ⟨1, 26⟩, []⟩]⟩]⟩
  let first : Node := ⟨.methodSignature, none, "m(r: R, a: string): void", ⟨1, 15⟩,
    [⟨.propertyName, some .name, "m", ⟨1, 15⟩, []⟩,
      ⟨.formalParameters, some .parameters, "(r: R, a: string)", ⟨1, 16⟩, [ref 17, text]⟩,
      ⟨.annotatedType, some .returnType, ": void", ⟨1, 33⟩,
        [⟨.predefinedType, none, "void", ⟨1, 35⟩, []⟩]⟩]⟩
  let second : Node := ⟨.methodSignature, none, "n(r: R): Word", ⟨1, 41⟩,
    [⟨.propertyName, some .name, "n", ⟨1, 41⟩, []⟩,
      ⟨.formalParameters, some .parameters, "(r: R)", ⟨1, 42⟩, [ref 43]⟩,
      ⟨.annotatedType, some .returnType, ": Word", ⟨1, 48⟩, [reference "Word" none ⟨1, 50⟩]⟩]⟩
  ⟨.interfaceDeclaration, none, "interface I \x7b m(r: R, a: string): void; n(r: R): Word; \x7d",
    ⟨1, 1⟩, [reference "I" (some .name) ⟨1, 11⟩,
      ⟨.interfaceBody, some .body, "\x7b m(r: R, a: string): void; n(r: R): Word; \x7d", ⟨1, 13⟩,
        [first, second]⟩]⟩

/-- With `Word` for the integer type the first command stays as it is, and the
second one is still rejected for its result. -/
theorem extract_withInt32Names_word :
    extract (ofTree ⟨.program, none, wordOwner.text, ⟨1, 1⟩, [wordOwner]⟩ ["Int32", "Word"]).model
        ⟨.reference, []⟩ wordOwner ["m"] = .ok [⟨"m", false, [⟨"a", .string⟩]⟩] ∧
      ∃ e, extract
          (ofTree ⟨.program, none, wordOwner.text, ⟨1, 1⟩, [wordOwner]⟩ ["Int32", "Word"]).model
          ⟨.reference, []⟩ wordOwner ["m", "n"] = .error e ∧
        e.command = "n" ∧ Violation.Agree .anyTypes (.nonVoidResult "Word") e.violation := by
  have hmore : ∀ d ∈ (ofTree ⟨.program, none, wordOwner.text, ⟨1, 1⟩, [wordOwner]⟩
      ["Int32"]).declarations, declaredName d ∉ ["Word"] := by
    decide
  obtain ⟨hok, -⟩ := extract_withInt32Names _ wordOwner ⟨.reference, []⟩ ["m"] _ _ hmore
  obtain ⟨-, herror⟩ := extract_withInt32Names _ wordOwner ⟨.reference, []⟩ ["m", "n"] _ _ hmore
  obtain ⟨i, e, -, -, he, hcommand, -, hviolation⟩ :=
    herror ⟨"n", wordOwner.text, .nonVoidResult "Word"⟩ rfl (by rintro ⟨name, text, h⟩; cases h)
  exact ⟨hok _ rfl, e, he, hcommand, hviolation⟩

end Scope

end CommandSchema
