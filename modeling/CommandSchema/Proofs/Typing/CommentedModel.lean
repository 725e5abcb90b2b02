import CommandSchema.Proofs.Typing.Comments
import CommandSchema.Typing.FileModel

/-!
# CommandSchema.Proofs.Typing.CommentedModel

The answers of a type model about trees with comments in them.

Members, parameter lists, type parameters and the question mark are looked up
by role or kind, so comments between them are passed over
(`declaration_alike`, `Commented.callSignature_alike`).  The type arguments of a
reference are counted as they come (`isWrapped_of_comment_argument`), but only
under a policy that asks for a wrapper around one string literal
(`reference?_alike`).

Together with resolution this makes the models of the two scopes answer alike
(`Commented.alike_model`).
-/

namespace CommandSchema

open Syntax Syntax.Node

namespace Scope

variable {policy : RefPolicy} {scope scope' : Scope} {n n' : Node}

/-- The texts of a node before and after the insertion of comments. -/
def SameBesideComments (text text' : String) : Prop :=
  ∃ n n', Inserted (fun _ _ => True) n n' ∧ n.text = text ∧ n'.text = text'

/-! ## Members and parameters -/

/-- Annotations carry types that correspond. -/
theorem corresponds_unannotated (hn : Corresponds policy scope scope' n n') :
    Corresponds policy scope scope' n.unannotated n'.unannotated := by
  rw [unannotated, unannotated, hn.inserted.kind_eq]
  split
  · next hkind =>
      have hkind' : n'.kind = .annotatedType := hn.inserted.kind_eq.trans hkind
      have hinner := @corresponds_firstNamed? policy scope scope' n n' hn.inserted (.inl hkind')
      generalize n.firstNamed? = inner?, n'.firstNamed? = inner'? at hinner ⊢
      cases hinner with
      | none => exact hn
      | some hinner => exact hinner
  · exact hn

/-- Parts that carry types correspond. -/
theorem corresponds_map_unannotated (h : Inserted (Tame policy) n n') (role : Role) :
    Option.Rel (Corresponds policy scope scope') ((n.child? role).map unannotated)
      ((n'.child? role).map unannotated) :=
  rel_map (corresponds_child? h role) fun _ _ => corresponds_unannotated

/-- No comment is a question mark. -/
theorem isOptional_eq (h : Inserted (Tame policy) n n') : n'.isOptional = n.isOptional := by
  have hcode : n'.isOptional = n'.code.any (·.kind = .questionMark) := by
    rw [isOptional, code, List.any_filter]
    congr 1
    funext c
    cases hc : c.isComment with
    | false => simp
    | true => simp [kind_of_isComment hc]
  have hchildren : List.Forall₂ (fun c c' => c'.kind = c.kind) n.children n'.code :=
    h.children.imp fun c c' hc => hc.kind_eq
  rw [hcode, isOptional]
  generalize n.children = cs, n'.code = cs' at hchildren ⊢
  induction hchildren with
  | nil => rfl
  | cons hc _ ih => rw [List.any_cons, List.any_cons, hc, ih]

/-- No comment is a type parameter. -/
theorem typeParameterCount_eq (h : Inserted (Tame policy) n n') :
    n'.typeParameterCount = n.typeParameterCount := by
  have hlist := h.child? h.pair.1 .typeParameters
  rw [typeParameterCount, typeParameterCount]
  generalize n.child? _ = list?, n'.child? _ = list'? at hlist ⊢
  cases hlist with
  | none => rfl
  | some hlist =>
      have hparameters := hlist.filter_named (p := (·.kind = .typeParameter))
        (fun c hc => by simp [kind_of_isComment hc]) fun c c' hc => by rw [hc.kind_eq]
      simp only [List.countP_eq_length_filter, hparameters.length_eq]

/-- Members keep their names. -/
theorem memberName?_eq (h : Inserted (Tame policy) n n') : n'.memberName? = n.memberName? := by
  rw [memberName?, memberName?]
  match n.child? .name, n'.child? .name, names_rel h with
  | _, _, .none => rfl
  | _, _, .some ⟨hname, hnone⟩ =>
      rw [Option.map_some, Option.map_some, hname.kind_eq, hname.stringValue_eq hnone,
        hname.text_eq hnone]

theorem membersNamed_filter (h : Inserted (Tame policy) n n') (name : String) :
    List.Forall₂ (Inserted (Tame policy)) (n.membersNamed name) (n'.membersNamed name) :=
  h.filter_named (fun c hc => by simp [kind_of_isComment hc])
    fun c c' hc => by rw [hc.kind_eq, memberName?_eq hc]

/-- Places of a parameter list hold the same plain parameter, or none. -/
theorem parameterSite_alike (h : Inserted (Tame policy) n n') :
    ParameterSite.Alike (Corresponds policy scope scope') SameBesideComments n.parameterSite
      n'.parameterSite := by
  have hother : ParameterSite.Alike (Corresponds policy scope scope') SameBesideComments
      (.other n.text) (.other n'.text) := .other ⟨n, n', h.imp fun _ _ _ _ => trivial, rfl, rfl⟩
  have hpattern := h.child? h.pair.1 .pattern
  rw [parameterSite, parameterSite]
  generalize n.child? .pattern = pattern?, n'.child? .pattern = pattern'? at hpattern ⊢
  cases hpattern with
  | none => exact hother
  | some hpattern =>
      simp only [h.kind_eq, hpattern.kind_eq]
      split
      · next hplain =>
          have hidentifier := hpattern.kind_eq.trans hplain.2
          have htext := hpattern.text_eq (hpattern.pair.1.tokens (by rw [hidentifier]; rfl))
          rw [htext]
          exact .plain (corresponds_map_unannotated h .type)
      · exact hother

/-- Parameter lists correspond, comments left out. -/
theorem parameterSites_alike (h : Inserted (Tame policy) n n') :
    List.Forall₂ (ParameterSite.Alike (Corresponds policy scope scope') SameBesideComments)
      n.parameterSites n'.parameterSites := by
  have hlist := h.child? h.pair.1 .parameters
  rw [parameterSites, parameterSites]
  generalize n.child? _ = list?, n'.child? _ = list'? at hlist ⊢
  cases hlist with
  | none => exact .nil
  | some hlist =>
      exact List.rel_map (fun _ _ hsite => parameterSite_alike hsite)
        (hlist.filter_named (fun c hc => by simp [hc]) fun c c' hc => by
          rw [isComment_eq_of_kind hc.kind_eq])

/-- Members that correspond are declared alike. -/
theorem declaration_alike (h : Inserted (Tame policy) n n') :
    Declaration.Alike (Corresponds policy scope scope') SameBesideComments n.declaration
      n'.declaration := by
  rw [declaration, declaration, h.kind_eq]
  split
  · rw [isOptional_eq h, typeParameterCount_eq h]
    exact .method (parameterSites_alike h) (corresponds_map_unannotated h .returnType)
  · rw [isOptional_eq h]
    exact .property (corresponds_map_unannotated h .type)
  · exact .other

/-! ## References -/

/-- A type argument stays a string literal, or stays none. -/
theorem typeArgument_alike (h : Inserted (Tame policy) n n') :
    TypeArgument.Alike n.typeArgument n'.typeArgument := by
  rw [typeArgument, typeArgument]
  by_cases hkind : n'.kind = .literalType
  · have hliteral := h.firstNamed? (h.pair.1.literals hkind)
    generalize n.firstNamed? = literal?, n'.firstNamed? = literal'? at hliteral ⊢
    cases hliteral with
    | none => exact .other _ _
    | some hliteral =>
        simp only [h.kind_eq, hliteral.kind_eq]
        split
        · exact .stringLiteral _ _
        · exact .other _ _
  · simp only [← h.kind_eq, hkind, false_and, if_false]
    split <;> split <;> exact .other _ _

/-- References stay references to the same name, with alike arguments where the
policy looks at them. -/
theorem reference?_alike (h : Inserted (Tame policy) n n') :
    Option.Rel (Reference.Alike policy) n.reference? n'.reference? := by
  have hkind := h.kind_eq
  rw [reference?, reference?, hkind]
  split
  case h_1 kind | h_2 kind =>
    exact .some ⟨(text_eq_of_reference h (by simp [hkind, kind])).symm, fun _ _ => .nil⟩
  case h_3 kind =>
    have hlist := h.child? h.pair.1 .typeArguments
    have hcode := fun hcheck => h.pair.2.arguments hcheck (hkind.trans kind)
    rw [name_text_eq h] at hcode ⊢
    generalize n.child? .typeArguments = list?, n'.child? .typeArguments = list'? at hlist hcode ⊢
    cases hlist with
    | none => exact .some ⟨rfl, fun _ _ => .nil⟩
    | some hlist =>
        refine .some ⟨rfl, fun hcheck hwrapper => ?_⟩
        exact List.rel_map (fun _ _ hargument => typeArgument_alike hargument)
          (hlist.namedChildren_of_code (hcode hcheck hwrapper _ rfl))
  case h_4 => exact .none

/-- With a comment among its type arguments a reference is no wrapper around a
string literal. -/
theorem isWrapped_of_comment_argument (policy : RefPolicy) {list c : Node}
    (hkind : n.kind = .genericType) (hlist : n.child? .typeArguments = some list)
    (hmem : c ∈ list.namedChildren) (hc : c.isComment = true) :
    ∀ reference ∈ n.reference?, policy.isWrapped reference = false := by
  have hargument : c.typeArgument = .other c.text := by
    rw [typeArgument, kind_of_isComment hc]
    cases c.firstNamed? <;> rfl
  have hother : .other c.text ∈ list.namedChildren.map typeArgument :=
    List.mem_map.mpr ⟨c, hmem, hargument⟩
  intro reference hreference
  rw [reference?, hkind] at hreference
  cases hreference
  rw [hlist, Option.map_some, Option.getD_some, RefPolicy.isWrapped]
  simp only
  split
  · next value heq =>
      rw [heq] at hother
      simp at hother
  · exact Bool.and_false _

/-! ## The models -/

theorem memberSites?_rel {t t' : ResolvedType}
    (h : ResolvedType.Alike (Corresponds policy scope scope') t t') (name : String) :
    Option.Rel (List.Forall₂ (Inserted (Tame policy))) (t.memberSites? name)
      (t'.memberSites? name) := by
  rw [memberSites?_eq_firstSites, memberSites?_eq_firstSites]
  exact firstSites_rel h.levels fun _ _ hbody => membersNamed_filter hbody.inserted name

/-- Alike types can be called in ways that correspond. -/
theorem signatureNodes_rel {t t' : ResolvedType}
    (h : ResolvedType.Alike (Corresponds policy scope scope') t t') :
    List.Forall₂ (Inserted (Tame policy)) t.signatureNodes t'.signatureNodes := by
  cases h with
  | leaf left right =>
      rw [ResolvedType.signatureNodes_of_isLeaf left, ResolvedType.signatureNodes_of_isLeaf right]
      exact .nil
  | union => exact .nil
  | function signature => exact .cons signature.inserted .nil
  | object all =>
      exact List.rel_flatMap (List.rel_flatten all) fun _ _ hbody =>
        hbody.inserted.filter_named (fun c hc => by simp [kind_of_isComment hc])
          fun c c' hc => by rw [hc.kind_eq]

namespace Commented

variable (h : Commented policy scope scope')

include h

/-- Call signatures that correspond are alike. -/
theorem callSignature_alike (hn : Inserted (Tame policy) n n') :
    CallSignature.Alike (Corresponds policy scope scope')
      (ResolvedType.Alike (Corresponds policy scope scope')) SameBesideComments
      (scope.callSignature n) (scope'.callSignature n') where
  typeParameters := (typeParameterCount_eq hn).symm
  parameters := parameterSites_alike hn
  result := by
    have hresult := rel_map (@corresponds_map_unannotated policy scope scope' n n' hn .returnType)
      fun _ _ => h.resolve_alike
    rw [callSignature, callSignature]
    simp only [result?]
    generalize Option.map scope.resolve _ = t?, Option.map scope'.resolve _ = t'? at hresult ⊢
    cases hresult with
    | none => exact .leaf rfl rfl rfl
    | some ht => exact ht

/-- **Comments in other places do not change what a model answers.** -/
theorem alike_model :
    TypeModel.Alike (Corresponds policy scope scope')
      (ResolvedType.Alike (Corresponds policy scope scope')) SameBesideComments policy scope.model
      scope'.model where
  resolve _ _ hn := h.resolve_alike hn
  declarations? _ _ name ht := rel_map (memberSites?_rel ht name) fun _ _ hsites =>
    List.rel_map (fun _ _ hsite => declaration_alike hsite) hsites
  callSignatures _ _ ht :=
    List.rel_map (fun _ _ hn => h.callSignature_alike hn) (signatureNodes_rel ht)
  isString _ _ ht := ht.isOf_eq .string
  isBoolean _ _ ht := ht.isOf_eq .boolean
  isInt32 _ _ ht := ht.isOf_eq .int32
  isVoid _ _ ht := ht.isOf_eq .void
  reference? _ _ hn := reference?_alike hn.inserted

end Commented

end Scope

end CommandSchema
