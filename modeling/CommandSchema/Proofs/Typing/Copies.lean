import CommandSchema.Proofs.Syntax.Copies
import CommandSchema.Typing.FileModel

/-!
# CommandSchema.Proofs.Typing.Copies

What is read off a node does not depend on where it stands.

Names, flags, literals and references are the same for nodes in a relation that
goes down (`Node.Copying`), such as that of copies.
-/

namespace CommandSchema.Syntax.Node.Copying

variable {R : Node → Node → Prop} (h : Copying R) {n n' : Node}

include h

/-! ## Members -/

theorem isOptional_eq (hn : R n n') : n'.isOptional = n.isOptional := by
  have hmarks (m : Node) : m.isOptional = (m.children.map Node.kind).any (· = .questionMark) := by
    rw [List.any_map]
    rfl
  rw [hmarks, hmarks, map_eq_of_forall₂ (h.children hn) fun c c' hc => h.kind hc]

/-- Related lists of type parameters have the same number of them. -/
theorem typeParameterCount_eq_of
    (hlist : Option.Rel R (n.child? .typeParameters) (n'.child? .typeParameters)) :
    n'.typeParameterCount = n.typeParameterCount := by
  rw [typeParameterCount, typeParameterCount]
  match n.child? .typeParameters, n'.child? .typeParameters, hlist with
  | _, _, .none => rfl
  | _, _, .some hlist =>
      simp only [List.countP_eq_length_filter]
      exact (h.filter_kind hlist (· = .typeParameter)).length_eq.symm

theorem typeParameterCount_eq (hn : R n n') : n'.typeParameterCount = n.typeParameterCount :=
  h.typeParameterCount_eq_of (h.child? hn .typeParameters)

theorem memberName?_eq (hn : R n n') : n'.memberName? = n.memberName? := by
  rw [memberName?, memberName?]
  match n.child? .name, n'.child? .name, h.child? hn .name with
  | _, _, .none => rfl
  | _, _, .some hname =>
      simp only [Option.map_some, h.kind hname, h.stringValue_eq hname, h.text hname]

/-! ## Types -/

theorem literalType_eq (hn : R n n') : Scope.literalType n' = Scope.literalType n := by
  rw [Scope.literalType, Scope.literalType]
  match n.firstNamed?, n'.firstNamed?, h.firstNamed? hn with
  | _, _, .none => simp only [h.text hn]
  | _, _, .some hliteral =>
      simp only [h.kind hliteral, h.stringValue_eq hliteral, h.text hn]

theorem declaredName_eq (hn : R n n') : Scope.declaredName n' = Scope.declaredName n := by
  rw [Scope.declaredName, Scope.declaredName, h.map_text_child? hn]

theorem isTypeDeclaration_eq (hn : R n n') :
    Scope.isTypeDeclaration n' = Scope.isTypeDeclaration n := by
  have hname := congrArg Option.isSome (h.map_text_child? hn .name)
  rw [Option.isSome_map, Option.isSome_map] at hname
  rw [Scope.isTypeDeclaration, Scope.isTypeDeclaration, h.kind hn, hname]

/-- Types are extended by the same name. -/
theorem baseName_eq (hn : R n n') : Scope.baseName n' = Scope.baseName n := by
  rw [Scope.baseName, Scope.baseName, h.kind hn]
  split
  · match n.child? .name, n'.child? .name, h.child? hn .name with
    | _, _, .none => exact h.text hn
    | _, _, .some hname => exact h.text hname
  · exact h.text hn

/-! ## References -/

/-- Type arguments are the same to the check of refs. -/
theorem typeArgument_eq (hn : R n n') : n'.typeArgument = n.typeArgument := by
  rw [typeArgument, typeArgument]
  match n.firstNamed?, n'.firstNamed?, h.firstNamed? hn with
  | _, _, .none => simp only [h.text hn]
  | _, _, .some hliteral =>
      simp only [h.kind hn, h.kind hliteral, h.stringValue_eq hliteral, h.text hn]

/-- References are the same to the check of refs. -/
theorem reference?_eq (hn : R n n') : n'.reference? = n.reference? := by
  have harguments : (n'.child? .typeArguments).map (fun list => list.namedChildren.map typeArgument)
      = (n.child? .typeArguments).map fun list => list.namedChildren.map typeArgument := by
    match n.child? .typeArguments, n'.child? .typeArguments, h.child? hn .typeArguments with
    | _, _, .none => rfl
    | _, _, .some hlist =>
        simp only [Option.map_some]
        rw [map_eq_of_forall₂ (h.namedChildren hlist) fun c c' hc => h.typeArgument_eq hc]
  rw [reference?, reference?, h.kind hn]
  split
  · rw [h.text hn]
  · rw [h.text hn]
  · rw [h.map_text_child? hn, harguments]
  · rfl

end CommandSchema.Syntax.Node.Copying
