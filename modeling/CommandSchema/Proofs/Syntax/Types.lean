import CommandSchema.Proofs.Syntax.Tokens
import CommandSchema.Syntax.Types

/-!
# CommandSchema.Proofs.Syntax.Types

The rules for types keep the laws of the grammar.

This is the only part of the grammar that makes unions: operands are joined by
a bar, and the operand behind the bar is a named child (`lawful_joined`).  Every
other rule gives its node a plain kind, and its law is found from its shape.
-/

namespace CommandSchema.Syntax.Reader

-- the laws of long rules are terms that repeat the rules
set_option synthInstance.maxSize 1000000

variable (sub : Goal → Reader Node) [∀ goal : Goal, Lawful (sub goal) goal.readsStatements]

/-! ## Names and annotations -/

instance : Lawful (propertyName sub) := by
  unfold propertyName
  refine .rest_bind fun text => ?_
  cases text with
  | nil => infer_instance
  | cons c after =>
      have hprivate : LawfulAt (c :: after) (leaf .propertyName (1 + Scan.wordLength after)) :=
        .leaf (by omega) (List.cons_ne_nil _ _)
      have hnumber (n : Nat) : LawfulAt (c :: after) (match n with
          | 0 => anyWord .propertyName
          | n => leaf .number n) := by
        split
        · infer_instance
        · next hn => exact .leaf hn (List.cons_ne_nil _ _)
      infer_instance

instance (w : String) : Lawful (modifier w) := by
  unfold modifier
  infer_instance

instance (words : List String) : Lawful (modifiers words) := by
  unfold modifiers
  infer_instance

instance : Lawful (typeArguments sub) := by
  unfold typeArguments
  infer_instance

instance : Lawful (annotatedType sub) := by
  unfold annotatedType
  infer_instance

instance : Lawful (initializer sub) := by
  unfold initializer
  infer_instance

instance : Lawful atPredicate := by
  unfold atPredicate
  infer_instance

instance : Lawful atAssertion := by
  unfold atAssertion
  infer_instance

instance : Moves (predicate sub) := by
  unfold predicate
  infer_instance

instance : Lawful (predicate sub) := Moves.lawful

instance : Moves (assertion sub) := by
  unfold assertion
  infer_instance

instance : Lawful (assertion sub) := Moves.lawful

instance : Lawful (annotatedResult sub) := by
  unfold annotatedResult
  infer_instance

/-! ## Parameters -/

/-- The optional marker is the only punctuation among the nodes. -/
instance : Lawful questionMark := by
  unfold questionMark
  have hleaf : Lawful (do
      guard ((← rest).head? = some '?')
      collect (← leaf .questionMark 1)) :=
    .rest_bind fun text => .guard_bind fun hmark =>
      lawfulAt_collect_leaf Nat.one_ne_zero (by rintro rfl; simp at hmark) (by decide) rfl
  infer_instance

instance : Lawful (decorator sub) := by
  unfold decorator
  refine .bind inferInstance fun start _ => .bind inferInstance fun _ _ =>
    .node (.bind inferInstance fun _ _ => .bind inferInstance fun _ _ => ?_)
  split
  · infer_instance
  · refine .bind inferInstance fun _ _ => .bind inferInstance fun nameStart _ =>
      .bind inferInstance fun first _ => lawful_nodeFrom_bind nofun nofun nofun fun name _ _ => ?_
    have hcallee : Among [if name.children.length = 1 then first else name] [name] := by
      split <;> infer_instance
    infer_instance

instance : Lawful (decorators sub) := by
  unfold decorators
  infer_instance

instance : Lawful (parameter sub) := by
  unfold parameter
  refine .node_bind inferInstance fun n hn hkind => ?_
  have hoptional : Obeys ({ n with kind := .optionalParameter } : Node) :=
    obeys_with_kind hn (by rw [hkind])
  infer_instance

instance : Lawful (parameters sub) := by
  unfold parameters
  infer_instance

instance : Lawful (typeParameter sub) := by
  unfold typeParameter
  infer_instance

instance : Lawful (typeParameters sub) := by
  unfold typeParameters
  infer_instance

instance : Moves (callSignature sub) := by
  unfold callSignature
  infer_instance

instance : Lawful (callSignature sub) := Moves.lawful

/-! ## Members -/

instance : Lawful indexModifiers := by
  unfold indexModifiers
  infer_instance

instance : Lawful atIndexSignature := by
  unfold atIndexSignature
  infer_instance

instance : Lawful (indexSignature sub) := by
  unfold indexSignature
  infer_instance

instance : Lawful memberModifiers := by
  unfold memberModifiers
  infer_instance

instance : Lawful (namedMember sub) := by
  unfold namedMember
  rw [cursor_bind_orElse]
  infer_instance

instance : Lawful member.constructStart := by
  unfold member.constructStart
  infer_instance

instance : Lawful (member sub) := by
  unfold member
  infer_instance

instance : Lawful atObjectEnd := by
  unfold atObjectEnd
  infer_instance

instance (kind : Kind) [Holds kind.isPlain] : Lawful (memberList sub kind) := by
  unfold memberList
  infer_instance

/-! ## Primary types -/

instance : Lawful arrowFollows := by
  unfold arrowFollows
  refine .bind inferInstance fun _ _ => .bind inferInstance fun text _ => ?_
  split
  · refine .bind inferInstance fun _ _ => ?_
    split <;> infer_instance
  · infer_instance

instance (kind : Kind) [Holds kind.isPlain] : Lawful (dotName kind) := by
  unfold dotName
  infer_instance

instance (start : Cursor) (name : Node) (used : List Node) [Obeys name] [Among [name] used] :
    Lawful (withTypeArguments sub start name) false used := by
  unfold withTypeArguments
  infer_instance

instance : Lawful (typeReference sub) := by
  unfold typeReference
  refine .bind inferInstance fun start _ => .bind inferInstance fun first _ =>
    lawful_nodeFrom_bind nofun nofun nofun fun dotted _ _ => ?_
  have hname : Among [if dotted.children.length = 1 then first else dotted] [dotted] := by
    split <;> infer_instance
  infer_instance

instance (u : Unit) : Lawful (callArguments.argument sub u) := by
  unfold callArguments.argument
  infer_instance

instance : Lawful (callArguments sub) := by
  unfold callArguments
  infer_instance

instance : Lawful (importType sub) := by
  unfold importType
  infer_instance

instance : Lawful (typeQuery sub) := by
  unfold typeQuery
  infer_instance

instance : Lawful tupleEntry.labelled := by
  unfold tupleEntry.labelled
  infer_instance

instance : Lawful (tupleEntry sub) := by
  unfold tupleEntry
  infer_instance

instance (p : Reader Node) [Lawful p] : Lawful (literalType p) := by
  unfold literalType
  infer_instance

instance : Lawful signedNumber := by
  unfold signedNumber
  have hnumber : Moves (do
      let n := Scan.numberLength (← rest)
      guard (n ≠ 0)
      advance n) :=
    .rest_bind fun text => .guard_bind fun hn =>
      .advance (by simpa using hn) (by rintro rfl; exact absurd rfl (of_decide_eq_true hn))
  infer_instance

instance : Lawful (wordType sub) := by
  unfold wordType
  refine .nextWord_bind fun text w hw => ?_
  have hpredefined : w ∈ predefinedTypes → LawfulAt text (leaf .predefinedType w.length) := by
    intro hmem
    have hne : w ≠ "" := by
      rintro rfl
      exact absurd hmem (by decide)
    exact .leaf (by simpa using hne) (hw hne)
  split
  · next hmem => exact hpredefined hmem
  · infer_instance

instance : Lawful (atomicType sub) := by
  unfold atomicType
  refine .rest_bind fun text => ?_
  cases text with
  | nil => infer_instance
  | cons c after =>
      have hstar : LawfulAt (c :: after) (leaf .otherType 1) :=
        .leaf Nat.one_ne_zero (List.cons_ne_nil _ _)
      infer_instance

instance (start : Cursor) (t : Node) (used : List Node) [Obeys t] [Among [t] used] :
    Lawful (suffixes sub start t) false used := by
  unfold suffixes
  infer_instance

/-! ## Operators on types -/

instance : Lawful (functionResult sub) := by
  unfold functionResult
  infer_instance

instance : Lawful (typeOperand sub) := by
  unfold typeOperand
  infer_instance

section Joined

variable (sign : String) {kind : Kind} (hkind : kind ≠ .questionMark)
  (hdeclares : kind.declaresType = false) (operand : Reader Node) [Lawful operand]

include hkind hdeclares

/-- A sign in front of an operand may be one of unions: its operand is a named
child. -/
theorem lawful_signedOperand (n : Nat) : Lawful (signedOperand sign kind operand n) := by
  induction n with
  | zero =>
      unfold signedOperand
      infer_instance
  | succ n ih =>
      unfold signedOperand
      have hnode : Lawful (node kind do
          mark sign
          child (signedOperand sign kind operand n)) :=
        lawful_node inferInstance hkind (fun _ => inferInstance) (by simp [hdeclares])
      infer_instance

/-- Joined operands keep the laws, also when they make a union: the operand
behind the sign is a named child. -/
theorem lawful_joined : Lawful (joined sign kind operand) := by
  unfold joined
  refine .bind inferInstance fun start _ => .bind inferInstance fun ctx _ => ?_
  have hoperand := lawful_signedOperand sign hkind hdeclares operand ctx.size
  have hnode (left : {left : Node // Obeys left}) (used : List Node) [Among [left.val] used] :
      Lawful (nodeFrom start kind [left.val] do
        mark sign
        child (signedOperand sign kind operand ctx.size)) false used :=
    lawful_nodeFrom hkind (fun _ => inferInstance) (by simp [hdeclares])
  infer_instance

end Joined

instance : Lawful (unionType sub) := by
  have hkind : Kind.otherType ≠ .questionMark := by decide
  have hintersection := lawful_joined "&" hkind rfl (typeOperand sub)
  exact lawful_joined "|" (by decide) rfl _

instance : Lawful (typeExpression sub) := by
  unfold typeExpression
  infer_instance

end CommandSchema.Syntax.Reader
