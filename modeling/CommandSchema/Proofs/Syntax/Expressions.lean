import CommandSchema.Proofs.Syntax.Types
import CommandSchema.Syntax.Elements

/-!
# CommandSchema.Proofs.Syntax.Expressions

The rules for expressions and elements keep the laws of the grammar.

All nodes of expressions are of plain kinds, so that the law of each rule is
found from its shape, once the text that it looks at is told apart.
-/

namespace CommandSchema.Syntax.Reader

-- the laws of long rules are terms that repeat the rules
set_option synthInstance.maxSize 1000000

variable (sub : Goal → Reader Node) [∀ goal : Goal, Lawful (sub goal) goal.readsStatements]

/-! ## Patterns -/

instance (u : Unit) : Lawful (bindingPattern.element sub u) := by
  unfold bindingPattern.element
  infer_instance

instance (u : Unit) : Lawful (bindingPattern.property sub u) := by
  unfold bindingPattern.property
  infer_instance

instance : Lawful (bindingPattern sub) := by
  unfold bindingPattern
  refine .bind inferInstance fun text _ => ?_
  split <;> infer_instance

/-! ## Functions and classes -/

instance : Lawful (functionTail sub) := by
  unfold functionTail
  infer_instance

instance : Lawful (functionExpression sub) := by
  unfold functionExpression
  infer_instance

instance : Lawful classMember.memberEnd := by
  unfold classMember.memberEnd
  infer_instance

instance : Lawful (classMember sub) := by
  unfold classMember
  infer_instance

instance : Lawful (classTail sub) := by
  unfold classTail
  infer_instance

instance : Lawful (classExpression sub) := by
  unfold classExpression
  infer_instance

/-! ## Literals of objects and arrays -/

instance : Lawful (objectProperty sub) := by
  unfold objectProperty
  infer_instance

instance : Lawful (objectLiteral sub) := by
  unfold objectLiteral
  infer_instance

instance : Lawful (arrayLiteral sub) := by
  unfold arrayLiteral
  infer_instance

instance : Lawful regularExpression := by
  unfold regularExpression
  refine .rest_bind fun text => ?_
  split
  · next n hn =>
      have htext : text ≠ [] := by
        rintro rfl
        cases hn
      have hleaf (flags : Nat) : LawfulAt text (leaf .otherExpression (1 + n + flags)) :=
        .leaf (by omega) htext
      infer_instance
  · infer_instance

/-! ## Primary expressions -/

instance : Lawful (parenthesized sub) := by
  unfold parenthesized
  infer_instance

instance : Lawful (importExpression sub) := by
  unfold importExpression
  infer_instance

instance : Lawful (wordExpression sub) := by
  unfold wordExpression
  infer_instance

instance : Lawful (primaryExpression sub) := by
  unfold primaryExpression
  refine .rest_bind fun text => ?_
  cases text with
  | nil => infer_instance
  | cons c after =>
      have hprivate : LawfulAt (c :: after) (leaf .otherExpression (1 + Scan.wordLength after)) :=
        .leaf (by omega) (List.cons_ne_nil _ _)
      have hnumber (n : Nat) : LawfulAt (c :: after) (match n with
          | 0 => wordExpression sub
          | n => leaf .number n) := by
        split
        · infer_instance
        · next hn => exact .leaf hn (List.cons_ne_nil _ _)
      infer_instance

/-! ## Member access and calls -/

instance : Lawful typeArgumentsEnd := by
  unfold typeArgumentsEnd
  refine .bind inferInstance fun c? _ => ?_
  cases c? <;> infer_instance

instance : Lawful (suffix.property sub) := by
  unfold suffix.property
  refine .bind inferInstance fun _ _ => .bind inferInstance fun text _ => ?_
  split <;> infer_instance

section Suffix

variable (start : Cursor) (e : Node) (used : List Node) [Obeys e] [Among [e] used]

instance (before : Reader Unit) [Lawful before] :
    Lawful (suffix.call sub start e before) false used := by
  unfold suffix.call
  infer_instance

instance : Lawful (suffix.applied sub start e) false used := by
  unfold suffix.applied
  infer_instance

instance : Lawful (suffix.optionalStep sub start e) false used := by
  unfold suffix.optionalStep
  infer_instance

/-- What has no suffix stays as it is. -/
instance (calls : Bool) : Lawful (suffix sub calls start e) false used (stepNodes e) := by
  unfold suffix
  refine .bind inferInstance fun _ _ => ?_
  split
  · infer_instance
  · refine .bind inferInstance fun c? _ => ?_
    split <;> infer_instance

instance (calls : Bool) : Lawful (suffixed sub calls start e) false used := by
  unfold suffixed
  infer_instance

end Suffix

instance : Lawful (newExpression sub) := by
  unfold newExpression
  infer_instance

/-! ## Operators -/

instance : Lawful (unaryExpression sub) := by
  unfold unaryExpression
  refine .bind inferInstance fun start _ => ?_
  split <;> infer_instance

instance : Lawful infixSign := by
  unfold infixSign
  refine .bind inferInstance fun _ _ => .bind inferInstance fun text _ => ?_
  split <;> infer_instance

instance : Lawful (infixExpression sub) := by
  unfold infixExpression
  infer_instance

instance : Lawful atCondition := by
  unfold atCondition
  have hnext (text : List Char) : Lawful (match text with
      | '?' :: _ => fail
      | '.' :: c :: _ => guard (Scan.isDigit c)
      | _ => pure ()) := by
    split <;> infer_instance
  infer_instance

instance : Lawful (conditionalExpression sub) := by
  unfold conditionalExpression
  infer_instance

instance : Lawful (arrowBody sub) := by
  unfold arrowBody
  infer_instance

instance : Lawful atArrowParameters := by
  unfold atArrowParameters
  refine .bind inferInstance fun _ _ => .bind inferInstance fun text _ => ?_
  split
  · refine .bind inferInstance fun _ _ => ?_
    split <;> infer_instance
  all_goals infer_instance

instance : Lawful (arrowFunction sub) := by
  unfold arrowFunction
  infer_instance

instance : Lawful atArrowFunction := by
  unfold atArrowFunction
  refine .bind inferInstance fun c? _ => ?_
  split <;> infer_instance

instance : Lawful assignmentExpression.assignmentSign := by
  unfold assignmentExpression.assignmentSign
  refine .bind inferInstance fun _ _ => .bind inferInstance fun text _ => ?_
  split <;> infer_instance

instance (start : Cursor) : Lawful (assignmentExpression.plain sub start) := by
  unfold assignmentExpression.plain
  infer_instance

instance : Lawful (assignmentExpression sub) := by
  unfold assignmentExpression
  infer_instance

instance : Lawful (sequenceExpression sub) := by
  unfold sequenceExpression
  infer_instance

/-! ## Elements -/

instance : Moves elementName := by
  unfold elementName
  refine .after inferInstance fun _ _ => .bind inferInstance fun _ _ =>
    .repeatWhile (.bind inferInstance fun text _ => ?_)
  split <;> infer_instance

instance : Lawful elementName := Moves.lawful

instance : Lawful (elementExpression sub) := by
  unfold elementExpression
  infer_instance

instance : Lawful attributeString := by
  unfold attributeString
  refine .node (.rest_bind fun text => ?_)
  split
  · next quote body =>
      refine .guard_bind fun hinside => .advance_bind Nat.one_ne_zero (List.cons_ne_nil _ _) ?_
      rw [List.drop_one, List.tail_cons]
      split
      · next hne =>
          have hleaf : LawfulAt body (leaf .stringFragment (body.takeWhile (· ≠ quote)).length) :=
            .leaf hne (by rintro rfl; simp at hne)
          infer_instance
      · infer_instance
  · exact .fail

instance : Lawful (elementAttribute sub) := by
  unfold elementAttribute
  have hvalue (c? : Option Char) : Lawful (match c? with
      | some '\x7b' => child (elementExpression sub)
      | some '<' => child (sub .element)
      | some c => do
        guard (c = '"' ∨ c = '\'')
        child attributeString
      | none => fail) := by
    split <;> infer_instance
  infer_instance

instance : Lawful (element.content sub) := by
  unfold element.content
  refine .bind (.repeatWhile (.bind inferInstance fun text _ => ?_)) fun _ _ => inferInstance
  split <;> infer_instance

instance : Lawful (element sub) := by
  unfold element
  infer_instance

end CommandSchema.Syntax.Reader
