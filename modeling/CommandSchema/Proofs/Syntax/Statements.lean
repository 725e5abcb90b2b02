import CommandSchema.Proofs.Syntax.Expressions
import CommandSchema.Syntax.SourceFile

/-!
# CommandSchema.Proofs.Syntax.Statements

The rules for statements keep the laws of the grammar, and with them the whole
grammar does: the tree of a parsed file holds no empty union
(`SourceFile.noEmptyUnion_root`), and no type declaration but among statements
(`SourceFile.declaresInStatements_root`).
-/

namespace CommandSchema.Syntax

namespace Reader

-- the laws of long rules are terms that repeat the rules
set_option synthInstance.maxSize 1000000

section Rules

variable (sub : Goal → Reader Node) [∀ goal : Goal, Lawful (sub goal) goal.readsStatements]

/-! ## Variables, functions and classes -/

instance : Lawful (declarator sub) := by
  unfold declarator
  infer_instance

instance : Lawful (declarators sub) := by
  unfold declarators
  infer_instance

instance : Lawful (variableDeclaration sub) := by
  unfold variableDeclaration
  infer_instance

instance : Lawful (functionDeclaration sub) := by
  unfold functionDeclaration
  infer_instance

instance : Lawful (classDeclaration sub) := by
  unfold classDeclaration
  infer_instance

/-! ## Types and modules -/

instance (u : Unit) : Lawful (interfaceDeclaration.extendsClause sub u) := by
  unfold interfaceDeclaration.extendsClause
  infer_instance

instance : Lawful (interfaceDeclaration sub) true := by
  unfold interfaceDeclaration
  infer_instance

instance : Lawful (typeAlias sub) true := by
  unfold typeAlias
  infer_instance

instance : Lawful (enumDeclaration sub) := by
  unfold enumDeclaration
  infer_instance

instance : Lawful dottedName := by
  unfold dottedName
  infer_instance

instance : Lawful (moduleDeclaration sub) := by
  unfold moduleDeclaration
  refine .node (.after inferInstance fun _ _ => .bind inferInstance fun _ _ =>
    .bind inferInstance fun c? _ => ?_)
  cases c? <;> infer_instance

instance : Lawful importAlias := by
  unfold importAlias
  infer_instance

/-! ## Declarations -/

instance : Lawful atDeclaration := by
  unfold atDeclaration
  infer_instance

instance (u : Unit) : Lawful (declaration.ambientDeclaration sub u) := by
  unfold declaration.ambientDeclaration
  infer_instance

instance : Lawful (declaration sub) true := by
  unfold declaration
  infer_instance

/-! ## Imports and exports -/

instance : Lawful (moduleName sub) := by
  unfold moduleName
  infer_instance

instance : Lawful specifiers.name := by
  unfold specifiers.name
  refine .bind inferInstance fun text _ => ?_
  cases text <;> infer_instance

instance : Lawful specifiers := by
  unfold specifiers
  infer_instance

instance : Lawful importStatement.names := by
  unfold importStatement.names
  infer_instance

instance : Lawful (importStatement sub) := by
  unfold importStatement
  refine .bind inferInstance fun found _ => ?_
  split
  · infer_instance
  · refine .node (.bind inferInstance fun _ _ => .bind inferInstance fun _ _ =>
      .bind inferInstance fun c? _ => ?_)
    cases c? <;> infer_instance

instance : Lawful (exportStatement.listed sub) := by
  unfold exportStatement.listed
  infer_instance

instance : Lawful (exportStatement sub) := by
  unfold exportStatement
  infer_instance

/-! ## Control flow -/

instance : Lawful (condition sub) := by
  unfold condition
  infer_instance

instance : Lawful (eachHead sub) := by
  unfold eachHead
  infer_instance

instance : Lawful (countedHead sub) := by
  unfold countedHead
  infer_instance

instance (w : String) : Lawful (switchBody.wordColon w) := by
  unfold switchBody.wordColon
  infer_instance

instance : Lawful (switchBody sub) true := by
  unfold switchBody
  infer_instance

instance (w : String) [Visible w] : Moves (controlStatement sub w) true := by
  unfold controlStatement
  infer_instance

instance : Lawful (statement sub) true := by
  unfold statement
  refine .nextChar?_bind fun text c? hc => ?_
  split
  case h_3 => exact .leaf Nat.one_ne_zero (hc nofun)
  case h_5 =>
    refine Lawful.lawfulAt (.bind inferInstance fun w _ => ?_)
    split
    · next hw =>
        have : Visible w := ⟨by rintro rfl; exact absurd hw (by decide)⟩
        infer_instance
    · infer_instance
  all_goals infer_instance

instance : Lawful (block sub) := by
  unfold block
  infer_instance

/-! ## The whole grammar -/

instance (goal : Goal) : Lawful (rules sub goal) goal.readsStatements := by
  cases goal <;> unfold rules <;> infer_instance

end Rules

/-- The readers of all goals keep the laws, whatever the bound on the depth. -/
theorem lawful_ofRules (n : Nat) :
    ∀ goal : Goal, Lawful (ofRules rules n goal) goal.readsStatements := by
  induction n with
  | zero => exact fun goal => inferInstanceAs (Lawful fail goal.readsStatements)
  | succ n ih =>
      exact fun goal =>
        inferInstanceAs (Lawful (rules (ofRules rules n) goal) goal.readsStatements)

/-- A whole file keeps the laws, and no node of it stands twice. -/
theorem program_keeps {ctx : Context} {c : Cursor} {root : Node} {t : ReaderState}
    (h : program ctx ⟨c, []⟩ = .ok (root, t)) : root.Lawful ∧ root.Distinct := by
  obtain ⟨_, s, hread, hnode⟩ := bind_eq_ok h
  cases hread
  have hrules := lawful_ofRules (8 * (ctx.size + 2))
  exact node_keeps hnode

end Reader

namespace SourceFile

/-- Reading starts with nothing collected, so the tree keeps the laws. -/
theorem keeps_of_parse {path text : String} {file : SourceFile}
    (h : parse path text = .ok file) : file.root.Lawful ∧ file.root.Distinct := by
  simp only [parse] at h
  split at h
  · next root hroot =>
      cases h
      unfold readProgram at hroot
      split at hroot
      · next t hprogram =>
          cases hroot
          exact Reader.program_keeps hprogram
      · cases hroot
  · cases h

/-- **Parsed files obey the laws of the grammar.** -/
theorem lawful_root {path text : String} {file : SourceFile}
    (h : parse path text = .ok file) : file.root.Lawful :=
  (keeps_of_parse h).1

/-- **Positions tell nodes apart**: in the tree of every file that can be parsed, no node
stands at two places. -/
theorem distinct_root {path text : String} {file : SourceFile}
    (h : parse path text = .ok file) : file.root.Distinct :=
  (keeps_of_parse h).2

/-- **The grammar has no empty unions**: in the tree of every file that can be
parsed, each union has a named child. -/
theorem noEmptyUnion_root {path text : String} {file : SourceFile}
    (h : parse path text = .ok file) : file.root.NoEmptyUnion :=
  (lawful_root h).noEmptyUnion

/-- **Types are declared by statements**: in the tree of every file that can be
parsed, type declarations stand among statements only. -/
theorem declaresInStatements_root {path text : String} {file : SourceFile}
    (h : parse path text = .ok file) : file.root.DeclaresInStatements :=
  (lawful_root h).declaresInStatements

end SourceFile

end CommandSchema.Syntax
