import CommandSchema.Proofs.Contract.Rules
import CommandSchema.Proofs.Typing.Denotation
import CommandSchema.Typing.FileModel

/-!
# CommandSchema.Proofs.Typing.StepBound

How far the bound on the steps of a resolution reaches.

One bound covers every kind of step.  An alias costs two, one from the
reference to the declaration and one from the declaration to its value, and
each bar of a union costs one, since unions nest to the left.  So a union of
`n` strings behind `k` aliases is a string exactly when `2 * k + n` is at most
`maxDepth + 1`, and an integer name behind `k` aliases is the integer type
exactly when `2 * k` is at most `maxDepth` (`parameterKind_iff_steps`).  Beyond
that the expression stands for its text, and a parameter of that type is
rejected.
-/

namespace CommandSchema

open Syntax

/-! ## Unions of strings -/

/-- `n.JoinsStrings k`: the node is a literal of a string, or the union of `k`
of them, nested to the left as the grammar reads it. -/
inductive Syntax.Node.JoinsStrings : Nat → Node → Prop
  | literal {n literal : Node} (kind : n.kind = .literalType)
      (first : n.firstNamed? = some literal) (quoted : literal.kind = .stringLiteral) :
      JoinsStrings 1 n
  | union {k : Nat} {n left right : Node} (kind : n.kind = .unionType)
      (operands : n.namedChildren = [left, right]) (left : JoinsStrings k left)
      (right : JoinsStrings 1 right) : JoinsStrings (k + 1) n

namespace Scope

variable {scope : Scope}

open Syntax.Node (JoinsStrings)

/-- A union of `k` strings denotes strings, one step down for every bar. -/
theorem denotes_of_joinsStrings {k : Nat} {n : Node} (h : JoinsStrings (k + 1) n) :
    scope.Denotes .string k n := by
  induction k generalizing n with
  | zero =>
      cases h with
      | literal kind first quoted => exact .own (.stringLiteral kind first quoted)
      | union _ _ left => cases left
  | succ k ih =>
      cases h with
      | @union _ _ left right kind operands hleft hright =>
          refine .union kind rfl (by simp [operands]) fun m hm => ?_
          rw [operands, List.mem_pair] at hm
          rcases hm with rfl | rfl
          · exact ih hleft
          · cases hright with
            | literal kind first quoted => exact .own (.stringLiteral kind first quoted)
            | union _ _ left => cases left

/-- With fewer steps than strings, an innermost literal of a union stands for
its text. -/
theorem other_mem_variants_of_steps_lt {k steps : Nat} {n : Node} (h : JoinsStrings k n)
    (hsteps : steps < k) (path : List Node) (seen : List String) :
    ∃ text, .other text ∈ (scope.typeWithin steps path n seen).variants := by
  induction h generalizing steps seen with
  | literal =>
      obtain rfl : steps = 0 := by omega
      rw [typeWithin_zero]
      exact ⟨_, List.mem_singleton.mpr rfl⟩
  | @union k n left right kind operands _ _ ihleft _ =>
      cases steps with
      | zero =>
          rw [typeWithin_zero]
          exact ⟨_, List.mem_singleton.mpr rfl⟩
      | succ steps =>
          obtain ⟨types, htype, htypes⟩ := typeWithin_union scope kind steps path seen
          obtain ⟨t, ht, seen', rfl⟩ :=
            exists_right_of_forall₂ htypes (show left ∈ n.namedChildren by simp [operands])
          obtain ⟨text, htext⟩ := ihleft (Nat.lt_of_succ_lt_succ hsteps) seen'
          rw [htype]
          exact ⟨text, List.mem_flatMap.mpr ⟨_, ht, htext⟩⟩

/-! ## Chains of aliases -/

/-- The node behind a number of aliases: the first node refers to an alias, its
value to the next one, and so on. -/
def behindAliases (scope : Scope) : Nat → Node → Option Node
  | 0, n => some n
  | k + 1, n => do
    let declaration ← scope.target? n
    if declaration.kind = .typeAliasDeclaration then
      scope.behindAliases k (← declaration.child? .value)
    else none

/-- A chain of aliases begins with a step to the first alias and one to its
value. -/
theorem behindAliases_succ {k : Nat} {n m : Node} (h : scope.behindAliases (k + 1) n = some m) :
    ∃ declaration value, scope.Leads n declaration ∧ scope.Leads declaration value ∧
      scope.behindAliases k value = some m := by
  obtain ⟨declaration, htarget, h⟩ := Option.bind_eq_some_iff.mp h
  split at h
  · next kind =>
      obtain ⟨value, hvalue, h⟩ := Option.bind_eq_some_iff.mp h
      exact ⟨declaration, value, target?_eq_some_iff.mp htarget, .aliased kind hvalue, h⟩
  · cases h

/-- What stands behind aliases is denoted by the first reference, two steps
further up for every alias. -/
theorem denotes_of_behindAliases {c : TypeClass} {j k : Nat} {n m : Node}
    (h : scope.behindAliases k n = some m) (hm : scope.Denotes c j m) :
    scope.Denotes c (2 * k + j) n := by
  induction k generalizing n with
  | zero =>
      obtain rfl : n = m := by simpa [behindAliases] using h
      exact hm.mono (by omega)
  | succ k ih =>
      obtain ⟨declaration, value, hdeclaration, hvalue, h⟩ := behindAliases_succ h
      have hrest : scope.Denotes c (2 * k + j + 1) declaration := .step hvalue (ih h)
      exact (Denotes.step hdeclaration hrest).mono (by omega)

/-- A step from node to node uses up one of the steps, or ends with the text of
an alias that is being resolved. -/
theorem typeWithin_of_leads_or_other {n m : Node} (h : scope.Leads n m) (steps : Nat)
    (path : List Node) (seen : List String) :
    (∃ text, scope.typeWithin (steps + 1) path n seen = .other text) ∨
      ∃ path', scope.typeWithin (steps + 1) path n seen = scope.typeWithin steps path' m seen := by
  by_cases hpath : n.kind = .typeAliasDeclaration → n ∉ path
  · exact .inr ⟨_, typeWithin_of_leads h steps hpath seen⟩
  · obtain ⟨kind, hmem⟩ : n.kind = .typeAliasDeclaration ∧ n ∈ path := by simpa using hpath
    refine .inl ⟨n.text, ?_⟩
    rw [typeWithin, resolveWithin_of_mem_path kind steps hmem]
    rfl

/-- Behind aliases stands the node at their end, with two steps fewer for each
of them, or nothing but a text. -/
theorem typeWithin_of_behindAliases {k : Nat} {n m : Node} (h : scope.behindAliases k n = some m)
    (steps : Nat) (path : List Node) (seen : List String) :
    (∃ text, scope.typeWithin steps path n seen = .other text) ∨
      2 * k ≤ steps ∧ ∃ path',
        scope.typeWithin steps path n seen = scope.typeWithin (steps - 2 * k) path' m seen := by
  induction k generalizing n steps path with
  | zero =>
      obtain rfl : n = m := by simpa [behindAliases] using h
      exact .inr ⟨by omega, path, rfl⟩
  | succ k ih =>
      obtain ⟨declaration, value, hdeclaration, hvalue, h⟩ := behindAliases_succ h
      match steps with
      | 0 => exact .inl ⟨_, typeWithin_zero path n seen⟩
      | steps + 1 =>
          rcases typeWithin_of_leads_or_other hdeclaration steps path seen with
            htext | ⟨path', hstep⟩
          · exact .inl htext
          rw [hstep]
          match steps with
          | 0 => exact .inl ⟨_, typeWithin_zero path' declaration seen⟩
          | steps + 1 =>
              rcases typeWithin_of_leads_or_other hvalue steps path' seen with
                htext | ⟨path'', hstep'⟩
              · exact .inl htext
              rw [hstep']
              rcases ih h steps path'' with htext | ⟨hle, path', hrest⟩
              · exact .inl htext
              · refine .inr ⟨by omega, path', ?_⟩
                rw [hrest, show steps + 1 + 1 - 2 * (k + 1) = steps - 2 * k by omega]

/-! ## The reach of the bound -/

/-- Within the bound, a union of strings behind aliases is a string. -/
theorem isString_resolve_of_steps_le {j k : Nat} {n m : Node}
    (h : scope.behindAliases k n = some m) (hm : JoinsStrings j m)
    (hle : 2 * k + j ≤ maxDepth + 1) : (scope.resolve n).isString = true := by
  obtain ⟨i, rfl⟩ : ∃ i, j = i + 1 := by
    cases hm with
    | literal => exact ⟨0, rfl⟩
    | union => exact ⟨_, rfl⟩
  have hdenotes := denotes_of_behindAliases h (denotes_of_joinsStrings hm)
  exact isOf_typeWithin_of_denotes hdenotes (by omega) (by simp) []

/-- Beyond the bound, some part of such a union stands for its text. -/
theorem other_mem_variants_resolve_of_lt_steps {j k : Nat} {n m : Node}
    (h : scope.behindAliases k n = some m) (hm : JoinsStrings j m)
    (hlt : maxDepth + 1 < 2 * k + j) : ∃ text, .other text ∈ (scope.resolve n).variants := by
  rw [resolve_eq_typeWithin]
  rcases typeWithin_of_behindAliases h (maxDepth + 1) [] [] with
    ⟨text, htext⟩ | ⟨hle, path, hrest⟩
  · rw [htext]
    exact ⟨text, List.mem_singleton.mpr rfl⟩
  · rw [hrest]
    exact other_mem_variants_of_steps_lt hm (by omega) path []

/-- Within the bound, an integer name behind aliases is the integer type. -/
theorem isInt32_resolve_of_steps_le {k : Nat} {n m : Node}
    (h : scope.behindAliases k n = some m) (hm : scope.Names .int32 m)
    (hle : 2 * k ≤ maxDepth) : (scope.resolve n).isInt32 = true := by
  have hdenotes := denotes_of_behindAliases h (Denotes.own (k := 0) hm)
  exact isOf_typeWithin_of_denotes hdenotes (by omega) (by simp) []

/-- Beyond the bound, what stands behind aliases is never reached. -/
theorem resolve_eq_other_of_lt_steps {k : Nat} {n m : Node}
    (h : scope.behindAliases k n = some m) (hlt : maxDepth < 2 * k) :
    ∃ text, scope.resolve n = .other text := by
  rw [resolve_eq_typeWithin]
  rcases typeWithin_of_behindAliases h (maxDepth + 1) [] [] with htext | ⟨hle, path, hrest⟩
  · exact htext
  · rw [hrest, show maxDepth + 1 - 2 * k = 0 by omega, typeWithin_zero]
    exact ⟨_, rfl⟩

/-! ## Parameters -/

open Contract (mapParameter)

theorem mapParameter_of_isString {n : Node} (h : (scope.resolve n).isString = true)
    (name : String) : mapParameter scope.model ⟨name, some n⟩ = .ok ⟨name, .string⟩ :=
  (Contract.mapParameter_eq_ok_iff scope.model).mpr ⟨rfl, n, rfl, .string h⟩

/-- A parameter of the integer type is recorded as one. -/
theorem mapParameter_of_isInt32 {n : Node} (h : (scope.resolve n).isInt32 = true)
    (name : String) : mapParameter scope.model ⟨name, some n⟩ = .ok ⟨name, .int32⟩ := by
  have htype : scope.resolve n = .int32 := by
    cases hn : scope.resolve n <;> simp_all [ResolvedType.isInt32]
  have hnot : (scope.resolve n).isString = false ∧ (scope.resolve n).isBoolean = false := by
    rw [htype]
    exact ⟨rfl, rfl⟩
  exact (Contract.mapParameter_eq_ok_iff scope.model).mpr ⟨rfl, n, rfl, .int32 hnot.1 hnot.2 h⟩

/-- A parameter whose type has a part of no class is rejected. -/
theorem mapParameter_of_other_mem_variants {n : Node} {text : String}
    (h : .other text ∈ (scope.resolve n).variants) (name : String) :
    mapParameter scope.model ⟨name, some n⟩ = .error (.unsupportedParameter name n.text) := by
  have hclass := ResolvedType.not_isOf_of_other_mem_variants h
  refine Contract.mapParameter_of_not_supported scope.model ?_
  rintro ⟨type, htype, hsupported⟩
  cases htype
  rcases hsupported with hs | hb | hi
  · exact absurd hs (by rw [Bool.not_eq_true]; exact hclass .string)
  · exact absurd hb (by rw [Bool.not_eq_true]; exact hclass .boolean)
  · exact absurd hi (by rw [Bool.not_eq_true]; exact hclass .int32)

/-- **How far the bound reaches**: behind `k` aliases, a union of `j` strings
makes a string parameter exactly when `2 * k + j ≤ maxDepth + 1`, and an
integer name an integer parameter exactly when `2 * k ≤ maxDepth`.  Any longer
chain or union makes the parameter one of no supported type. -/
theorem parameterKind_iff_steps (scope : Scope) {k : Nat} {n last : Node}
    (h : scope.behindAliases k n = some last) (name : String) :
    (∀ j, JoinsStrings j last →
      ((scope.resolve n).isString = true ↔ 2 * k + j ≤ maxDepth + 1) ∧
      mapParameter scope.model ⟨name, some n⟩ =
        if 2 * k + j ≤ maxDepth + 1 then .ok ⟨name, .string⟩
        else .error (.unsupportedParameter name n.text)) ∧
    (scope.Names .int32 last →
      ((scope.resolve n).isInt32 = true ↔ 2 * k ≤ maxDepth) ∧
      mapParameter scope.model ⟨name, some n⟩ =
        if 2 * k ≤ maxDepth then .ok ⟨name, .int32⟩
        else .error (.unsupportedParameter name n.text)) := by
  constructor
  · intro j hlast
    by_cases hle : 2 * k + j ≤ maxDepth + 1
    · have hstring := isString_resolve_of_steps_le h hlast hle
      exact ⟨iff_of_true hstring hle, by rw [if_pos hle, mapParameter_of_isString hstring]⟩
    · obtain ⟨text, htext⟩ := other_mem_variants_resolve_of_lt_steps h hlast (Nat.not_le.mp hle)
      have hstring := ResolvedType.not_isOf_of_other_mem_variants htext .string
      exact ⟨iff_of_false (Bool.eq_false_iff.mp hstring) hle,
        by rw [if_neg hle, mapParameter_of_other_mem_variants htext]⟩
  · intro hlast
    by_cases hle : 2 * k ≤ maxDepth
    · have hint := isInt32_resolve_of_steps_le h hlast hle
      exact ⟨iff_of_true hint hle, by rw [if_pos hle, mapParameter_of_isInt32 hint]⟩
    · obtain ⟨text, htext⟩ := resolve_eq_other_of_lt_steps h (Nat.not_le.mp hle)
      have hother : .other text ∈ (scope.resolve n).variants := by
        rw [htext]
        exact List.mem_singleton.mpr rfl
      have hint := ResolvedType.not_isOf_of_other_mem_variants hother .int32
      exact ⟨iff_of_false (Bool.eq_false_iff.mp hint) hle,
        by rw [if_neg hle, mapParameter_of_other_mem_variants hother]⟩

/-- The type of one string. -/
def stringNode : Node :=
  ⟨.literalType, none, "'x'", ⟨1, 1⟩, [⟨.stringLiteral, none, "'x'", ⟨1, 1⟩, []⟩]⟩

/-- A union of one string more than the given number. -/
def joinedStrings : Nat → Node
  | 0 => stringNode
  | k + 1 => ⟨.unionType, none, "", ⟨1, 1⟩, [joinedStrings k, stringNode]⟩

/-- The literals of the union are counted. -/
theorem joinsStrings_joinedStrings (k : Nat) : JoinsStrings (k + 1) (joinedStrings k) := by
  have hone : JoinsStrings 1 stringNode := by
    have hfirst : stringNode.firstNamed? = some ⟨.stringLiteral, none, "'x'", ⟨1, 1⟩, []⟩ := by
      decide
    exact .literal rfl hfirst rfl
  induction k with
  | zero => exact hone
  | succ k ih =>
      refine .union rfl ?_ ih hone
      cases k <;> rfl

/-- A reference to a name. -/
def referenceTo (name : String) : Node := ⟨.typeIdentifier, some .value, name, ⟨1, 1⟩, []⟩

/-- Aliases with the given names, each for the next one, and the last one for a
name of its own. -/
def aliasesTo (last : String) : List String → List Node
  | [] => []
  | name :: names =>
    ⟨.typeAliasDeclaration, none, name, ⟨1, 1⟩,
      [⟨.typeIdentifier, some .name, name, ⟨1, 1⟩, []⟩,
        referenceTo (names.head?.getD last)]⟩ :: aliasesTo last names

/-- Seventeen aliases of the integer type. -/
def aliasedInt32 : Scope where
  declarations := aliasesTo "Int32"
    ["A", "B", "C", "D", "E", "F", "G", "H", "I", "J", "K", "L", "M", "N", "O", "P", "Q"]
  int32Names := ["Int32"]

/-- Neither seventeen aliases of the integer type nor a union of thirty-four
strings are within the bound. -/
theorem mapParameter_beyond_steps :
    aliasedInt32.behindAliases 17 (referenceTo "A") = some (referenceTo "Int32") ∧
    aliasedInt32.Names .int32 (referenceTo "Int32") ∧
    mapParameter aliasedInt32.model ⟨"speed", some (referenceTo "A")⟩ =
      .error (.unsupportedParameter "speed" "A") ∧
    JoinsStrings 34 (joinedStrings 33) ∧
    mapParameter aliasedInt32.model ⟨"mode", some (joinedStrings 33)⟩ =
      .error (.unsupportedParameter "mode" "") := by
  have hchain : aliasedInt32.behindAliases 17 (referenceTo "A") = some (referenceTo "Int32") := by
    decide +kernel
  have hint : aliasedInt32.Names .int32 (referenceTo "Int32") := .int32 (.inl rfl) (by decide)
  have hunion := joinsStrings_joinedStrings 33
  have hspeed := ((parameterKind_iff_steps aliasedInt32 hchain "speed").2 hint).2
  have hmode := ((parameterKind_iff_steps (k := 0) aliasedInt32 rfl "mode").1 34 hunion).2
  rw [if_neg (by decide)] at hspeed hmode
  exact ⟨hchain, hint, hspeed, hunion, hmode⟩

end Scope

end CommandSchema
