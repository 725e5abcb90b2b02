import CommandSchema.Proofs.Traversal
import CommandSchema.Typing.Resolve

/-!
# CommandSchema.Proofs.Typing.Resolution

One step of resolution.

A type expression either leads to another node that it stands for
(`Scope.Leads`), is an interface or a union of its named children, or has a type
by its own form (`Scope.ownType`).  The lemmas on `Scope.resolveWithin` say so,
one for each case, so that nothing else has to open its definition.  The guards
of the resolution — the number of steps, the aliases that are being resolved, the
interfaces that have contributed — appear here as arguments of
`Scope.typeWithin`, and later proofs reason about them through the facts of
this module.
-/

namespace CommandSchema

open Syntax

namespace Scope

variable {scope : Scope}

/-! ## Steps from node to node -/

/-- A node stands for whatever another node stands for: an annotation, a
parenthesis or `readonly` for its first named child, a reference for the first
declaration of its name, and an alias for its value.  A name of the 32-bit
integer type leads nowhere, unless it has type arguments. -/
inductive Leads (scope : Scope) : Node → Node → Prop
  | wrapper {n inner : Node}
      (kind : n.kind = .annotatedType ∨ n.kind = .parenthesizedType ∨ n.kind = .readonlyType)
      (first : n.firstNamed? = some inner) : Leads scope n inner
  | reference {n declaration : Node}
      (kind : n.kind = .typeIdentifier ∨ n.kind = .nestedTypeIdentifier)
      (other : n.text ∉ scope.int32Names)
      (declared : scope.declaration? n.text = some declaration) : Leads scope n declaration
  | generic {n name declaration : Node} (kind : n.kind = .genericType)
      (named : n.child? .name = some name)
      (declared : scope.declaration? name.text = some declaration) : Leads scope n declaration
  | aliased {n value : Node} (kind : n.kind = .typeAliasDeclaration)
      (valued : n.child? .value = some value) : Leads scope n value

/-- The node that a node stands for, if it stands for one. -/
def target? (scope : Scope) (n : Node) : Option Node :=
  match n.kind with
  | .annotatedType | .parenthesizedType | .readonlyType => n.firstNamed?
  | .typeIdentifier | .nestedTypeIdentifier =>
    if n.text ∈ scope.int32Names then none else scope.declaration? n.text
  | .genericType => (n.child? .name).bind fun name => scope.declaration? name.text
  | .typeAliasDeclaration => n.child? .value
  | _ => none

/-- A node stands for the one that it leads to. -/
theorem target?_eq_some_iff {n m : Node} : scope.target? n = some m ↔ scope.Leads n m := by
  constructor
  · intro h
    unfold target? at h
    split at h
    case h_1 kind | h_2 kind | h_3 kind => exact .wrapper (by simp [kind]) h
    case h_4 kind | h_5 kind =>
      split at h
      · cases h
      · next other => exact .reference (by simp [kind]) other h
    case h_6 kind =>
      obtain ⟨name, named, declared⟩ := Option.bind_eq_some_iff.mp h
      exact .generic kind named declared
    case h_7 kind => exact .aliased kind h
    case h_8 => cases h
  · intro h
    cases h with
    | wrapper kind first => rcases kind with kind | kind | kind <;> simp only [target?, kind, first]
    | reference kind other declared =>
        rcases kind with kind | kind <;> simp only [target?, kind, other, declared, if_false]
    | generic kind named declared => simp only [target?, kind, named, Option.bind_some, declared]
    | aliased kind valued => simp only [target?, kind, valued]

/-- The aliases that are being resolved behind a node. -/
def entered (path : List Node) (n : Node) : List Node :=
  if n.kind = .typeAliasDeclaration then n :: path else path

/-- The aliases behind a node are those before it, and perhaps the node. -/
theorem mem_entered {path : List Node} {n a : Node} (h : a ∈ entered path n) :
    a = n ∨ a ∈ path := by
  unfold entered at h
  split at h
  · exact List.mem_cons.mp h
  · exact .inr h

/-! ## One step of resolution

Resolution opens an interface, joins a union, goes on to the node that a node
stands for, or ends with the type that a node has by its own form.  An alias
that is being resolved already ends with its text. -/

/-- The type of a node that stands for no other, by its own form. -/
def ownType (scope : Scope) (n : Node) : ResolvedType :=
  match n.kind with
  | .annotatedType | .parenthesizedType | .readonlyType | .typeAliasDeclaration => .any
  | .predefinedType => .ofWord n.text
  | .literalType => literalType n
  | .typeIdentifier | .nestedTypeIdentifier =>
    if n.text ∈ scope.int32Names then .int32 else .unresolved n.text
  | .genericType => .unresolved n.text
  | .objectType => .object n.text [[n]]
  | .functionType => .function n
  | _ => .other n.text

theorem resolveWithin_zero (path : List Node) (n : Node) :
    scope.resolveWithin 0 path n = pure (.other n.text) := by
  rw [resolveWithin]

/-- An interface has the levels of all interfaces with its name. -/
theorem resolveWithin_interface {n : Node} (kind : n.kind = .interfaceDeclaration) (steps : Nat)
    (path : List Node) :
    scope.resolveWithin (steps + 1) path n =
      ResolvedType.object (declaredName n) <$>
        scope.interfaceLevels steps path (declaredName n) := by
  simp only [resolveWithin, kind]
  rfl

/-- A union joins the variants of its named children. -/
theorem resolveWithin_union {n : Node} (kind : n.kind = .unionType) (steps : Nat)
    (path : List Node) :
    scope.resolveWithin (steps + 1) path n =
      (fun types => .union (types.flatMap ResolvedType.variants)) <$>
        n.namedChildren.mapM (scope.resolveWithin steps path) := by
  simp only [resolveWithin, kind]
  rfl

/-- An alias that is being resolved stands for its text. -/
theorem resolveWithin_of_mem_path {n : Node} (kind : n.kind = .typeAliasDeclaration) (steps : Nat)
    {path : List Node} (hpath : n ∈ path) :
    scope.resolveWithin (steps + 1) path n = pure (.other n.text) := by
  simp only [resolveWithin, kind, hpath, if_true]

/-- A node that stands for no other has the type of its own form. -/
theorem resolveWithin_of_target?_eq_none {n : Node} (h : scope.target? n = none)
    (hinterface : n.kind ≠ .interfaceDeclaration) (hunion : n.kind ≠ .unionType) (steps : Nat)
    {path : List Node} (hpath : n.kind = .typeAliasDeclaration → n ∉ path) :
    scope.resolveWithin (steps + 1) path n = pure (scope.ownType n) := by
  rw [target?] at h
  rw [resolveWithin]
  split
  case h_1 kind => exact absurd kind hinterface
  case h_2 kind =>
    simp only [kind] at h
    simp only [ownType, kind, hpath kind, h, if_false]
  case h_3 kind | h_4 kind | h_5 kind | h_10 kind =>
    simp only [kind] at h
    simp only [ownType, kind, h]
  case h_8 kind | h_9 kind =>
    simp only [kind, ite_eq_left_iff] at h
    simp only [ownType, kind]
    split
    · rfl
    · next other => rw [h other]
  case h_6 kind | h_7 kind | h_11 kind | h_12 kind => simp only [ownType, kind]
  case h_13 kind => exact absurd kind hunion
  case h_14 =>
    rw [ownType]
    split <;> first | contradiction | rfl

theorem resolveWithin_comment {c : Node} (h : c.isComment = true) (steps : Nat)
    (path : List Node) : scope.resolveWithin steps path c = pure (.other c.text) := by
  have kind : c.kind = .comment := by simpa [Node.isComment] using h
  cases steps with
  | zero => exact resolveWithin_zero path c
  | succ steps => simp only [resolveWithin, kind]

/-- A step of resolution, from a node that is no alias being resolved
already. -/
theorem resolveWithin_of_leads {n m : Node} (h : scope.Leads n m) (steps : Nat)
    {path : List Node} (hpath : n.kind = .typeAliasDeclaration → n ∉ path) :
    resolveWithin scope (steps + 1) path n = resolveWithin scope steps (entered path n) m := by
  cases h with
  | wrapper kind first =>
      rcases kind with kind | kind | kind <;>
        simp only [resolveWithin, kind, first, entered, reduceCtorEq, if_false]
  | reference kind other declared =>
      rcases kind with kind | kind <;>
        simp only [resolveWithin, kind, other, declared, entered, reduceCtorEq, if_false]
  | generic kind named declared =>
      simp only [resolveWithin, kind, named, Option.bind_some, declared, entered, reduceCtorEq,
        if_false]
  | aliased kind valued =>
      simp only [resolveWithin, kind, hpath kind, valued, entered, if_false, if_true]

/-! ## First declarations -/

/-- A node is what its name means: the first declaration of it. -/
def First (scope : Scope) (d : Node) : Prop := scope.declaration? (declaredName d) = some d

/-- A declaration that is found by its name is the first one. -/
theorem first_of_declaration? {name : String} {d : Node} (h : scope.declaration? name = some d) :
    scope.First d := by
  have hname : declaredName d = name := by simpa using List.find?_some h
  rw [First, hname, h]

/-- Among first declarations a node is known by its name. -/
theorem First.eq_iff {m n : Node} (hm : scope.First m) (hn : scope.First n) :
    m = n ↔ declaredName m = declaredName n := by
  constructor
  · exact congrArg declaredName
  · intro hname
    have hsame : some m = some n := by rw [← hm, hname, hn]
    exact Option.some.inj hsame

/-! ## Literals -/

/-- The type of a literal is that of one string, that of one truth value, or
its text. -/
theorem literalType_cases (n : Node) :
    (∃ value, literalType n = .stringLiteral value) ∨
      (∃ value, literalType n = .booleanLiteral value) ∨ literalType n = .other n.text := by
  unfold literalType
  split
  · split
    · exact .inl ⟨_, rfl⟩
    · split
      · exact .inr (.inl ⟨true, rfl⟩)
      · split
        · exact .inr (.inl ⟨false, rfl⟩)
        · exact .inr (.inr rfl)
  · exact .inr (.inr rfl)

/-! ## The type within a number of steps -/

/-- The type of a node within a number of steps, while the aliases of `path`
are being resolved and the interfaces of `seen` have contributed. -/
def typeWithin (scope : Scope) (steps : Nat) (path : List Node) (n : Node)
    (seen : List String) : ResolvedType :=
  ((scope.resolveWithin steps path n).run seen).1

/-- The type of a node starts with nothing entered. -/
theorem resolve_eq_typeWithin (n : Node) :
    scope.resolve n = scope.typeWithin (maxDepth + 1) [] n [] := rfl

theorem typeWithin_zero (path : List Node) (n : Node) (seen : List String) :
    scope.typeWithin 0 path n seen = .other n.text := by
  rw [typeWithin, resolveWithin_zero]
  rfl

theorem typeWithin_of_leads {n m : Node} (h : scope.Leads n m) (steps : Nat)
    {path : List Node} (hpath : n.kind = .typeAliasDeclaration → n ∉ path) (seen : List String) :
    scope.typeWithin (steps + 1) path n seen =
      scope.typeWithin steps (entered path n) m seen := by
  rw [typeWithin, resolveWithin_of_leads h steps hpath]
  rfl

/-- The type of a union joins the types of its named children. -/
theorem typeWithin_union (scope : Scope) {n : Node} (kind : n.kind = .unionType) (steps : Nat)
    (path : List Node) (seen : List String) :
    ∃ types, scope.typeWithin (steps + 1) path n seen =
        .union (types.flatMap ResolvedType.variants) ∧
      List.Forall₂ (fun m t => ∃ seen', scope.typeWithin steps path m seen' = t)
        n.namedChildren types := by
  refine ⟨_, ?_, forall₂_run_mapM (scope.resolveWithin steps path) n.namedChildren seen⟩
  rw [typeWithin, resolveWithin_union kind]
  rfl

/-- The type of a name of the 32-bit integer type. -/
theorem typeWithin_int32Name {n : Node}
    (kind : n.kind = .typeIdentifier ∨ n.kind = .nestedTypeIdentifier)
    (named : n.text ∈ scope.int32Names) (steps : Nat) (path : List Node) (seen : List String) :
    scope.typeWithin (steps + 1) path n seen = .int32 := by
  rcases kind with kind | kind <;>
    · rw [typeWithin]
      simp only [resolveWithin, kind, named, if_true]
      rfl

theorem typeWithin_predefined {n : Node} (kind : n.kind = .predefinedType) (steps : Nat)
    (path : List Node) (seen : List String) :
    scope.typeWithin (steps + 1) path n seen = .ofWord n.text := by
  rw [typeWithin]
  simp only [resolveWithin, kind]
  rfl

theorem typeWithin_literal {n : Node} (kind : n.kind = .literalType) (steps : Nat)
    (path : List Node) (seen : List String) :
    scope.typeWithin (steps + 1) path n seen = literalType n := by
  rw [typeWithin]
  simp only [resolveWithin, kind]
  rfl

/-! ## Chains of steps -/

/-- A number of steps leads from the first node to the second one. -/
inductive LeadsIn (scope : Scope) : Nat → Node → Node → Prop
  | refl (n : Node) : LeadsIn scope 0 n n
  | step {k : Nat} {n m last : Node} (leads : scope.Leads n m) (rest : LeadsIn scope k m last) :
      LeadsIn scope (k + 1) n last

/-- Every node is as many steps away from a last node as it is. -/
theorem LeadsIn.steps_eq {j k : Nat} {n last last' : Node} (h : scope.LeadsIn j n last)
    (h' : scope.LeadsIn k n last') (hlast : scope.target? last = none)
    (hlast' : scope.target? last' = none) : j = k := by
  induction h generalizing k with
  | refl n =>
      cases h' with
      | refl => rfl
      | step leads => rw [target?_eq_some_iff.mpr leads] at hlast; cases hlast
  | step leads _ ih =>
      cases h' with
      | refl => rw [target?_eq_some_iff.mpr leads] at hlast'; cases hlast'
      | step leads' rest' =>
          have hsame := (target?_eq_some_iff.mpr leads).symm.trans (target?_eq_some_iff.mpr leads')
          cases hsame
          rw [ih rest' hlast]

/-- A node has the type of the last node that it leads to, when the aliases that
are being resolved lead there in more steps. -/
theorem typeWithin_of_leadsIn {k steps : Nat} {path : List Node} {n last : Node}
    (h : scope.LeadsIn k n last) (hlast : scope.target? last = none)
    (hpath : ∀ a ∈ path, ∃ j, k < j ∧ scope.LeadsIn j a last) (hsteps : k ≤ steps)
    (seen : List String) :
    ∃ path', scope.typeWithin steps path n seen =
      scope.typeWithin (steps - k) path' last seen := by
  induction h generalizing steps path with
  | refl n => exact ⟨path, rfl⟩
  | @step k n m last leads rest ih =>
      obtain ⟨steps, rfl⟩ : ∃ i, steps = i + 1 := ⟨steps - 1, by omega⟩
      have hn : n ∉ path := by
        intro hmem
        obtain ⟨j, hlt, hleads⟩ := hpath n hmem
        exact absurd (hleads.steps_eq (.step leads rest) hlast hlast) (by omega)
      have hentered : ∀ a ∈ entered path n, ∃ j, k < j ∧ scope.LeadsIn j a last := by
        intro a ha
        rcases mem_entered ha with rfl | ha
        · exact ⟨k + 1, by omega, .step leads rest⟩
        · obtain ⟨j, hlt, hleads⟩ := hpath a ha
          exact ⟨j, by omega, hleads⟩
      have hle : k ≤ steps := by omega
      obtain ⟨path', hrest⟩ := ih hlast hentered hle
      refine ⟨path', ?_⟩
      rw [typeWithin_of_leads leads steps (fun _ => hn), hrest, Nat.add_sub_add_right]

end Scope

end CommandSchema
