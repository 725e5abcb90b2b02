import CommandSchema.Typing.Scope

/-!
# CommandSchema.Proofs.Syntax.Preorder

The nodes of a tree.

A node stands in the preorder of a tree together with everything below it, and
so do the declarations that the scope of the tree holds.

The analyses of types rely on two laws of the grammar: a union has a named child
(`Node.NoEmptyUnion`), and type declarations stand among statements only
(`Node.DeclaresInStatements`).  Every parsed file obeys them
(`SourceFile.noEmptyUnion_root`, `SourceFile.declaresInStatements_root`).
-/

namespace CommandSchema

open Syntax

namespace Syntax.Node

theorem self_mem_preorder (n : Node) : n ∈ n.preorder := by
  cases n
  simp [preorder]

theorem preorder_eq (n : Node) : n.preorder = n :: n.children.flatMap preorder := by
  cases n
  rw [preorder, preorderAll_eq_flatMap]

theorem mem_preorder_iff {n m : Node} :
    m ∈ n.preorder ↔ m = n ∨ ∃ child ∈ n.children, m ∈ child.preorder := by
  simp [preorder_eq n]

theorem mem_preorder_of_mem_children {n child m : Node} (hchild : child ∈ n.children)
    (hm : m ∈ child.preorder) : m ∈ n.preorder :=
  mem_preorder_iff.mpr (.inr ⟨child, hchild, hm⟩)

theorem sizeOf_lt_of_mem_children {n child : Node} (h : child ∈ n.children) :
    sizeOf child < sizeOf n := by
  obtain ⟨kind, role, text, start, children⟩ := n
  have hlt : sizeOf child < sizeOf children := List.sizeOf_lt_of_mem h
  simp only [mk.sizeOf_spec]
  omega

/-- What stands below a node of a tree stands in the tree. -/
theorem preorder_trans {n m l : Node} (hm : m ∈ n.preorder) (hl : l ∈ m.preorder) :
    l ∈ n.preorder := by
  rcases mem_preorder_iff.mp hm with rfl | ⟨child, hchild, hm⟩
  · exact hl
  · exact mem_preorder_of_mem_children hchild (preorder_trans hm hl)
termination_by sizeOf n
decreasing_by exact sizeOf_lt_of_mem_children hchild

theorem mem_children_of_mem_namedChildren {n m : Node} (h : m ∈ n.namedChildren) :
    m ∈ n.children :=
  (List.mem_filter.mp h).1

theorem mem_children_of_firstNamed? {n m : Node} (h : n.firstNamed? = some m) :
    m ∈ n.children :=
  mem_children_of_mem_namedChildren (List.mem_of_mem_head? h)

theorem mem_children_of_child? {n m : Node} {role : Role} (h : n.child? role = some m) :
    m ∈ n.children :=
  List.mem_of_find?_eq_some h

theorem role_of_child? {n m : Node} {role : Role} (h : n.child? role = some m) :
    m.role = some role := by
  simpa using List.find?_some h

/-! ### Unions -/

/-- Every union of the tree joins something: it has a named child. -/
def NoEmptyUnion (n : Node) : Prop :=
  ∀ m ∈ n.preorder, m.kind = .unionType → m.namedChildren ≠ []

/-- The law holds of a node when it holds of its children, and the node itself
is no empty union. -/
theorem noEmptyUnion_iff {n : Node} : n.NoEmptyUnion ↔
    (n.kind = .unionType → n.namedChildren ≠ []) ∧ ∀ child ∈ n.children, child.NoEmptyUnion := by
  constructor
  · intro h
    refine ⟨h n (self_mem_preorder n), fun child hchild m hm => h m ?_⟩
    exact mem_preorder_of_mem_children hchild hm
  · rintro ⟨hown, hchildren⟩ m hm
    rcases mem_preorder_iff.mp hm with rfl | ⟨child, hchild, hm⟩
    · exact hown
    · exact hchildren child hchild m hm

instance (n : Node) : Decidable n.NoEmptyUnion :=
  inferInstanceAs (Decidable (∀ m ∈ n.preorder, m.kind = .unionType → m.namedChildren ≠ []))

theorem NoEmptyUnion.of_mem {n m : Node} (h : n.NoEmptyUnion) (hm : m ∈ n.preorder) :
    m.NoEmptyUnion :=
  fun l hl => h l (preorder_trans hm hl)

theorem NoEmptyUnion.of_mem_children {n m : Node} (h : n.NoEmptyUnion) (hm : m ∈ n.children) :
    m.NoEmptyUnion :=
  h.of_mem (mem_preorder_of_mem_children hm (self_mem_preorder m))

end Syntax.Node

/-! ### Declarations -/

namespace Syntax

/-- The kinds of type declarations. -/
@[reducible]
def Kind.declaresType : Kind → Bool
  | .interfaceDeclaration | .typeAliasDeclaration => true
  | _ => false

/-- The kinds of nodes that statements stand in. -/
@[reducible]
def Kind.holdsStatements : Kind → Bool
  | .program | .exportStatement | .ambientDeclaration | .otherStatement => true
  | _ => false

namespace Node

/-- Type declarations stand among statements only, in the whole tree. -/
def DeclaresInStatements (n : Node) : Prop :=
  ∀ m ∈ n.preorder, ∀ c ∈ m.children, c.kind.declaresType = true → m.kind.holdsStatements = true

instance (n : Node) : Decidable n.DeclaresInStatements :=
  inferInstanceAs (Decidable (∀ m ∈ n.preorder, ∀ c ∈ m.children,
    c.kind.declaresType = true → m.kind.holdsStatements = true))

/-- The law holds of a node when it holds of its children, and the node itself
has no type declarations in it unless it holds statements. -/
theorem declaresInStatements_iff {n : Node} : n.DeclaresInStatements ↔
    (∀ c ∈ n.children, c.kind.declaresType = true → n.kind.holdsStatements = true) ∧
      ∀ c ∈ n.children, c.DeclaresInStatements := by
  constructor
  · intro h
    exact ⟨h n (self_mem_preorder n), fun c hc m hm => h m (mem_preorder_of_mem_children hc hm)⟩
  · rintro ⟨hown, hchildren⟩ m hm
    rcases mem_preorder_iff.mp hm with rfl | ⟨c, hc, hm⟩
    · exact hown
    · exact hchildren c hc m hm

theorem DeclaresInStatements.of_mem {n m : Node} (h : n.DeclaresInStatements)
    (hm : m ∈ n.preorder) : m.DeclaresInStatements :=
  fun l hl => h l (preorder_trans hm hl)

/-- What stands in a node that holds no statements is no type declaration. -/
theorem DeclaresInStatements.declaresType_eq_false {n c : Node} (h : n.DeclaresInStatements)
    (hkind : n.kind.holdsStatements = false) (hc : c ∈ n.children) :
    c.kind.declaresType = false := by
  have hown := h n (self_mem_preorder n) c hc
  cases hdeclares : c.kind.declaresType with
  | false => rfl
  | true => simp [hown hdeclares] at hkind

end Node

end Syntax

namespace Scope

open Syntax.Node

theorem declarationsOfAll_eq_flatMap (ns : List Node) :
    declarationsOfAll ns = ns.flatMap declarationsOf := by
  induction ns with
  | nil => rfl
  | cons n ns ih => rw [declarationsOfAll, ih, List.flatMap_cons]

/-- The declarations of a statement: itself, or those inside it. -/
theorem declarationsOf_eq (n : Node) : declarationsOf n =
    if n.kind = .interfaceDeclaration ∨ n.kind = .typeAliasDeclaration then
      if isTypeDeclaration n then [n] else []
    else if isTransparent n then n.children.flatMap declarationsOf
    else [] := by
  cases n
  rw [declarationsOf, declarationsOfAll_eq_flatMap]

mutual

/-- The declarations of a statement are nodes of it. -/
theorem declarationsOf_subset_preorder : (n : Node) → ∀ d ∈ declarationsOf n, d ∈ n.preorder
  | ⟨kind, role, text, start, children⟩, d, hd => by
      simp only [declarationsOf] at hd
      split at hd
      · split at hd
        · rw [List.mem_singleton.mp hd]
          exact self_mem_preorder _
        · simp at hd
      · split at hd
        · obtain ⟨child, hchild, hd⟩ := declarationsOfAll_subset_preorder children d hd
          exact mem_preorder_of_mem_children hchild hd
        · simp at hd

/-- The declarations of several statements are nodes of them. -/
theorem declarationsOfAll_subset_preorder : (ns : List Node) → ∀ d ∈ declarationsOfAll ns,
    ∃ n ∈ ns, d ∈ n.preorder
  | [], d, hd => by simp [declarationsOfAll] at hd
  | n :: ns, d, hd => by
      rw [declarationsOfAll, List.mem_append] at hd
      rcases hd with hd | hd
      · exact ⟨n, by simp, declarationsOf_subset_preorder n d hd⟩
      · obtain ⟨m, hm, hd⟩ := declarationsOfAll_subset_preorder ns d hd
        exact ⟨m, by simp [hm], hd⟩

end

theorem mem_preorder_of_mem_declarations {root d : Node} {int32Names : List String}
    (hd : d ∈ (ofTree root int32Names).declarations) : d ∈ root.preorder := by
  obtain ⟨n, hn, hd⟩ := declarationsOfAll_subset_preorder root.children d hd
  exact mem_preorder_of_mem_children hn hd

theorem mem_declarations_of_declaration? {scope : Scope} {name : String} {d : Node}
    (h : scope.declaration? name = some d) : d ∈ scope.declarations :=
  List.mem_of_find?_eq_some h

end Scope

end CommandSchema
