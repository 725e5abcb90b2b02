import CommandSchema.Proofs.Typing.Copies

/-!
# CommandSchema.Proofs.Typing.Mentions

The names that a declaration mentions, and those that are reached by them.

A name is mentioned by a reference to a type, with or without type arguments,
and by an `extends` clause (`Node.mentions`).  `Scope.Reaches` follows mentions
from declaration to declaration.  A node that mentions none but given names, and
that declares types among statements only, refers within these names
(`Node.RefersWithin`); so does everything in it.
-/

namespace CommandSchema

open Syntax

namespace Syntax.Node

/-! ## Mentions -/

/-- The names by which the node itself refers to types.  The types in an
`extends` clause count by the names under which they are looked up; a comment
there is looked up by its text. -/
def mentioned (n : Node) : List String :=
  match n.kind with
  | .typeIdentifier | .nestedTypeIdentifier => [n.text]
  | .genericType => ((n.child? .name).map Node.text).toList
  | .extendsTypeClause => n.namedChildren.map Scope.baseName
  | _ => []

/-- The names by which the node, or anything inside it, refers to types. -/
def mentions (n : Node) : List String := n.preorder.flatMap mentioned

theorem mem_mentions_self {n : Node} {name : String} (h : name ∈ n.mentioned) :
    name ∈ n.mentions :=
  List.mem_flatMap.mpr ⟨n, self_mem_preorder n, h⟩

theorem mentions_subset {n m : Node} (h : m ∈ n.preorder) : m.mentions ⊆ n.mentions := by
  intro name hname
  obtain ⟨l, hl, hmentioned⟩ := List.mem_flatMap.mp hname
  exact List.mem_flatMap.mpr ⟨l, preorder_trans h hl, hmentioned⟩

theorem mentions_eq_append (n : Node) :
    n.mentions = n.mentioned ++ n.children.flatMap mentions := by
  rw [mentions, preorder_eq, List.flatMap_cons, List.flatMap_assoc]
  rfl

namespace Copying

variable {R : Node → Node → Prop} (h : Copying R)

include h

/-- Related nodes mention the same names themselves. -/
theorem mentioned_eq {n n' : Node} (hn : R n n') : n'.mentioned = n.mentioned := by
  rw [mentioned, mentioned, h.kind hn]
  split
  · rw [h.text hn]
  · rw [h.text hn]
  · rw [h.map_text_child? hn]
  · exact map_eq_of_forall₂ (h.namedChildren hn) fun _ _ hc => h.baseName_eq hc
  · rfl

/-- Related nodes mention the same names. -/
theorem mentions_eq {n n' : Node} (hn : R n n') : n'.mentions = n.mentions := by
  have hchildren : n'.children.map mentions = n.children.map mentions :=
    map_eq_of_forall₂ (R := fun c c' => c'.mentions = c.mentions)
      (forall₂_imp_of_mem (h.children hn) fun c hc c' _ hchild => mentions_eq hchild)
      fun _ _ hc => hc
  rw [mentions_eq_append n, mentions_eq_append n', h.mentioned_eq hn, List.flatMap_def,
    List.flatMap_def, hchildren]
termination_by sizeOf n
decreasing_by exact sizeOf_lt_of_mem_children hc

end Copying

/-- The node declares types among statements only, and mentions none but the
given names. -/
structure RefersWithin (names : String → Prop) (n : Node) : Prop where
  lawful : n.DeclaresInStatements
  mentions : ∀ name ∈ n.mentions, names name

namespace RefersWithin

variable {names : String → Prop} {n c : Node} (h : n.RefersWithin names)

include h

theorem of_mem_children (hc : c ∈ n.children) : c.RefersWithin names := by
  have hmem : c ∈ n.preorder := mem_preorder_of_mem_children hc (self_mem_preorder c)
  exact ⟨h.lawful.of_mem hmem, fun name hname => h.mentions name (mentions_subset hmem hname)⟩

/-- The names that the node itself mentions are among the given ones. -/
theorem mentioned {name : String} (hname : name ∈ n.mentioned) : names name :=
  h.mentions name (mem_mentions_self hname)

end RefersWithin

/-! ## Copies within names -/

/-- Copies of nodes that refer within given names. -/
structure CopyWithin (names : String → Prop) (n n' : Node) : Prop where
  copy : Copy n n'
  within : n.RefersWithin names

/-- Copies within given names have such copies as children. -/
theorem copying_copyWithin (names : String → Prop) : Copying (CopyWithin names) where
  kind h := copying_copy.kind h.copy
  text h := copying_copy.text h.copy
  children h := forall₂_imp_of_mem (copying_copy.children h.copy) fun _ hc _ _ hcopy =>
    ⟨hcopy, h.within.of_mem_children hc⟩
  roles h := copying_copy.roles h.copy

end Syntax.Node

namespace Scope

/-! ## Names that are reached -/

/-- A name is reached from a first one when it is this name, or when a
declaration of a name that is reached mentions it. -/
inductive Reaches (scope : Scope) (first : String) : String → Prop
  | first : Reaches scope first first
  | mention {name other : String} {d : Node} (reached : Reaches scope first name)
      (declared : d ∈ scope.declarationsNamed name) (mentioned : other ∈ d.mentions) :
      Reaches scope first other

theorem declaration?_eq_head? (scope : Scope) (name : String) :
    scope.declaration? name = (scope.declarationsNamed name).head? :=
  List.head?_filter.symm

theorem mem_declarations_of_mem_declarationsNamed {scope : Scope} {name : String} {d : Node}
    (h : d ∈ scope.declarationsNamed name) : d ∈ scope.declarations :=
  (List.mem_filter.mp h).1

theorem mem_preorder_of_mem_declarationsNamed {root d : Node} {int32Names : List String}
    {name : String} (h : d ∈ (ofTree root int32Names).declarationsNamed name) :
    d ∈ root.preorder :=
  mem_preorder_of_mem_declarations (mem_declarations_of_mem_declarationsNamed h)

theorem declaredName_of_mem_declarationsNamed {scope : Scope} {name : String} {d : Node}
    (h : d ∈ scope.declarationsNamed name) : declaredName d = name := by
  simpa using (List.mem_filter.mp h).2

end Scope

end CommandSchema
