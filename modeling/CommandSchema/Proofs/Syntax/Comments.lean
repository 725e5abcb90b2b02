import CommandSchema.Proofs.Syntax.Preorder
import CommandSchema.Proofs.Traversal
import CommandSchema.Syntax.StringLiteral
import Mathlib.Tactic.MkIffOfInductiveProp

/-!
# CommandSchema.Proofs.Syntax.Comments

Trees with comments in them, and the trees without.

`Node.Inserted P n n'` says that the second tree is the first one with comments
inserted, anywhere and in any number.  Positions change with that, and so do the
texts of the nodes around a comment, but no others.  `P` holds of every node
and the one that it has become, so what is known of single nodes
(`Node.Grammatical`) can be carried along.

A search for a child with a role, or with a property that comments do not have,
leads to nodes that correspond (`Inserted.child?`, `Inserted.find?_named`,
`Inserted.filter_named`).  The first of the named children and the list of all
of them do so only where no comment is in the way (`Inserted.firstNamed?`,
`Inserted.namedChildren_of_code`).
-/

namespace CommandSchema.Syntax

/-! ## The grammar -/

/-- The kinds of nodes without white space in them. -/
def Kind.isToken : Kind → Bool
  | .identifier | .typeIdentifier | .stringLiteral => true
  | _ => false

/-- The kinds of references to named types. -/
def Kind.isReference : Kind → Bool
  | .typeIdentifier | .nestedTypeIdentifier | .genericType => true
  | _ => false

/-- The kinds of types and annotations that are read through to the types in
them. -/
def Kind.wrapsType : Kind → Bool
  | .annotatedType | .parenthesizedType | .readonlyType | .unionType => true
  | _ => false

namespace Node

/-- Whether a comment stands in the node, at any depth. -/
def holdsComment (n : Node) : Bool := n.preorder.any isComment

/-- The children that are no comments. -/
def code (n : Node) : List Node := n.children.filter (!·.isComment)

/-- What the grammar says about a node and its children: what comments are, where
none can stand, how names begin, and where references and alias declarations
stand.

A computed name begins with a bracket, and the only word of the language with
white space in it is `unique symbol`. -/
@[mk_iff]
structure Grammatical (n : Node) : Prop where
  leaves : n.isComment = true → n.children = []
  comments : ∀ c ∈ n.children, c.isComment = true →
    c.role = none ∧ c.text.toList.head? = some '/'
  tokens : n.kind.isToken = true → n.holdsComment = false
  literals : n.kind = .literalType → ∀ c ∈ n.firstNamed?, c.isComment = false
  names : ∀ c ∈ n.children, c.role = some .name → c.text.toList.head? ≠ some '/'
  keys : ∀ c ∈ n.children, c.role = some .key → c.kind = .computedName ∨ c.holdsComment = false
  computed : n.kind = .computedName → n.text.toList.head? = some '['
  words : n.kind = .predefinedType → n.holdsComment = false ∨ n.text.toList.head? = some 'u'
  generics : n.kind = .genericType → (n.child? .name).isSome = true
  bases : n.kind = .extendsTypeClause →
    ∀ c ∈ n.children, c.isComment = true ∨ c.kind.isReference = true
  aliases : ∀ c ∈ n.children, c.kind = .typeAliasDeclaration →
    c.role = none ∧ n.kind.wrapsType = false

instance (n : Node) : Decidable n.Grammatical := decidable_of_iff' _ n.grammatical_iff

theorem kind_of_isComment {n : Node} (h : n.isComment = true) : n.kind = .comment := by
  simpa [isComment] using h

/-- A node without comments in it is none, and has none in its children. -/
theorem holdsComment_eq_false_iff {n : Node} :
    n.holdsComment = false ↔ n.isComment = false ∧ ∀ c ∈ n.children, c.holdsComment = false := by
  obtain ⟨kind, role, text, start, children⟩ := n
  simp [holdsComment, preorder, preorderAll_eq_flatMap, List.any_flatMap]

theorem isComment_eq_of_kind {n n' : Node} (h : n'.kind = n.kind) :
    n'.isComment = n.isComment := by
  simp [isComment, h]

/-- The names of a node are those of its code, since comments play no part. -/
theorem child?_eq_find?_code {n : Node} (h : n.Grammatical) (role : Role) :
    n.child? role = n.code.find? (·.role = some role) := by
  have hsame : ∀ c ∈ n.children, decide (c.role = some role) =
      decide ((!c.isComment) = true ∧ decide (c.role = some role) = true) := by
    intro c hc
    cases hcomment : c.isComment with
    | false => simp
    | true => simp [(h.comments c hc hcomment).1]
  rw [child?, code, List.find?_filter]
  clear h
  generalize n.children = children at hsame
  induction children with
  | nil => rfl
  | cons c cs ih =>
      rw [List.find?_cons, List.find?_cons, ← hsame c (by simp),
        ih fun d hd => hsame d (by simp [hd])]

/-! ## Insertion of comments -/

/-- The second tree is the first one with comments inserted, and the given
property holds of every node of the first tree and what it has become. -/
inductive Inserted (P : Node → Node → Prop) : Node → Node → Prop
  | mk {n n' : Node} (kind : n'.kind = n.kind) (role : n'.role = n.role)
      (text : n'.holdsComment = false → n'.text = n.text)
      (lead : n.kind ≠ .program → n'.text.toList.head? = n.text.toList.head?)
      (code : List.Forall₂ (Inserted P) n.children n'.code) (pair : P n n') : Inserted P n n'

namespace Inserted

variable {P : Node → Node → Prop} {n n' : Node}

theorem kind_eq (h : Inserted P n n') : n'.kind = n.kind := by
  cases h
  assumption

theorem role_eq (h : Inserted P n n') : n'.role = n.role := by
  cases h
  assumption

theorem text_eq (h : Inserted P n n') (hnone : n'.holdsComment = false) : n'.text = n.text := by
  cases h with
  | mk _ _ text => exact text hnone

theorem head?_text_eq (h : Inserted P n n') (hkind : n.kind ≠ .program) :
    n'.text.toList.head? = n.text.toList.head? := by
  cases h with
  | mk _ _ _ lead => exact lead hkind

theorem children (h : Inserted P n n') : List.Forall₂ (Inserted P) n.children n'.code := by
  cases h
  assumption

theorem pair (h : Inserted P n n') : P n n' := by
  cases h
  assumption

/-- What follows for the nodes of the second tree can be carried along. -/
theorem imp {Q : Node → Node → Prop} {n n' : Node} (h : Inserted P n n')
    (hQ : ∀ m, ∀ m' ∈ n'.preorder, P m m' → Q m m') : Inserted Q n n' := by
  refine ⟨h.kind_eq, h.role_eq, h.text_eq, h.head?_text_eq,
    forall₂_imp_of_mem h.children fun c hc c' hc' hchild => ?_,
    hQ n n' (self_mem_preorder n') h.pair⟩
  have hchild' : c' ∈ n'.children := (List.mem_filter.mp hc').1
  exact hchild.imp fun m m' hm' => hQ m m' (mem_preorder_of_mem_children hchild' hm')
termination_by sizeOf n
decreasing_by exact sizeOf_lt_of_mem_children hc

theorem child? (h : Inserted P n n') (hlaw : n'.Grammatical) (role : Role) :
    Option.Rel (Inserted P) (n.child? role) (n'.child? role) := by
  rw [child?_eq_find?_code hlaw]
  exact rel_find? h.children fun c c' hc => by rw [hc.role_eq]

/-- The named children correspond to those that are no comments. -/
theorem namedChildren (h : Inserted P n n') :
    List.Forall₂ (Inserted P) n.namedChildren (n'.namedChildren.filter (!·.isComment)) := by
  have hcomm : n'.namedChildren.filter (!·.isComment) = n'.code.filter isNamed := by
    rw [Node.namedChildren, code, List.filter_filter, List.filter_filter]
    simp only [Bool.and_comm]
  rw [hcomm, Node.namedChildren]
  refine List.rel_filter (fun {c c'} hc => ?_) h.children
  simp only [isNamed, hc.kind_eq]

/-- Where no comment comes first, the first named children correspond. -/
theorem firstNamed? (h : Inserted P n n') (hfirst : ∀ c ∈ n'.firstNamed?, c.isComment = false) :
    Option.Rel (Inserted P) n.firstNamed? n'.firstNamed? := by
  have hnamed := h.namedChildren
  rw [Node.firstNamed?] at hfirst
  rw [Node.firstNamed?, Node.firstNamed?]
  cases hnamed' : n'.namedChildren with
  | nil =>
      rw [hnamed', List.filter_nil, List.forall₂_nil_right_iff] at hnamed
      rw [hnamed]
      exact .none
  | cons c' cs' =>
      have hc' : c'.isComment = false := hfirst c' (by simp [hnamed'])
      rw [hnamed', List.filter_cons_of_pos (by simp [hc'])] at hnamed
      obtain ⟨c, cs, hc, -, hcons⟩ := List.forall₂_cons_right_iff.mp hnamed
      rw [hcons]
      exact .some hc

/-- Where there are no comments, all named children correspond. -/
theorem namedChildren_of_code (h : Inserted P n n')
    (hcode : ∀ c ∈ n'.namedChildren, c.isComment = false) :
    List.Forall₂ (Inserted P) n.namedChildren n'.namedChildren := by
  have hnamed := h.namedChildren
  rwa [List.filter_eq_self.mpr fun c hc => by simp [hcode c hc]] at hnamed

section Search

variable {p : Node → Bool} (hcomment : ∀ c : Node, c.isComment = true → p c = false)
  (hp : ∀ c c', Inserted P c c' → p c = p c')

include hcomment hp

/-- Searches for what is no comment lead to named children that correspond. -/
theorem find?_named (h : Inserted P n n') :
    Option.Rel (Inserted P) (n.namedChildren.find? p) (n'.namedChildren.find? p) := by
  have hsame : n'.namedChildren.find? p = (n'.namedChildren.filter (!·.isComment)).find? p := by
    rw [List.find?_filter]
    congr 1
    funext c
    cases hc : c.isComment with
    | false => simp
    | true => simp [hcomment c hc]
  rw [hsame]
  exact rel_find? h.namedChildren hp

/-- The named children with a property that comments do not have correspond. -/
theorem filter_named (h : Inserted P n n') :
    List.Forall₂ (Inserted P) (n.namedChildren.filter p) (n'.namedChildren.filter p) := by
  have hsame : n'.namedChildren.filter p =
      (n'.namedChildren.filter (!·.isComment)).filter p := by
    rw [List.filter_filter]
    congr 1
    funext c
    cases hc : c.isComment with
    | false => simp
    | true => simp [hcomment c hc]
  rw [hsame]
  exact List.rel_filter (fun {c c'} hc => by simp only [hp c c' hc]) h.namedChildren

/-- The nodes of the trees with a property that comments do not have correspond,
in order. -/
theorem filter_preorder {n n' : Node} (h : Inserted P n n')
    (hlaw : ∀ m ∈ n'.preorder, m.Grammatical) :
    List.Forall₂ (Inserted P) (n.preorder.filter p) (n'.preorder.filter p) := by
  have hchildren : List.Forall₂ (fun c c' => List.Forall₂ (Inserted P) (c.preorder.filter p)
      (c'.preorder.filter p)) n.children n'.code := by
    refine forall₂_imp_of_mem h.children fun c hc c' hc' hchild => ?_
    have hchild' : c' ∈ n'.children := (List.mem_filter.mp hc').1
    exact hchild.filter_preorder fun m hm => hlaw m (mem_preorder_of_mem_children hchild' hm)
  -- nothing with the property stands in a comment
  have hskip : ∀ c ∈ n'.children, (!c.isComment) = false → c.preorder.filter p = [] := by
    intro c hc hkind
    have hkind : c.isComment = true := by simpa using hkind
    have hleaf : c.children = [] :=
      (hlaw c (mem_preorder_of_mem_children hc (self_mem_preorder c))).leaves hkind
    simp [preorder_eq, hleaf, hcomment c hkind]
  have hbelow : List.Forall₂ (Inserted P) (n.children.flatMap fun c => c.preorder.filter p)
      (n'.children.flatMap fun c => c.preorder.filter p) := by
    rw [← flatMap_filter_of_eq_nil hskip]
    exact List.rel_flatMap hchildren fun {c c'} hc => hc
  rw [preorder_eq n, preorder_eq n', List.filter_cons, List.filter_cons, hp n n' h,
    List.filter_flatMap, List.filter_flatMap]
  split
  · exact .cons h hbelow
  · exact hbelow
termination_by sizeOf n
decreasing_by exact sizeOf_lt_of_mem_children hc

end Search

/-- A string without comments in it keeps its value. -/
theorem stringValue_eq (h : Inserted P n n') (hnone : n'.holdsComment = false) :
    n'.stringValue = n.stringValue := by
  have hchildren := (holdsComment_eq_false_iff.mp hnone).2
  have hinside : ∀ c ∈ n'.namedChildren, c.holdsComment = false := fun c hc =>
    hchildren c (mem_children_of_mem_namedChildren hc)
  have hnamed := h.namedChildren_of_code fun c hc =>
    (holdsComment_eq_false_iff.mp (hinside c hc)).1
  have hvalues : List.Forall₂ (· = ·) (n.namedChildren.map pieceValue)
      (n'.namedChildren.map pieceValue) := by
    rw [List.forall₂_map_left_iff, List.forall₂_map_right_iff]
    refine forall₂_imp_of_mem hnamed fun c _ c' hc' hpiece => ?_
    rw [pieceValue, pieceValue, hpiece.kind_eq, hpiece.text_eq (hinside c' hc')]
  rw [List.forall₂_eq_eq_eq] at hvalues
  rw [stringValue, stringValue, hvalues]

end Inserted

end Node

end CommandSchema.Syntax
