import CommandSchema.Proofs.Syntax.Preorder
import CommandSchema.Proofs.Traversal
import CommandSchema.Syntax.StringLiteral

/-!
# CommandSchema.Proofs.Syntax.Copies

Nodes that are the same wherever they stand.

Two nodes are copies of each other when they differ in positions, and in their
own roles, only (`Node.Copy`).  Nothing but the positions in reports and the
identity of declarations depends on where a node stands, so copies are read alike.
That is proved for any relation that holds of corresponding children wherever it
holds of their parents (`Node.Copying`), since relations that say more than `Copy`
are of this kind.
-/

namespace CommandSchema.Syntax

namespace Node

/-! ## Copies -/

mutual

/-- The node with all positions left out. -/
def unplaced : Node → Node
  | ⟨kind, role, text, _, children⟩ => ⟨kind, role, text, default, unplacedAll children⟩

/-- The nodes with all positions left out. -/
def unplacedAll : List Node → List Node
  | [] => []
  | n :: ns => n.unplaced :: unplacedAll ns

end

theorem unplacedAll_eq_map (ns : List Node) : unplacedAll ns = ns.map unplaced := by
  induction ns with
  | nil => rfl
  | cons n ns ih => rw [unplacedAll, ih, List.map_cons]

theorem unplaced_eq (n : Node) :
    n.unplaced = ⟨n.kind, n.role, n.text, default, n.children.map unplaced⟩ := by
  cases n
  rw [unplaced, unplacedAll_eq_map]

/-- Two nodes differ in positions only, and perhaps in the parts that they play in
their parents. -/
def Copy (n n' : Node) : Prop :=
  n.kind = n'.kind ∧ n.text = n'.text ∧ n.children.map unplaced = n'.children.map unplaced

instance (n n' : Node) : Decidable (Copy n n') :=
  inferInstanceAs (Decidable (_ ∧ _ ∧ _))

theorem copy_of_unplaced_eq {n n' : Node} (h : n.unplaced = n'.unplaced) : Copy n n' := by
  rw [unplaced_eq, unplaced_eq, Node.mk.injEq] at h
  exact ⟨h.1, h.2.2.1, h.2.2.2.2⟩

theorem unplaced_unplaced (n : Node) : n.unplaced.unplaced = n.unplaced := by
  rw [unplaced_eq n.unplaced, unplaced_eq n]
  simp only [List.map_map, Node.mk.injEq, true_and, List.map_inj_left, Function.comp_apply]
  exact fun c _ => unplaced_unplaced c
termination_by sizeOf n
decreasing_by exact sizeOf_lt_of_mem_children (by assumption)

theorem copy_unplaced (n : Node) : Copy n n.unplaced :=
  copy_of_unplaced_eq (unplaced_unplaced n).symm

theorem forall₂_copy {ns ns' : List Node} (h : ns.map unplaced = ns'.map unplaced) :
    List.Forall₂ Copy ns ns' := by
  rw [← List.forall₂_eq_eq_eq, List.forall₂_map_left_iff, List.forall₂_map_right_iff] at h
  exact h.imp fun _ _ => copy_of_unplaced_eq

/-! ## Relations that go down -/

/-- A relation between nodes of the same kind and text whose children play the
same parts and are related as well. -/
structure Copying (R : Node → Node → Prop) : Prop where
  kind : ∀ {n n'}, R n n' → n'.kind = n.kind
  text : ∀ {n n'}, R n n' → n'.text = n.text
  children : ∀ {n n'}, R n n' → List.Forall₂ R n.children n'.children
  roles : ∀ {n n'}, R n n' → n'.children.map Node.role = n.children.map Node.role

/-- Copies have copies as children. -/
theorem copying_copy : Copying Copy where
  kind h := h.1.symm
  text h := h.2.1.symm
  children h := forall₂_copy h.2.2
  roles {n n'} h := by
    have hroles (m : Node) :
        m.children.map Node.role = (m.children.map unplaced).map Node.role := by
      simp only [List.map_map, List.map_inj_left, Function.comp_apply, unplaced_eq]
      exact fun _ _ => trivial
    rw [hroles n, hroles n', h.2.2]

/-- Children in a part are related where all children are, and play the same
parts. -/
theorem rel_child? {R : Node → Node → Prop} {n n' : Node}
    (h : List.Forall₂ R n.children n'.children)
    (hroles : n'.children.map Node.role = n.children.map Node.role) (role : Role) :
    Option.Rel R (n.child? role) (n'.child? role) := by
  have hboth := rel_find? (p := (·.role = some role)) (q := (·.role = some role))
    (forall₂_and_of_map_eq h hroles) fun c c' hc => by rw [hc.2]
  exact rel_imp_of_mem hboth fun _ _ _ _ hc => hc.1

namespace Copying

variable {R : Node → Node → Prop} (h : Copying R) {n n' : Node}

include h

theorem namedChildren (hn : R n n') : List.Forall₂ R n.namedChildren n'.namedChildren :=
  List.rel_filter (fun {c c'} hc => by simp only [isNamed, h.kind hc]) (h.children hn)

theorem firstNamed? (hn : R n n') : Option.Rel R n.firstNamed? n'.firstNamed? :=
  rel_head? (h.namedChildren hn)

theorem child? (hn : R n n') (role : Role) : Option.Rel R (n.child? role) (n'.child? role) :=
  rel_child? (h.children hn) (h.roles hn) role

theorem map_text_child? (hn : R n n') (role : Role) :
    (n'.child? role).map Node.text = (n.child? role).map Node.text := by
  match n.child? role, n'.child? role, h.child? hn role with
  | _, _, .none => rfl
  | _, _, .some hc => simp only [Option.map_some, h.text hc]

theorem filter_kind (hn : R n n') (p : Kind → Bool) :
    List.Forall₂ R (n.namedChildren.filter fun c => p c.kind)
      (n'.namedChildren.filter fun c => p c.kind) :=
  List.rel_filter (fun {c c'} hc => by simp only [h.kind hc]) (h.namedChildren hn)

theorem stringValue_eq (hn : R n n') : n'.stringValue = n.stringValue := by
  rw [stringValue, stringValue]
  congr 1
  exact map_eq_of_forall₂ (h.namedChildren hn) fun c c' hc => by
    rw [pieceValue, pieceValue, h.kind hc, h.text hc]

end Copying

end Node

end CommandSchema.Syntax
