import CommandSchema.Proofs.Syntax.Distinct
import CommandSchema.Syntax.Reader
import Mathlib.Data.List.Flatten
import Mathlib.Data.Prod.Lex

/-!
# CommandSchema.Proofs.Syntax.Passage

What reading does with nodes.

A reader gets hold of nodes, makes new ones and collects some, and in the tree
that comes out of it no node may stand twice.  It suffices to look at the leaves:
trees whose leaves start at different positions have no node twice
(`Node.distinct_of_leavesAt_le_one`).  So what a reader did is told by counting
leaves (`Passage`): those of the nodes that it hands over and has collected are
leaves of the nodes that it was given or had collected before, or they start
in the part of the text that it has moved over, and no two of these start at the
same position.  Passages can be put together (`Passage.trans`), because positions
only go up.
-/

namespace CommandSchema.Syntax

/-! ## Positions in order -/

/-- Positions are ordered by their lines, and within a line by their columns. -/
def Position.key (p : Position) : ℕ ×ₗ ℕ := toLex (p.line, p.column)

namespace Cursor

theorem key_lt_stepPosition (p : Position) (c : Char) : p.key < (stepPosition p c).key := by
  rw [stepPosition]
  split
  · exact Prod.Lex.toLex_lt_toLex.mpr (.inl (Nat.lt_succ_self p.line))
  · exact Prod.Lex.toLex_lt_toLex.mpr (.inr ⟨rfl, Nat.lt_add_of_pos_right c.utf8Size_pos⟩)

/-- No move goes back. -/
theorem key_le_advance (n : Nat) (c : Cursor) : c.position.key ≤ (c.advance n).position.key := by
  induction n generalizing c with
  | zero => simp [advance]
  | succ n ih =>
      obtain ⟨rest, position, offset⟩ := c
      cases rest with
      | nil => simp [advance]
      | cons ch rest =>
          rw [advance]
          exact (key_lt_stepPosition position ch).le.trans
            (ih ⟨rest, stepPosition position ch, offset + 1⟩)

/-- A move over a character goes up. -/
theorem key_lt_advance {n : Nat} {c : Cursor} (hn : n ≠ 0) (hrest : c.rest ≠ []) :
    c.position.key < (c.advance n).position.key := by
  obtain ⟨rest, position, offset⟩ := c
  obtain ⟨ch, rest, rfl⟩ := List.exists_cons_of_ne_nil hrest
  obtain ⟨n, rfl⟩ := Nat.exists_eq_succ_of_ne_zero hn
  rw [advance]
  exact (key_lt_stepPosition position ch).trans_le
    (key_le_advance n ⟨rest, stepPosition position ch, offset + 1⟩)

end Cursor

/-! ## Leaves -/

/-- How many leaves of the trees start at a position. -/
def leavesAt (p : Position) (ns : List Node) : Nat :=
  (ns.flatMap Node.preorder).countP fun n => n.children.isEmpty && n.start = p

variable {p : Position} {ms ns : List Node}

@[simp] theorem leavesAt_nil (p : Position) : leavesAt p [] = 0 := rfl

@[simp] theorem leavesAt_append (p : Position) (ms ns : List Node) :
    leavesAt p (ms ++ ns) = leavesAt p ms + leavesAt p ns := by
  simp [leavesAt]

theorem leavesAt_cons (p : Position) (n : Node) (ns : List Node) :
    leavesAt p (n :: ns) = leavesAt p [n] + leavesAt p ns := by
  rw [← leavesAt_append, List.singleton_append]

@[simp] theorem leavesAt_reverse (p : Position) (ns : List Node) :
    leavesAt p ns.reverse = leavesAt p ns :=
  ((List.reverse_perm ns).flatMap_right _).countP_eq _

/-- A node without children is a leaf itself, and the leaves of any other one are those
of its children. -/
theorem leavesAt_singleton (p : Position) (n : Node) : leavesAt p [n] =
    if n.children = [] then if n.start = p then 1 else 0 else leavesAt p n.children := by
  rw [leavesAt, List.flatMap_singleton, Node.preorder_eq, List.countP_cons, leavesAt]
  by_cases h : n.children = [] <;> simp [h]

theorem leavesAt_le_of_sublist (p : Position) (h : ms.Sublist ns) :
    leavesAt p ms ≤ leavesAt p ns :=
  (h.flatMap _).countP_le

/-- The leaves below a node of a tree are among those of the tree. -/
theorem leavesAt_le_of_mem_preorder {n m : Node} (p : Position) (h : m ∈ n.preorder) :
    leavesAt p [m] ≤ leavesAt p [n] := by
  rcases Node.mem_preorder_iff.mp h with rfl | ⟨child, hchild, hm⟩
  · exact Nat.le_refl _
  · have hne : n.children ≠ [] := List.ne_nil_of_mem hchild
    rw [leavesAt_singleton p n, if_neg hne]
    exact (leavesAt_le_of_mem_preorder p hm).trans
      (leavesAt_le_of_sublist p (List.singleton_sublist.mpr hchild))
termination_by sizeOf n
decreasing_by exact Node.sizeOf_lt_of_mem_children hchild

namespace Node

/-- Every tree has a leaf. -/
theorem exists_leavesAt_pos (n : Node) : ∃ p, 0 < leavesAt p [n] := by
  obtain ⟨kind, role, text, start, children⟩ := n
  cases children with
  | nil => exact ⟨start, by simp [leavesAt_singleton]⟩
  | cons child children =>
      obtain ⟨p, hp⟩ := exists_leavesAt_pos child
      refine ⟨p, ?_⟩
      rw [leavesAt_singleton, if_neg (by simp), leavesAt_cons]
      omega

theorem sizeOf_le_of_mem_preorder {n m : Node} (h : m ∈ n.preorder) : sizeOf m ≤ sizeOf n := by
  rcases mem_preorder_iff.mp h with rfl | ⟨child, hchild, hm⟩
  · exact Nat.le_refl _
  · exact (sizeOf_le_of_mem_preorder hm).trans (sizeOf_lt_of_mem_children hchild).le
termination_by sizeOf n
decreasing_by exact sizeOf_lt_of_mem_children hchild

/-- Trees whose leaves start at different positions have no node twice. -/
theorem nodup_preorder_of_leavesAt_le_one (n : Node) (h : ∀ p, leavesAt p [n] ≤ 1) :
    n.preorder.Nodup := by
  rw [preorder_eq, List.nodup_cons]
  by_cases hleaf : n.children = []
  · simp [hleaf]
  have hchildren : ∀ p, leavesAt p n.children ≤ 1 := fun p => by
    have := h p
    rwa [leavesAt_singleton, if_neg hleaf] at this
  constructor
  · intro hmem
    obtain ⟨child, hchild, hn⟩ := List.mem_flatMap.mp hmem
    have hlt := sizeOf_lt_of_mem_children hchild
    have hle := sizeOf_le_of_mem_preorder hn
    omega
  · refine List.nodup_flatMap.mpr ⟨fun child hchild => ?_, ?_⟩
    · refine nodup_preorder_of_leavesAt_le_one child fun p => ?_
      exact (leavesAt_le_of_sublist p (List.singleton_sublist.mpr hchild)).trans (hchildren p)
    · rw [List.pairwise_iff_forall_sublist]
      intro a b hab
      refine List.disjoint_left.mpr fun m ha hb => ?_
      obtain ⟨p, hp⟩ := exists_leavesAt_pos m
      have hpair := (leavesAt_le_of_sublist p hab).trans (hchildren p)
      have hle := leavesAt_le_of_mem_preorder p ha
      have hle' := leavesAt_le_of_mem_preorder p hb
      rw [leavesAt_cons] at hpair
      omega
termination_by sizeOf n
decreasing_by exact sizeOf_lt_of_mem_children hchild

/-- A tree is one of distinct nodes when its leaves start at different positions. -/
theorem distinct_of_leavesAt_le_one {root : Node} (h : ∀ p, leavesAt p [root] ≤ 1) :
    root.Distinct :=
  nodup_preorder_of_leavesAt_le_one root h

end Node

/-! ## Nodes among others -/

/-- All leaves of some trees are among those of other ones. -/
class Among (ms ns : List Node) : Prop where
  le : ∀ p, leavesAt p ms ≤ leavesAt p ns

instance : Among [] ns := ⟨by simp⟩

instance : Among ns ns := ⟨fun _ => Nat.le_refl _⟩

instance (priority := low) [h : Among ms ns] (ls : List Node) : Among ms (ls ++ ns) :=
  ⟨fun p => by rw [leavesAt_append]; exact (h.le p).trans (Nat.le_add_left _ _)⟩

instance [h : Among ms ns] (ls : List Node) : Among ms (ns ++ ls) :=
  ⟨fun p => by rw [leavesAt_append]; exact (h.le p).trans (Nat.le_add_right _ _)⟩

/-- The part that a node plays is nothing to its leaves. -/
instance (n : Node) (role : Role) [h : Among [n] ns] : Among [n.withRole role] ns :=
  ⟨fun p => by simpa [leavesAt_singleton, Node.withRole] using h.le p⟩

/-- The kind of a node is nothing to its leaves. -/
instance (n : Node) (kind : Kind) [h : Among [n] ns] : Among [{ n with kind }] ns :=
  ⟨fun p => by simpa [leavesAt_singleton] using h.le p⟩

/-! ## Passages -/

/-- What a reader did that was given nodes to use in one state, and handed over nodes that it
had made in another one: it has not gone back, nothing of what was collected is gone, and
all leaves are old ones or start in between, at different positions. -/
structure Passage (used : List Node) (s : ReaderState) (made : List Node) (t : ReaderState) :
    Prop where
  forward : s.cursor.position.key ≤ t.cursor.position.key
  kept : s.collected <:+ t.collected
  leaves : ∀ p, leavesAt p (made ++ t.collected) ≤ leavesAt p (used ++ s.collected) +
    if s.cursor.position.key ≤ p.key ∧ p.key < t.cursor.position.key then 1 else 0

namespace Passage

variable {used more made made' : List Node} {s t u : ReaderState}

/-- Where nothing happens, what was given is handed over. -/
theorem refl [h : Among made used] (s : ReaderState) : Passage used s made s := by
  refine ⟨le_refl _, List.suffix_refl _, fun p => ?_⟩
  have := h.le p
  simp only [leavesAt_append]
  omega

/-- What the first reader made may be used by the second one, with what the first one was
not given. -/
theorem trans_append (h : Passage used s made t) (h' : Passage (made ++ more) t made' u) :
    Passage (used ++ more) s made' u := by
  refine ⟨h.forward.trans h'.forward, h.kept.trans h'.kept, fun p => ?_⟩
  have hle := h.leaves p
  have hle' := h'.leaves p
  simp only [leavesAt_append] at hle hle' ⊢
  -- a position in the part that is moved over is in one of its halves
  have hpart : (if s.cursor.position.key ≤ p.key ∧ p.key < t.cursor.position.key then 1 else 0) +
      (if t.cursor.position.key ≤ p.key ∧ p.key < u.cursor.position.key then 1 else 0) ≤
      if s.cursor.position.key ≤ p.key ∧ p.key < u.cursor.position.key then 1 else 0 := by
    have hforward := h.forward
    have hforward' := h'.forward
    split_ifs with h₁ h₂ h₃ h₃ h₃ h₃ <;> try omega
    · exact absurd (h₁.2.trans_le h₂.1) (lt_irrefl _)
    · exact absurd (h₁.2.trans_le h₂.1) (lt_irrefl _)
    · exact absurd ⟨h₁.1, h₁.2.trans_le hforward'⟩ h₃
    · rename_i h₂
      exact absurd ⟨hforward.trans h₂.1, h₂.2⟩ h₃
  omega

/-- What the first reader made may be used by the second one. -/
theorem trans (h : Passage used s made t) (h' : Passage made t made' u) :
    Passage used s made' u := by
  rw [← List.append_nil used]
  exact h.trans_append (by rwa [List.append_nil])

/-- A reader may be given more than it uses. -/
theorem given (h : Passage used s made t) [hused : Among used more] : Passage more s made t := by
  refine ⟨h.forward, h.kept, fun p => ?_⟩
  have hle := h.leaves p
  have := hused.le p
  simp only [leavesAt_append] at hle ⊢
  omega

theorem advance (n : Nat) (s : ReaderState) :
    Passage [] s [] { s with cursor := s.cursor.advance n } :=
  ⟨s.cursor.key_le_advance n, List.suffix_refl _, fun _ => Nat.le_add_right _ _⟩

/-- A node may be collected once. -/
theorem collect (n : Node) [h : Among [n] used] (s : ReaderState) :
    Passage used s [] { s with collected := n :: s.collected } := by
  refine ⟨le_refl _, List.suffix_cons _ _, fun p => ?_⟩
  have hle := h.le p
  simp only [List.nil_append, leavesAt_append]
  rw [leavesAt_cons]
  omega

/-- A node is made of what its reader collects.  If that is nothing, it starts where the reader
did, and the reader has moved on. -/
theorem node (first : List Node) [hfirst : Among first used] {n : Node}
    (h : Passage [] ⟨s.cursor, first.reverse⟩ [] u) (hn : n.children = u.collected.reverse)
    (hleaf : u.collected = [] → n.start = s.cursor.position ∧
      s.cursor.position.key < u.cursor.position.key) :
    Passage used s [n] ⟨u.cursor, s.collected⟩ := by
  refine ⟨h.forward, List.suffix_refl _, fun p => ?_⟩
  have hle := h.leaves p
  have := hfirst.le p
  simp only [List.nil_append, leavesAt_append, leavesAt_reverse] at hle ⊢
  rw [leavesAt_singleton, hn]
  by_cases hempty : u.collected = []
  · obtain ⟨hstart, hlt⟩ := hleaf hempty
    rw [if_pos (by simp [hempty]), hstart]
    by_cases hp : s.cursor.position = p
    · rw [if_pos hp, if_pos (by simp [← hp, hlt])]
      omega
    · rw [if_neg hp]
      omega
  · rw [if_neg (by simpa using hempty), leavesAt_reverse]
    omega

/-- What a node begins with is a part of it. -/
theorem among {first : List Node} {c : Cursor} {n : Node}
    (h : Passage [] ⟨c, first.reverse⟩ [] u) (hn : n.children = u.collected.reverse) :
    Among first [n] := by
  refine ⟨fun p => ?_⟩
  have hle := leavesAt_le_of_sublist p h.kept.sublist
  rw [leavesAt_reverse] at hle
  rw [leavesAt_singleton, hn]
  by_cases hempty : u.collected = []
  · rw [hempty] at hle
    exact hle.trans (Nat.zero_le _)
  · rwa [if_neg (by simpa using hempty), leavesAt_reverse]

/-- A leaf over some of the text in front of the reader. -/
theorem leaf {n : Nat} {m : Node} (hn : n ≠ 0) (hrest : s.cursor.rest ≠ [])
    (hchildren : m.children = []) (hstart : m.start = s.cursor.position) :
    Passage [] s [m] ⟨s.cursor.advance n, s.collected⟩ :=
  node [] (advance n ⟨s.cursor, []⟩) hchildren fun _ =>
    ⟨hstart, Cursor.key_lt_advance hn hrest⟩

theorem length_le (h : Passage used s made t) : s.collected.length ≤ t.collected.length :=
  h.kept.length_le

end Passage

/-- Something has been collected between two states, or moved over. -/
def ReaderState.Moved (s t : ReaderState) : Prop :=
  s.collected.length < t.collected.length ∨ s.cursor.position.key < t.cursor.position.key

namespace ReaderState.Moved

variable {used made : List Node} {s t u : ReaderState}

/-- Nothing that happens later takes that back. -/
theorem passage (h : s.Moved t) (hpassage : Passage used t made u) : s.Moved u :=
  h.imp (·.trans_le hpassage.length_le) (·.trans_le hpassage.forward)

/-- Nothing that happened before matters. -/
theorem after (h : t.Moved u) (hpassage : Passage used s made t) : s.Moved u :=
  h.imp (hpassage.length_le.trans_lt ·) (hpassage.forward.trans_lt ·)

end ReaderState.Moved

end CommandSchema.Syntax
