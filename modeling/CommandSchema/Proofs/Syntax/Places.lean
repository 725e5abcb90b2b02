import CommandSchema.Syntax.Node
import Mathlib.Data.List.Forall2

/-!
# CommandSchema.Proofs.Syntax.Places

Where the nodes of a tree stand.

A place is the list of the numbers of the children that lead to a node
(`Node.at?`).  In the lexicographic order of these lists a node stands before
everything below it, and siblings stand in source order, so this order is what
a preorder ought to follow: the preorder of a tree holds the node at every
place once, in the order of the places (`Node.pairwise_places`,
`Node.mem_places_iff`, `Node.at?_places`).  `Node.Lists` says the same of the
nodes with some property.
-/

namespace CommandSchema

namespace Syntax.Node

/-! ## The places of a tree -/

/-- The node at a place, which lists the numbers of the children that lead to
it. -/
def at? (n : Node) : (place : List Nat) → Option Node
  | [] => some n
  | i :: place => n.children[i]?.bind (·.at? place)

mutual

/-- The places of a tree, each before those below it and siblings in source
order. -/
def places : Node → List (List Nat)
  | ⟨_, _, _, _, children⟩ => [] :: placesFrom 0 children

/-- The places below siblings, the first of which has the given number. -/
def placesFrom : Nat → List Node → List (List Nat)
  | _, [] => []
  | i, n :: ns => n.places.map (i :: ·) ++ placesFrom (i + 1) ns

end

theorem places_eq (n : Node) : n.places = [] :: placesFrom 0 n.children := by
  cases n
  rw [places]

/-- A place below siblings is one of a sibling behind its number. -/
theorem mem_placesFrom_iff {i : Nat} {ns : List Node} {place : List Nat} :
    place ∈ placesFrom i ns ↔
      ∃ j below n, place = (i + j) :: below ∧ ns[j]? = some n ∧ below ∈ n.places := by
  induction ns generalizing i with
  | nil => simp [placesFrom]
  | cons n ns ih =>
      rw [placesFrom, List.mem_append, List.mem_map, ih]
      constructor
      · rintro (⟨below, hbelow, rfl⟩ | ⟨j, below, m, rfl, hm, hbelow⟩)
        · exact ⟨0, below, n, rfl, rfl, hbelow⟩
        · exact ⟨j + 1, below, m, by rw [Nat.add_right_comm, Nat.add_assoc], hm, hbelow⟩
      · rintro ⟨_ | j, below, m, rfl, hm, hbelow⟩
        · exact .inl ⟨below, Option.some.inj hm ▸ hbelow, rfl⟩
        · exact .inr ⟨j, below, m, by rw [Nat.add_right_comm, Nat.add_assoc], hm, hbelow⟩

/-- The places of a tree are those that lead to a node. -/
theorem mem_places_iff {n : Node} {place : List Nat} :
    place ∈ n.places ↔ (n.at? place).isSome = true := by
  induction place generalizing n with
  | nil => simp [places_eq, at?]
  | cons i place ih =>
      rw [places_eq, at?]
      simp only [List.mem_cons, reduceCtorEq, false_or, mem_placesFrom_iff, Nat.zero_add,
        List.cons.injEq]
      cases hchild : n.children[i]? with
      | none =>
          simp only [Option.bind_none, Option.isSome_none, Bool.false_eq_true, iff_false]
          rintro ⟨j, _, m, ⟨rfl, rfl⟩, hm, -⟩
          rw [hchild] at hm
          cases hm
      | some child =>
          rw [Option.bind_some, ← ih]
          constructor
          · rintro ⟨j, _, m, ⟨rfl, rfl⟩, hm, hplace⟩
            rw [hchild] at hm
            rwa [Option.some.inj hm]
          · exact fun hplace => ⟨i, place, child, ⟨rfl, rfl⟩, hchild, hplace⟩

/-! ## Places and the preorder -/

mutual

/-- The places of a tree stand in the order of their lists. -/
theorem pairwise_places : (n : Node) → n.places.Pairwise (· < ·)
  | ⟨_, _, _, _, children⟩ => by
      rw [places, List.pairwise_cons]
      refine ⟨fun place hplace => ?_, pairwise_placesFrom 0 children⟩
      obtain ⟨j, below, -, rfl, -⟩ := mem_placesFrom_iff.mp hplace
      exact List.nil_lt_cons _ _

/-- The places below siblings stand in the order of their lists. -/
theorem pairwise_placesFrom : (i : Nat) → (ns : List Node) → (placesFrom i ns).Pairwise (· < ·)
  | _, [] => by
      rw [placesFrom]
      exact .nil
  | i, n :: ns => by
      rw [placesFrom, List.pairwise_append, List.pairwise_map]
      refine ⟨(pairwise_places n).imp fun h => List.cons_lt_cons_iff.mpr (.inr ⟨rfl, h⟩),
        pairwise_placesFrom (i + 1) ns, fun place hplace place' hplace' => ?_⟩
      obtain ⟨below, -, rfl⟩ := List.mem_map.mp hplace
      obtain ⟨j, below', -, rfl, -⟩ := mem_placesFrom_iff.mp hplace'
      exact List.cons_lt_cons_iff.mpr (.inl (by omega))

end

mutual

theorem at?_places : (n : Node) → List.Forall₂ (fun place m => n.at? place = some m) n.places
    n.preorder
  | ⟨kind, role, text, start, children⟩ => by
      rw [places, preorder]
      exact .cons rfl (at?_placesFrom 0 children fun j => by rw [Nat.zero_add])

/-- At the places below siblings stand the nodes of their preorders. -/
theorem at?_placesFrom {n : Node} : (i : Nat) → (ns : List Node) →
    (∀ j, n.children[i + j]? = ns[j]?) →
    List.Forall₂ (fun place m => n.at? place = some m) (placesFrom i ns) (preorderAll ns)
  | _, [], _ => by
      rw [placesFrom, preorderAll]
      exact .nil
  | i, m :: ms, h => by
      rw [placesFrom, preorderAll]
      refine List.rel_append ?_ (at?_placesFrom (i + 1) ms fun j => ?_)
      · have hm : n.children[i]? = some m := h 0
        rw [List.forall₂_map_left_iff]
        refine (at?_places m).imp fun place l hl => ?_
        rw [at?, hm, Option.bind_some, hl]
      · rw [Nat.add_right_comm, Nat.add_assoc, h]
        rfl

end

/-- The nodes of a tree with some property, each at its place, in the order in
which they start. -/
structure Lists (root : Node) (p : Node → Prop) (places : List (List Nat)) (ns : List Node) :
    Prop where
  order : places.Pairwise (· < ·)
  nodes : List.Forall₂ (fun place n => root.at? place = some n) places ns
  exact : ∀ place, place ∈ places ↔ ∃ n, root.at? place = some n ∧ p n

/-- A filter of the preorder lists the nodes that pass it. -/
theorem lists_filter_preorder (root : Node) (p : Node → Bool) :
    root.Lists (p · = true) (root.places.filter fun place => (root.at? place).any p)
      (root.preorder.filter p) where
  order := (pairwise_places root).filter _
  nodes := List.rel_filter (fun {place n} h => by simp only [h, Option.any_some]) (at?_places root)
  exact place := by
    rw [List.mem_filter, mem_places_iff, Option.any_eq_true]
    constructor
    · rintro ⟨-, n, hn, hp⟩
      exact ⟨n, hn, hp⟩
    · rintro ⟨n, hn, hp⟩
      exact ⟨by rw [hn]; rfl, n, hn, hp⟩

end Syntax.Node
end CommandSchema
