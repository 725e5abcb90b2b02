import CommandSchema.Proofs.Syntax.Places
import CommandSchema.Proofs.Syntax.Preorder
import CommandSchema.Proofs.Traversal
import Mathlib.Data.List.Nodup

/-!
# CommandSchema.Proofs.Syntax.Distinct

Trees whose nodes can be told apart.

Equality of nodes looks at their positions as well, so in a tree of source text
it stands for being at the same place.  `Node.Distinct` says so of a tree: no
node of it stands at two places.  The tree of every parsed file is one of these
(`SourceFile.distinct_root`).  Then a node has one parent
(`Distinct.parent_eq`), and it is one of its children once
(`Distinct.nodup_children`), and no declaration is listed twice
(`Scope.nodup_declarations`).
-/

namespace CommandSchema

open Syntax

namespace Syntax.Node

/-- No node stands at two places of the tree. -/
def Distinct (root : Node) : Prop := root.preorder.Nodup

instance (root : Node) : Decidable root.Distinct := inferInstanceAs (Decidable (List.Nodup _))

theorem exists_at?_of_mem {root n : Node} (h : n ∈ root.preorder) :
    ∃ place, root.at? place = some n := by
  obtain ⟨place, -, hplace⟩ := exists_left_of_forall₂ (at?_places root) h
  exact ⟨place, hplace⟩

/-- A child stands at the place of its parent with its own number behind it. -/
theorem at?_concat {root n : Node} {place : List Nat} (h : root.at? place = some n) (i : Nat) :
    root.at? (place ++ [i]) = n.children[i]? := by
  induction place generalizing root with
  | nil =>
      cases h
      cases hchild : n.children[i]? <;> simp [at?, hchild]
  | cons j place ih =>
      rw [at?] at h
      obtain ⟨child, hchild, hrest⟩ := Option.bind_eq_some_iff.mp h
      rw [List.cons_append, at?, hchild, Option.bind_some, ih hrest]

namespace Distinct

variable {root : Node} (h : root.Distinct)

include h

/-- A node stands at one place. -/
theorem place_eq {place place' : List Nat} {n : Node} (hplace : root.at? place = some n)
    (hplace' : root.at? place' = some n) : place = place' := by
  have hnodes := at?_places root
  have hmem : ∀ p, root.at? p = some n → p ∈ root.places := fun p hp =>
    mem_places_iff.mpr (by rw [hp]; rfl)
  obtain ⟨i, hi, rfl⟩ := List.getElem_of_mem (hmem place hplace)
  obtain ⟨j, hj, rfl⟩ := List.getElem_of_mem (hmem place' hplace')
  have hlength := hnodes.length_eq
  have hat : ∀ k (hk : k < root.places.length),
      root.at? root.places[k] = some (root.preorder.get ⟨k, hlength ▸ hk⟩) :=
    fun k hk => List.forall₂_iff_get.mp hnodes |>.2 k hk _
  have hsame : root.preorder.get ⟨i, hlength ▸ hi⟩ = root.preorder.get ⟨j, hlength ▸ hj⟩ :=
    Option.some.inj ((hat i hi).symm.trans (hplace.trans (hplace'.symm.trans (hat j hj))))
  have hij : i = j := congrArg Fin.val (List.Nodup.get_inj_iff h |>.mp hsame)
  subst hij
  rfl

/-- A node has one parent. -/
theorem parent_eq {a b child : Node} (ha : a ∈ root.preorder) (hb : b ∈ root.preorder)
    (hchild : child ∈ a.children) (hchild' : child ∈ b.children) : a = b := by
  obtain ⟨place, hplace⟩ := exists_at?_of_mem ha
  obtain ⟨place', hplace'⟩ := exists_at?_of_mem hb
  obtain ⟨i, hi⟩ := List.mem_iff_getElem?.mp hchild
  obtain ⟨j, hj⟩ := List.mem_iff_getElem?.mp hchild'
  have hsame := h.place_eq ((at?_concat hplace i).trans hi) ((at?_concat hplace' j).trans hj)
  obtain ⟨rfl, -⟩ := List.append_inj' hsame rfl
  exact Option.some.inj (hplace.symm.trans hplace')

/-- A node is not among its siblings twice. -/
theorem nodup_children {a : Node} (ha : a ∈ root.preorder) : a.children.Nodup := by
  obtain ⟨place, hplace⟩ := exists_at?_of_mem ha
  rw [List.nodup_iff_getElem?_ne_getElem?]
  intro i j hij hj heq
  obtain ⟨child, hchild⟩ : ∃ child, a.children[j]? = some child :=
    ⟨_, List.getElem?_eq_getElem hj⟩
  have hsame := h.place_eq ((at?_concat hplace i).trans (heq.trans hchild))
    ((at?_concat hplace j).trans hchild)
  have := (List.append_inj' hsame rfl).2
  simp only [List.cons.injEq, and_true] at this
  omega

end Distinct

end Syntax.Node

/-! ## Declarations -/

namespace Scope

open Syntax.Node

mutual

/-- The declarations of a statement are listed in the order of its nodes. -/
theorem declarationsOf_sublist_preorder : (n : Node) → (declarationsOf n).Sublist n.preorder
  | ⟨kind, role, text, start, children⟩ => by
      rw [preorder_eq]
      simp only [declarationsOf]
      split
      · split
        · exact .cons_cons _ (List.nil_sublist _)
        · exact List.nil_sublist _
      · split
        · exact (declarationsOfAll_sublist_preorder children).cons _
        · exact List.nil_sublist _

/-- The declarations of several statements are listed in the order of their
nodes. -/
theorem declarationsOfAll_sublist_preorder : (ns : List Node) →
    (declarationsOfAll ns).Sublist (ns.flatMap Node.preorder)
  | [] => by simp [declarationsOfAll]
  | n :: ns => by
      rw [declarationsOfAll, List.flatMap_cons]
      exact (declarationsOf_sublist_preorder n).append (declarationsOfAll_sublist_preorder ns)

end

mutual

/-- The declarations of a statement are type declarations. -/
theorem declaresType_of_mem_declarationsOf :
    (n : Node) → ∀ d ∈ declarationsOf n, d.kind.declaresType = true
  | ⟨kind, role, text, start, children⟩, d, hd => by
      simp only [declarationsOf] at hd
      split at hd
      · next hkind =>
          split at hd
          · rw [List.mem_singleton.mp hd]
            rcases hkind with hkind | hkind <;> simp only [hkind]
          · cases hd
      · split at hd
        · exact declaresType_of_mem_declarationsOfAll children d hd
        · cases hd

/-- The declarations of several statements are type declarations. -/
theorem declaresType_of_mem_declarationsOfAll :
    (ns : List Node) → ∀ d ∈ declarationsOfAll ns, d.kind.declaresType = true
  | [], d, hd => by simp [declarationsOfAll] at hd
  | n :: ns, d, hd => by
      rw [declarationsOfAll, List.mem_append] at hd
      rcases hd with hd | hd
      · exact declaresType_of_mem_declarationsOf n d hd
      · exact declaresType_of_mem_declarationsOfAll ns d hd

end

/-- In a tree of distinct nodes no declaration is listed twice. -/
theorem nodup_declarations {root : Node} (h : root.Distinct) (int32Names : List String) :
    (ofTree root int32Names).declarations.Nodup := by
  have hsublist := declarationsOfAll_sublist_preorder root.children
  rw [Distinct, preorder_eq, List.nodup_cons] at h
  exact hsublist.nodup h.2

end Scope

end CommandSchema
