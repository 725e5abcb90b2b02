import CommandSchema.Proofs.Typing.Denotation
import CommandSchema.Proofs.Typing.MemberLookup

/-!
# CommandSchema.Proofs.Typing.AlikeTypes

Types that no predicate and no look-up tells apart.

A type has no nodes of its own (`ResolvedType.isLeaf`), or it leads to member
lists, to a signature or to variants.  `ResolvedType.Alike R` relates types of
the same form whose nodes are related by `R`: they are of the same classes, and
have related variants and member lists.
-/

namespace CommandSchema

open Syntax

namespace ResolvedType

/-- Whether a type has no nodes and no variants. -/
def isLeaf : ResolvedType → Bool
  | .object _ _ | .function _ | .union _ => false
  | _ => true

/-- Types that no predicate and no look-up tells apart, but for the nodes that
they lead to, which are related. -/
inductive Alike (R : Node → Node → Prop) : ResolvedType → ResolvedType → Prop
  | leaf {t t' : ResolvedType} (left : t.isLeaf = true) (right : t'.isLeaf = true)
      (same : t.class? = t'.class?) : Alike R t t'
  | object {text text' : String} {levels levels' : List (List Node)}
      (all : List.Forall₂ (List.Forall₂ R) levels levels') :
      Alike R (.object text levels) (.object text' levels')
  | function {n n' : Node} (signature : R n n') : Alike R (.function n) (.function n')
  | union {ts ts' : List ResolvedType} (all : List.Forall₂ (Alike R) ts ts') :
      Alike R (.union ts) (.union ts')

theorem isUnion_of_isLeaf {t : ResolvedType} (h : t.isLeaf = true) : t.isUnion = false := by
  cases t with
  | union ts => cases h
  | _ => rfl

theorem levels_of_isLeaf {t : ResolvedType} (h : t.isLeaf = true) : t.levels = [] := by
  cases t with
  | object text levels => cases h
  | _ => rfl

theorem isLeaf_ofWord (word : String) : (ofWord word).isLeaf = true := by
  unfold ofWord
  split <;> rfl

theorem signatureNodes_of_isLeaf {t : ResolvedType} (h : t.isLeaf = true) :
    t.signatureNodes = [] := by
  cases t with
  | object text levels => cases h
  | function signature => cases h
  | _ => rfl

namespace Alike

variable {R : Node → Node → Prop} {t t' : ResolvedType}

/-- Alike types are of the same classes. -/
theorem isOf_eq {t t' : ResolvedType} (h : Alike R t t') (c : TypeClass) :
    t.isOf c = t'.isOf c := by
  cases h with
  | leaf left right same =>
      rw [Bool.eq_iff_iff, isOf_iff_class? (isUnion_of_isLeaf left),
        isOf_iff_class? (isUnion_of_isLeaf right), same]
  | object => cases c <;> rfl
  | function => cases c <;> rfl
  | @union ts ts' all =>
      have hvariants : List.Forall₂ (fun v v' => v.isOf c = v'.isOf c) ts ts' :=
        forall₂_imp_of_mem all fun v hv v' _ hsame => hsame.isOf_eq c
      have hempty : ts = [] ↔ ts' = [] := by cases all <;> simp
      have hall : (∀ v ∈ ts, v.isOf c = true) ↔ ∀ v' ∈ ts', v'.isOf c = true := by
        constructor
        · intro hts v' hv'
          obtain ⟨v, hv, hsame⟩ := exists_left_of_forall₂ hvariants hv'
          rw [← hsame]
          exact hts v hv
        · intro hts' v hv
          obtain ⟨v', hv', hsame⟩ := exists_right_of_forall₂ hvariants hv
          rw [hsame]
          exact hts' v' hv'
      rw [Bool.eq_iff_iff, isOf_union_iff, isOf_union_iff, hall, ne_eq, ne_eq, hempty]
termination_by sizeOf t
decreasing_by
  have hlt := List.sizeOf_lt_of_mem hv
  simp only [union.sizeOf_spec]
  omega

/-- Alike types have alike variants. -/
theorem variants (h : Alike R t t') : List.Forall₂ (Alike R) t.variants t'.variants := by
  cases h with
  | leaf left right same =>
      rw [variants_of_not_isUnion (isUnion_of_isLeaf left),
        variants_of_not_isUnion (isUnion_of_isLeaf right)]
      exact .cons (.leaf left right same) .nil
  | object all => exact .cons (.object all) .nil
  | function signature => exact .cons (.function signature) .nil
  | union all => exact all

/-- Alike types have related member lists. -/
theorem levels (h : Alike R t t') : List.Forall₂ (List.Forall₂ R) t.levels t'.levels := by
  cases h with
  | leaf left right =>
      rw [levels_of_isLeaf left, levels_of_isLeaf right]
      exact .nil
  | object all => exact all
  | function => exact .nil
  | union => exact .nil

end Alike

end ResolvedType

end CommandSchema
