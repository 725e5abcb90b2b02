import CommandSchema.Proofs.Typing.Rewriting

/-!
# CommandSchema.Proofs.Typing.QuotedTexts

The texts of types in a scope and in the one that it is rewritten to.

The text of a type joins the texts of its variants
(`ResolvedType.text_eq_intercalate`).  A variant quotes a node of the file only
when it is an object type, a function type, or a node at which resolution stops;
any other one has a text of its own.  So variants of corresponding types have the
same text, unless they quote corresponding nodes around a member that is written
in another way (`Scope.Quotes`, `Rewriting.quotes_resolve`).
-/

namespace CommandSchema

open Syntax Syntax.Node

namespace ResolvedType

theorem texts_eq_map (ts : List ResolvedType) : texts ts = ts.map ResolvedType.text := by
  induction ts with
  | nil => rfl
  | cons t ts ih => rw [texts, ih, List.map_cons]

/-- The text of a type joins those of its variants. -/
theorem text_eq_intercalate (t : ResolvedType) :
    t.text = " | ".intercalate (t.variants.map ResolvedType.text) := by
  cases t with
  | union ts => rw [text, texts_eq_map, variants]
  | _ => rfl

/-- Types whose variants have the same texts have the same text. -/
theorem text_eq_of_variants {t t' : ResolvedType}
    (h : List.Forall₂ (fun v v' => v'.text = v.text) t.variants t'.variants) :
    t'.text = t.text := by
  rw [text_eq_intercalate t, text_eq_intercalate t', map_eq_of_forall₂ h fun _ _ hv => hv]

end ResolvedType

namespace Scope

/-! ## Quoted nodes -/

/-- The second node is one that the first one comes to: resolution goes from it to
the node that it stands for, and from a union to its named children. -/
def ComesTo (scope : Scope) : Node → Node → Prop :=
  Relation.ReflTransGen fun n m => scope.Leads n m ∨ n.kind = .unionType ∧ m ∈ n.namedChildren

/-- Variants of the types of two nodes, in two scopes: they have the same text, or
they quote nodes that the two nodes come to and that enclose a member and another
way to write it.  The quoted nodes are object types, or nodes at which resolution
stops. -/
inductive Quotes (scope scope' : Scope) (member : Node → Node → Prop) (n n' : Node) :
    ResolvedType → ResolvedType → Prop
  | same {v v' : ResolvedType} (text : v'.text = v.text) : Quotes scope scope' member n n' v v'
  | object {o o' : Node} (left : scope.ComesTo n o) (right : scope'.ComesTo n' o')
      (kind : o.kind = .objectType) (encloses : Encloses member o o') :
      Quotes scope scope' member n n' (.object o.text [[o]]) (.object o'.text [[o']])
  | stopped {m m' : Node} (left : scope.ComesTo n m) (right : scope'.ComesTo n' m')
      (encloses : Encloses member m m') :
      Quotes scope scope' member n n' (.other m.text) (.other m'.text)

/-- Nodes that come to other ones quote what these quote. -/
theorem Quotes.of_comesTo {scope scope' : Scope} {member : Node → Node → Prop}
    {n n' m m' : Node} {v v' : ResolvedType} (h : Quotes scope scope' member m m' v v')
    (hn : scope.ComesTo n m) (hn' : scope'.ComesTo n' m') :
    Quotes scope scope' member n n' v v' := by
  cases h with
  | same text => exact .same text
  | object left right kind encloses => exact .object (hn.trans left) (hn'.trans right) kind encloses
  | stopped left right encloses => exact .stopped (hn.trans left) (hn'.trans right) encloses

namespace Rewriting

variable {w : Rewriting} {n n' : Node}

/-- The texts of linked nodes. -/
theorem quotes_other (hn : w.Linked n n') :
    Quotes w.scope w.scope' w.member n n' (.other n.text) (.other n'.text) := by
  rcases hn.rewritten.text_eq_or_encloses with htext | hencloses
  · exact .same htext
  · exact .stopped .refl .refl hencloses

/-- Copies have types with the same text by their own form. -/
theorem text_ownType_of_copy (h : Copy n n') :
    (w.scope'.ownType n').text = (w.scope.ownType n).text := by
  simp only [ownType, copying_copy.kind h, copying_copy.text h, copying_copy.literalType_eq h,
    w.int32Names]
  split
  case h_10 | h_11 => simp only [ResolvedType.text, copying_copy.text h]
  all_goals rfl

/-- The types that linked nodes have by their own form. -/
theorem quotes_ownType (hn : w.Linked n n') :
    Quotes w.scope w.scope' w.member n n' (w.scope.ownType n) (w.scope'.ownType n') := by
  have hkind := hn.rewritten.kind_eq
  by_cases hobject : n.kind = .objectType
  · simp only [ownType, hkind, hobject]
    rcases hn.rewritten.text_eq_or_encloses with htext | hencloses
    · exact .same htext
    · exact .object .refl .refl hobject hencloses
  cases hn.rewritten with
  | copy h => exact .same (text_ownType_of_copy h)
  | members _ list =>
      unfold Kind.isMemberList at list
      split at list
      · next kind => simpa only [ownType, hkind, kind] using quotes_other hn
      · next kind => exact absurd kind hobject
      · cases list
  | around _ surrounds =>
      unfold Kind.surroundsMembers at surrounds
      split at surrounds
      case h_1 kind | h_5 kind => simpa only [ownType, hkind, kind] using quotes_other hn
      case h_2 kind | h_3 kind | h_4 kind =>
        simp only [ownType, hkind, kind]
        exact .same rfl
      case h_6 => cases surrounds

/-- Within any number of steps the types of linked nodes differ in text only where
they quote such nodes. -/
theorem quotes_typeWithin {k : Nat} {path path' : List Node}
    (hpath : SamePath w.Linked path path') (hn : w.Linked n n') (seen seen' : List String) :
    List.Forall₂ (Quotes w.scope w.scope' w.member n n')
      (w.scope.typeWithin k path n seen).variants
      (w.scope'.typeWithin k path' n' seen').variants := by
  induction k generalizing path path' n n' seen seen' with
  | zero =>
      rw [typeWithin_zero, typeWithin_zero]
      exact .cons (quotes_other hn) .nil
  | succ k ih =>
      have hkind := hn.rewritten.kind_eq
      by_cases hinterface : n.kind = .interfaceDeclaration
      · rw [typeWithin, typeWithin, resolveWithin_interface hinterface,
          resolveWithin_interface (hkind.trans hinterface)]
        exact .cons (.same (w.simulation.declaredName_eq hn (by rw [hinterface]))) .nil
      by_cases hunion : n.kind = .unionType
      · rw [typeWithin, typeWithin, resolveWithin_union hunion,
          resolveWithin_union (hkind.trans hunion)]
        have hchildren := forall₂_imp_of_mem (w.simulation.joined hn hunion)
          fun c hc c' hc' hchild => And.intro (And.intro hc hc') hchild
        refine List.rel_flatMap (forall₂_run_mapM_of_forall₂ hchildren
          (B := fun t t' => List.Forall₂ (Quotes w.scope w.scope' w.member n n') t.variants
            t'.variants) (fun c c' hc s s' => ?_) seen seen') fun _ _ ht => ht
        exact (ih hpath hc.2 s s').imp fun _ _ h => h.of_comesTo (.single (.inr ⟨hunion, hc.1.1⟩))
          (.single (.inr ⟨hkind.trans hunion, hc.1.2⟩))
      rcases w.simulation.resolveWithin_succ_cases hpath hn hinterface hunion k with
        ⟨hrun, hrun'⟩ | ⟨-, hrun, hrun'⟩ | ⟨m, m', hm, hleads, hleads', hrun, hrun'⟩
      · rw [typeWithin, typeWithin, hrun, hrun']
        exact .cons (quotes_other hn) .nil
      · rw [typeWithin, typeWithin, hrun, hrun']
        change List.Forall₂ _ (w.scope.ownType n).variants (w.scope'.ownType n').variants
        rw [ResolvedType.variants_of_not_isUnion (isUnion_ownType n),
          ResolvedType.variants_of_not_isUnion (isUnion_ownType n')]
        exact .cons (quotes_ownType hn) .nil
      · rw [typeWithin, typeWithin, hrun, hrun']
        exact (ih (w.simulation.samePath_entered hpath hn) hm seen seen').imp fun _ _ h =>
          h.of_comesTo (.single (.inl hleads)) (.single (.inl hleads'))

/-- **Types of linked nodes differ in text only where they quote corresponding
nodes around a member that is written in another way.** -/
theorem quotes_resolve (hn : w.Linked n n') :
    List.Forall₂ (Quotes w.scope w.scope' w.member n n') (w.scope.resolve n).variants
      (w.scope'.resolve n').variants :=
  quotes_typeWithin .nil hn [] []

end Rewriting

end Scope

end CommandSchema
