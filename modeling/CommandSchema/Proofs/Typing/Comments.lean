import CommandSchema.Proofs.Contract.Parametricity
import CommandSchema.Proofs.Syntax.Comments
import CommandSchema.Proofs.Typing.Simulation

/-!
# CommandSchema.Proofs.Typing.Comments

Resolution does not see comments, but in a few places.

`Node.Undisturbed` names these places: the first named child of an annotation,
a parenthesis or `readonly`, the members of a union and the type arguments of a
wrapper are taken as they come, comments included, and a comment inside a name
becomes part of it.  Everywhere else comments are passed over.

Where two scopes hold the same declarations but for comments in other places
(`Scope.Commented`), corresponding nodes have types that no predicate and no
look-up tells apart (`Commented.resolve_alike`).  In these places a comment
stands for a type of no class (`resolve_of_comment_first`,
`isOf_resolve_of_comment_member`).
-/

namespace CommandSchema

open Syntax Syntax.Node

/-! ## Places in which comments are seen -/

/-- No comment stands where it would be taken for a type or become part of a name.
Type arguments are looked at only where the policy asks for a wrapper around
one string literal. -/
@[mk_iff]
structure Syntax.Node.Undisturbed (policy : RefPolicy) (n : Node) : Prop where
  wrappers : n.kind = .annotatedType ∨ n.kind = .parenthesizedType ∨ n.kind = .readonlyType →
    ∀ c ∈ n.firstNamed?, c.isComment = false
  unions : n.kind = .unionType → ∀ c ∈ n.namedChildren, c.isComment = false
  arguments : policy.check = .stringLiteral → n.kind = .genericType →
    ((n.child? .name).map Node.text).getD "" ∈ policy.wrappers →
    ∀ list ∈ n.child? .typeArguments, ∀ c ∈ list.namedChildren, c.isComment = false
  names : n.role = some .name ∨ n.kind = .nestedTypeIdentifier → n.holdsComment = false

instance (policy : RefPolicy) (n : Node) : Decidable (n.Undisturbed policy) :=
  decidable_of_iff' _ (n.undisturbed_iff policy)

/-- What a node has become is a node of the grammar, with no comment in a place
in which it is seen. -/
def Syntax.Node.Tame (policy : RefPolicy) (_ n' : Node) : Prop :=
  n'.Grammatical ∧ n'.Undisturbed policy

/-! ## Corresponding nodes of two scopes -/

namespace Scope

/-- The second scope holds the declarations of the first one with comments
inserted, none of them in a place in which it is seen. -/
structure Commented (policy : RefPolicy) (scope scope' : Scope) : Prop where
  int32Names : scope'.int32Names = scope.int32Names
  declarations : List.Forall₂ (Inserted (Tame policy)) scope.declarations scope'.declarations

/-- The second node is what the first one has become.  Alias declarations count
only where a name means them. -/
structure Corresponds (policy : RefPolicy) (scope scope' : Scope) (n n' : Node) : Prop where
  inserted : Inserted (Tame policy) n n'
  first : n.kind = .typeAliasDeclaration → scope.First n ∧ scope'.First n'

variable {policy : RefPolicy} {scope scope' : Scope} {n n' : Node}

/-! ### Names -/

/-- Names correspond, and hold no comments. -/
theorem names_rel (h : Inserted (Tame policy) n n') :
    Option.Rel (fun name name' => Inserted (Tame policy) name name' ∧ name'.holdsComment = false)
      (n.child? .name) (n'.child? .name) :=
  rel_imp_of_mem (h.child? h.pair.1 .name) fun _ _ _ hname' hinserted =>
    ⟨hinserted, hinserted.pair.2.names (.inl (role_of_child? hname'))⟩

theorem name_text_eq (h : Inserted (Tame policy) n n') :
    (n'.child? .name).map Node.text = (n.child? .name).map Node.text := by
  match n.child? .name, n'.child? .name, names_rel h with
  | _, _, .none => rfl
  | _, _, .some ⟨hname, hnone⟩ => rw [Option.map_some, Option.map_some, hname.text_eq hnone]

theorem declaredName_eq (h : Inserted (Tame policy) n n') : declaredName n' = declaredName n := by
  rw [declaredName, declaredName, name_text_eq h]

/-! ### Children -/

/-- What is in a part of its parent, or in a node that is read through, is no
alias declaration. -/
theorem corresponds_of_mem_children (h : n'.Grammatical) {c c' : Node}
    (hc : Inserted (Tame policy) c c') (hmem : c' ∈ n'.children)
    (hpart : c'.role ≠ none ∨ n'.kind.wrapsType = true) : Corresponds policy scope scope' c c' := by
  refine ⟨hc, fun hkind => ?_⟩
  obtain ⟨hrole, hwraps⟩ := h.aliases c' hmem (hc.kind_eq.trans hkind)
  rcases hpart with hpart | hpart
  · exact absurd hrole hpart
  · rw [hwraps] at hpart
    cases hpart

theorem corresponds_child? (h : Inserted (Tame policy) n n') (role : Role) :
    Option.Rel (Corresponds policy scope scope') (n.child? role) (n'.child? role) := by
  refine rel_imp_of_mem (h.child? h.pair.1 role) fun c _ c' hc' hchild => ?_
  exact corresponds_of_mem_children h.pair.1 hchild (mem_children_of_child? hc')
    (.inl (by simp [role_of_child? hc']))

/-- The nodes that are read through lead to nodes that correspond. -/
theorem corresponds_firstNamed? (h : Inserted (Tame policy) n n')
    (hkind : n'.kind = .annotatedType ∨ n'.kind = .parenthesizedType ∨ n'.kind = .readonlyType) :
    Option.Rel (Corresponds policy scope scope') n.firstNamed? n'.firstNamed? := by
  have hwraps : n'.kind.wrapsType = true := by
    rcases hkind with hkind | hkind | hkind <;> rw [hkind] <;> rfl
  refine rel_imp_of_mem (h.firstNamed? (h.pair.2.wrappers hkind)) fun c _ c' hc' hchild => ?_
  exact corresponds_of_mem_children h.pair.1 hchild (mem_children_of_firstNamed? hc') (.inr hwraps)

/-- The members of unions correspond. -/
theorem corresponds_namedChildren (h : Inserted (Tame policy) n n') (hkind : n'.kind = .unionType) :
    List.Forall₂ (Corresponds policy scope scope') n.namedChildren n'.namedChildren := by
  have hwraps : n'.kind.wrapsType = true := by rw [hkind]; rfl
  refine forall₂_imp_of_mem (h.namedChildren_of_code (h.pair.2.unions hkind))
    fun c _ c' hc' hchild => ?_
  exact corresponds_of_mem_children h.pair.1 hchild (mem_children_of_mem_namedChildren hc')
    (.inr hwraps)

/-! ### Declarations -/

namespace Commented

variable (h : Commented policy scope scope')

include h

/-- A name means corresponding declarations. -/
theorem declaration? (name : String) :
    Option.Rel (Corresponds policy scope scope') (scope.declaration? name)
      (scope'.declaration? name) := by
  have hfound : Option.Rel (Inserted (Tame policy)) (scope.declaration? name)
      (scope'.declaration? name) :=
    rel_find? h.declarations fun d d' hd => by rw [declaredName_eq hd]
  exact rel_imp_of_mem hfound fun d hd d' hd' hinserted =>
    ⟨hinserted, fun _ => ⟨first_of_declaration? hd, first_of_declaration? hd'⟩⟩

theorem interfaces (name : String) :
    List.Forall₂ (Inserted (Tame policy)) (scope.interfaces name) (scope'.interfaces name) := by
  have hnamed : List.Forall₂ (Inserted (Tame policy)) (scope.declarationsNamed name)
      (scope'.declarationsNamed name) :=
    List.rel_filter (fun {d d'} hd => by simp only [declaredName_eq hd]) h.declarations
  exact List.rel_filter (fun {d d'} hd => by simp only [hd.kind_eq]) hnamed

theorem namesInterface_eq (name : String) :
    scope'.namesInterface name = scope.namesInterface name := by
  rw [namesInterface, namesInterface]
  match scope'.declaration? name, scope.declaration? name, h.declaration? name with
  | _, _, .none => rfl
  | _, _, .some hd => simp only [Option.any_some, hd.inserted.kind_eq]

/-- No comment names an interface. -/
theorem namesInterface_comment {c : Node} (hc : c.text.toList.head? = some '/') :
    scope'.namesInterface c.text = false := by
  rw [namesInterface]
  cases hd : scope'.declaration? c.text with
  | none => rfl
  | some d =>
      exfalso
      obtain ⟨d₀, -, hdeclared⟩ :=
        exists_left_of_forall₂ h.declarations (mem_declarations_of_declaration? hd)
      have hname : declaredName d = c.text := by simpa using List.find?_some hd
      rw [declaredName] at hname
      cases hchild : d.child? .name with
      | none =>
          rw [hchild] at hname
          rw [← hname] at hc
          cases hc
      | some name =>
          rw [hchild, Option.map_some, Option.getD_some] at hname
          rw [← hname] at hc
          exact hdeclared.pair.1.names name (mem_children_of_child? hchild)
            (role_of_child? hchild) hc

end Commented

/-! ### What interfaces extend -/

/-- The clause of what an interface extends is there in both trees, or in
neither. -/
theorem bases_cases (h : Inserted (Tame policy) n n') : (bases n = [] ∧ bases n' = []) ∨
    ∃ clause clause', Inserted (Tame policy) clause clause' ∧ clause'.kind = .extendsTypeClause ∧
      bases n = clause.namedChildren ∧ bases n' = clause'.namedChildren := by
  have hclause : Option.Rel (Inserted (Tame policy))
      (n.namedChildren.find? (·.kind = .extendsTypeClause))
      (n'.namedChildren.find? (·.kind = .extendsTypeClause)) :=
    h.find?_named (fun c hc => by simp [kind_of_isComment hc]) fun c c' hc => by rw [hc.kind_eq]
  have hkind : ∀ c ∈ n'.namedChildren.find? (·.kind = .extendsTypeClause),
      c.kind = .extendsTypeClause := fun c hc => by simpa using List.find?_some hc
  rw [bases, bases]
  generalize n.namedChildren.find? _ = x?, n'.namedChildren.find? _ = x'? at hclause hkind ⊢
  cases hclause with
  | none => exact .inl ⟨rfl, rfl⟩
  | some hinserted => exact .inr ⟨_, _, hinserted, hkind _ rfl, rfl, rfl⟩

/-- The types that an interface extends are references that correspond, comments
left out. -/
theorem bases_filter (h : Inserted (Tame policy) n n') :
    List.Forall₂ (fun b b' => Inserted (Tame policy) b b' ∧ b'.kind.isReference = true) (bases n)
      ((bases n').filter (!·.isComment)) := by
  rcases bases_cases h with ⟨hnone, hnone'⟩ | ⟨clause, clause', hclause, hkind, hbases, hbases'⟩
  · rw [hnone, hnone']
    exact .nil
  · rw [hbases, hbases']
    refine forall₂_imp_of_mem hclause.namedChildren fun b _ b' hb' hinserted => ⟨hinserted, ?_⟩
    obtain ⟨hmem, hcode⟩ := List.mem_filter.mp hb'
    have hreference := hclause.pair.1.bases hkind b' (mem_children_of_mem_namedChildren hmem)
    simpa [show b'.isComment = false by simpa using hcode] using hreference

/-- Comments among the types that an interface extends begin as comments do. -/
theorem head?_text_of_mem_bases (h : Inserted (Tame policy) n n') {c : Node} (hc : c ∈ bases n')
    (hcomment : c.isComment = true) : c.text.toList.head? = some '/' := by
  rcases bases_cases h with ⟨-, hnone'⟩ | ⟨clause, clause', hclause, -, -, hbases'⟩
  · rw [hnone'] at hc
    cases hc
  · rw [hbases'] at hc
    exact (hclause.pair.1.comments c (mem_children_of_mem_namedChildren hc) hcomment).2

/-- A reference without type arguments keeps its text. -/
theorem text_eq_of_reference (h : Inserted (Tame policy) n n')
    (hkind : n'.kind = .typeIdentifier ∨ n'.kind = .nestedTypeIdentifier) : n'.text = n.text := by
  refine h.text_eq ?_
  rcases hkind with hidentifier | hnested
  · exact h.pair.1.tokens (by rw [hidentifier]; rfl)
  · exact h.pair.2.names (.inr hnested)

/-- References keep the names by which a type is extended. -/
theorem baseName_eq {b b' : Node} (h : Inserted (Tame policy) b b')
    (hkind : b'.kind.isReference = true) : baseName b' = baseName b := by
  rw [baseName, baseName, ← h.kind_eq]
  split
  · next hgeneric =>
      have hname := name_text_eq h
      obtain ⟨name', hname'⟩ := Option.isSome_iff_exists.mp (h.pair.1.generics hgeneric)
      rw [hname'] at hname
      obtain ⟨name, hsome, htext⟩ := Option.map_eq_some_iff.mp hname.symm
      rw [hname', hsome, Option.getD_some, Option.getD_some, htext]
  · next hgeneric =>
      unfold Kind.isReference at hkind
      split at hkind
      · next hidentifier => exact text_eq_of_reference h (.inl hidentifier)
      · next hnested => exact text_eq_of_reference h (.inr hnested)
      · next hgeneric' => exact absurd hgeneric' hgeneric
      · cases hkind

namespace Commented

variable (h : Commented policy scope scope')

include h

/-- What an interface extends leads to places that correspond. -/
theorem basePlace_related {b b' : Node} (hb : Inserted (Tame policy) b b')
    (hkind : b'.kind.isReference = true) :
    Place.Related (fun _ => True) (Corresponds policy scope scope') (scope.basePlace b)
      (scope'.basePlace b') := by
  rw [basePlace, basePlace, baseName_eq hb hkind, h.namesInterface_eq]
  split
  · exact .interface trivial
  · refine .expression ⟨hb, fun halias => ?_⟩
    rw [hb.kind_eq, halias] at hkind
    cases hkind

/-- The places that an interface leads to correspond, comments left out. -/
theorem nexts (name : String) :
    List.Forall₂ (Place.Related (fun _ => True) (Corresponds policy scope scope'))
      ((scope.nexts (.interface name)).filter (!·.isComment))
      ((scope'.nexts (.interface name)).filter (!·.isComment)) := by
  have hinterfaces := h.interfaces name
  have hcomment : ∀ b ∈ (scope'.interfaces name).flatMap bases,
      (!(scope'.basePlace b).isComment) = !b.isComment := by
    intro b hb
    obtain ⟨d', hd', hbase⟩ := List.mem_flatMap.mp hb
    obtain ⟨d, -, hd⟩ := exists_left_of_forall₂ hinterfaces hd'
    rw [basePlace]
    split
    · next hnames =>
        cases hcode : b.isComment with
        | false => rfl
        | true =>
            have hgeneric : b.kind ≠ .genericType := by simp [kind_of_isComment hcode]
            rw [baseName, if_neg hgeneric,
              h.namesInterface_comment (head?_text_of_mem_bases hd hbase hcode)] at hnames
            cases hnames
    · rfl
  have hbases : List.Forall₂ (fun b b' => Inserted (Tame policy) b b' ∧ b'.kind.isReference = true)
      ((scope.interfaces name).flatMap bases)
      (((scope'.interfaces name).flatMap bases).filter (!·.isComment)) := by
    rw [List.filter_flatMap]
    exact List.rel_flatMap hinterfaces fun {d d'} hd => bases_filter hd
  have hplaces : List.Forall₂ (Place.Related (fun _ => True) (Corresponds policy scope scope'))
      (scope.nexts (.interface name))
      ((scope'.nexts (.interface name)).filter (!·.isComment)) := by
    rw [Scope.nexts, Scope.nexts, List.filter_map, Function.comp_def, List.filter_congr hcomment]
    exact List.rel_map (fun {b b'} hb => h.basePlace_related hb.1 hb.2) hbases
  have hcode := List.rel_filter (p := (!·.isComment)) (q := (!·.isComment))
    (fun {p p'} hp => by simp only [hp.isComment_eq fun _ _ hn => hn.inserted.kind_eq]) hplaces
  simpa only [List.filter_filter, Bool.and_self] using hcode

theorem ownLevels (name : String) :
    List.Forall₂ (List.Forall₂ (Corresponds policy scope scope'))
      (scope.ownLevels (.interface name)) (scope'.ownLevels (.interface name)) := by
  refine .cons (List.rel_filterMap ?_ (h.interfaces name)) .nil
  intro d d' hd
  exact corresponds_child? hd .body

end Commented

/-! ## Resolution -/

/-- Words of the language keep their class. -/
theorem class?_ofWord_eq (h : Inserted (Tame policy) n n') (hkind : n'.kind = .predefinedType) :
    (ResolvedType.ofWord n.text).class? = (ResolvedType.ofWord n'.text).class? := by
  have hnone : ∀ word : String, word.toList.head? = some 'u' →
      (ResolvedType.ofWord word).class? = none := by
    intro word hword
    unfold ResolvedType.ofWord
    split <;> first | rfl | simp at hword
  rcases h.pair.1.words hkind with hcode | hunique
  · rw [h.text_eq hcode]
  · have hkind' : n.kind ≠ .program := by simp [← h.kind_eq, hkind]
    rw [hnone _ hunique, hnone _ ((h.head?_text_eq hkind').symm.trans hunique)]

/-- Literals keep their class. -/
theorem literalType_alike {R : Node → Node → Prop} (h : Inserted (Tame policy) n n')
    (hkind : n'.kind = .literalType) :
    ResolvedType.Alike R (literalType n) (literalType n') := by
  rw [literalType, literalType]
  have hfirst := h.firstNamed? (h.pair.1.literals hkind)
  generalize n.firstNamed? = first?, n'.firstNamed? = first'? at hfirst ⊢
  cases hfirst with
  | none => exact .leaf rfl rfl rfl
  | some hliteral =>
      simp only [hliteral.kind_eq]
      split
      · exact .leaf rfl rfl rfl
      · split
        · exact .leaf rfl rfl rfl
        · split <;> exact .leaf rfl rfl rfl

namespace Commented

variable (h : Commented policy scope scope')

include h

/-- Corresponding nodes stand for corresponding ones. -/
theorem target? (hn : Corresponds policy scope scope' n n') :
    Option.Rel (Corresponds policy scope scope') (scope.target? n) (scope'.target? n') := by
  have hkind := hn.inserted.kind_eq
  rw [Scope.target?, Scope.target?, hkind]
  split
  case h_1 kind | h_2 kind | h_3 kind =>
    exact corresponds_firstNamed? hn.inserted (by simp [hkind, kind])
  case h_4 kind | h_5 kind =>
    rw [text_eq_of_reference hn.inserted (by simp [hkind, kind]), h.int32Names]
    split
    · exact .none
    · exact h.declaration? n.text
  case h_6 =>
    exact rel_declaration?_of_name (name_text_eq hn.inserted) fun name _ => h.declaration? name
  case h_7 => exact corresponds_child? hn.inserted .value
  case h_8 => exact .none

/-- Corresponding nodes have alike types by their own form. -/
theorem ownType_alike (hn : Corresponds policy scope scope' n n') :
    ResolvedType.Alike (Corresponds policy scope scope') (scope.ownType n) (scope'.ownType n') := by
  have hkind := hn.inserted.kind_eq
  rw [ownType, ownType, hkind]
  split
  case h_5 kind =>
    exact .leaf (ResolvedType.isLeaf_ofWord _) (ResolvedType.isLeaf_ofWord _)
      (class?_ofWord_eq hn.inserted (hkind.trans kind))
  case h_6 kind => exact literalType_alike hn.inserted (hkind.trans kind)
  case h_7 kind | h_8 kind =>
    rw [text_eq_of_reference hn.inserted (by simp [hkind, kind]), h.int32Names]
    split <;> exact .leaf rfl rfl rfl
  case h_10 => exact .object (.cons (.cons hn .nil) .nil)
  case h_11 => exact .function hn
  all_goals exact .leaf rfl rfl rfl

/-- Correspondence is a simulation. -/
theorem simulation : Simulation scope scope' (fun _ => True) (Corresponds policy scope scope')
    (ResolvedType.Alike (Corresponds policy scope scope')) where
  toLifts := ResolvedType.Alike.lifts _
  kind_eq hn := hn.inserted.kind_eq
  declaredName_eq hn _ := declaredName_eq hn.inserted
  alias_iff hm hn hkind hkind' := by
    obtain ⟨hfirst, hfirst'⟩ := hm.first hkind
    obtain ⟨hother, hother'⟩ := hn.first hkind'
    rw [hfirst.eq_iff hother, hfirst'.eq_iff hother', declaredName_eq hm.inserted,
      declaredName_eq hn.inserted]
  counts _ _ := trivial
  target? := h.target?
  joined hn kind := corresponds_namedChildren hn.inserted (hn.inserted.kind_eq.trans kind)
  other _ := .leaf rfl rfl rfl
  own hn _ := h.ownType_alike hn
  ownLevels _ := h.ownLevels _
  nexts _ := h.nexts _

theorem resolve_alike (hn : Corresponds policy scope scope' n n') :
    ResolvedType.Alike (Corresponds policy scope scope') (scope.resolve n) (scope'.resolve n') :=
  h.simulation.resolve hn

end Commented

/-! ## What a comment does where it is seen -/

section Seen

variable {c : Node} (hc : c.isComment = true)

include hc

/-- A comment stands for a type of no class. -/
theorem typeWithin_comment (k : Nat) (path : List Node) (seen : List String) :
    scope.typeWithin k path c seen = .other c.text := by
  rw [typeWithin, resolveWithin_comment hc]
  rfl

/-- A comment in front of the type in an annotation, a parenthesis or behind
`readonly` is taken for the type. -/
theorem resolve_of_comment_first
    (hkind : n.kind = .annotatedType ∨ n.kind = .parenthesizedType ∨ n.kind = .readonlyType)
    (hfirst : n.firstNamed? = some c) : scope.resolve n = .other c.text := by
  have halias : n.kind ≠ .typeAliasDeclaration := by
    rcases hkind with hkind | hkind | hkind <;> simp [hkind]
  rw [resolve_eq_typeWithin, typeWithin_of_leads (.wrapper hkind hfirst) maxDepth
    fun h => absurd h halias]
  exact typeWithin_comment hc maxDepth _ []

/-- A union with a comment among its members is of no class. -/
theorem isOf_resolve_of_comment_member (hkind : n.kind = .unionType) (hmem : c ∈ n.namedChildren)
    (category : TypeClass) : (scope.resolve n).isOf category = false := by
  obtain ⟨types, htype, htypes⟩ := typeWithin_union scope hkind maxDepth [] []
  obtain ⟨t, ht, seen, hcomment⟩ := exists_right_of_forall₂ htypes hmem
  rw [typeWithin_comment hc] at hcomment
  have hvariant : ResolvedType.other c.text ∈ types.flatMap ResolvedType.variants :=
    List.mem_flatMap.mpr ⟨t, ht, by simp [← hcomment, ResolvedType.variants]⟩
  rw [resolve_eq_typeWithin, htype]
  exact ResolvedType.not_isOf_of_other_mem_variants hvariant category

end Seen

end Scope

end CommandSchema
