import CommandSchema.Proofs.Typing.Mentions
import CommandSchema.Proofs.Typing.Simulation

/-!
# CommandSchema.Proofs.Typing.Rewriting

Two scopes with the same declarations up to single members.

Of two scopes only the names matter that are looked up.  A `Scope.Rewriting`
gives such names, closed under mention, for which the declarations of the second
scope are copies of those of the first, but for members that are written in
another way (`Node.Rewritten`).  Every look-up that resolution makes stays within
these names, so corresponding nodes have types that no predicate and no look-up
tells apart (`Rewriting.resolve_similar`).
-/

namespace CommandSchema

open Syntax Syntax.Node

/-! ## Rewritten nodes -/

namespace Syntax

/-- The kinds of member lists. -/
@[reducible]
def Kind.isMemberList : Kind → Bool
  | .interfaceBody | .objectType => true
  | _ => false

/-- A type declaration is no member list itself. -/
theorem Kind.isMemberList_eq_false {k : Kind} (h : k.declaresType = true) :
    k.isMemberList = false := by
  unfold declaresType at h
  split at h
  · rfl
  · rfl
  · cases h

/-- The kinds of nodes around a member list that resolution goes through. -/
@[reducible]
def Kind.surroundsMembers : Kind → Bool
  | .interfaceDeclaration | .typeAliasDeclaration | .parenthesizedType | .readonlyType
  | .unionType => true
  | _ => false

namespace Node

/-- Whether a node is a method or a property. -/
def isMember (n : Node) : Bool := n.kind = .methodSignature || n.kind = .propertySignature

section Rewritten

variable (member : Node → Node → Prop)

/-- At corresponding places inside of two nodes stands a member and another way to
write it. -/
inductive Encloses : Node → Node → Prop
  | entry {n n' m m' : Node} (list : n.kind.isMemberList = true)
      (place : (m, m') ∈ n.children.zip n'.children) (h : member m m') : Encloses n n'
  | inside {n n' c c' : Node} (place : (c, c') ∈ n.children.zip n'.children)
      (rest : Encloses c c') : Encloses n n'

/-- Two entries of a member list: copies, or members with the same name of which
the second one is written in another way. -/
inductive MemberRewritten (n n' : Node) : Prop
  | copy (h : Copy n n')
  | rewritten (left : n.isMember = true) (right : n'.isMember = true)
      (name : n'.memberName? = n.memberName?) (h : member n n')

/-- The second node is a copy of the first one, but for members that are written
in another way, directly in a member list that the node is or surrounds.  The
nodes around such members may have other texts. -/
inductive Rewritten : Node → Node → Prop
  | copy {n n' : Node} (h : Copy n n') : Rewritten n n'
  | members {n n' : Node} (kind : n'.kind = n.kind)
      (list : n.kind.isMemberList = true) (texts : n'.text = n.text ∨ Encloses member n n')
      (all : List.Forall₂ (MemberRewritten member) n.children n'.children) : Rewritten n n'
  | around {n n' : Node} (kind : n'.kind = n.kind)
      (surrounds : n.kind.surroundsMembers = true)
      (texts : n'.text = n.text ∨ Encloses member n n')
      (name : Scope.declaredName n' = Scope.declaredName n)
      (roles : n'.children.map Node.role = n.children.map Node.role)
      (all : List.Forall₂ Rewritten n.children n'.children) : Rewritten n n'

/-- Without such members no node encloses one. -/
theorem not_encloses {member : Node → Node → Prop} (hmember : ∀ n n', ¬ member n n')
    {n n' : Node} : ¬ Encloses member n n' := by
  intro h
  induction h with
  | entry _ _ h => exact hmember _ _ h
  | inside _ _ ih => exact ih

end Rewritten

namespace Rewritten

variable {member : Node → Node → Prop} {n n' : Node}

theorem kind_eq (h : Rewritten member n n') : n'.kind = n.kind := by
  cases h with
  | copy h => exact copying_copy.kind h
  | members kind | around kind => exact kind

/-- Other texts are those of nodes around members that are written in another
way. -/
theorem text_eq_or_encloses (h : Rewritten member n n') :
    n'.text = n.text ∨ Encloses member n n' := by
  cases h with
  | copy h => exact .inl (copying_copy.text h)
  | members _ _ texts | around _ _ texts => exact texts

/-- Only member lists and what surrounds them are more than copies. -/
theorem copy_of_kind (h : Rewritten member n n') (hlist : n.kind.isMemberList = false)
    (hsurrounds : n.kind.surroundsMembers = false) : Copy n n' := by
  cases h with
  | copy h => exact h
  | members _ list => simp [hlist] at list
  | around _ surrounds => simp [hsurrounds] at surrounds

theorem children (h : Rewritten member n n') (hlist : n.kind.isMemberList = false) :
    List.Forall₂ (Rewritten member) n.children n'.children := by
  cases h with
  | copy h => exact (copying_copy.children h).imp fun _ _ => .copy
  | members _ list => simp [hlist] at list
  | around _ _ _ _ _ all => exact all

theorem roles_eq (h : Rewritten member n n') (hlist : n.kind.isMemberList = false) :
    n'.children.map Node.role = n.children.map Node.role := by
  cases h with
  | copy h => exact copying_copy.roles h
  | members _ list => simp [hlist] at list
  | around _ _ _ _ roles => exact roles

theorem declaredName_eq (h : Rewritten member n n') (hlist : n.kind.isMemberList = false) :
    Scope.declaredName n' = Scope.declaredName n := by
  cases h with
  | copy h => exact copying_copy.declaredName_eq h
  | members _ list => simp [hlist] at list
  | around _ _ _ name => exact name

end Rewritten

end Node

end Syntax

/-! ## Types with corresponding nodes -/

namespace ResolvedType

/-- Types of the same form whose nodes are related, with any texts. -/
inductive Similar (R : Node → Node → Prop) : ResolvedType → ResolvedType → Prop
  | leaf {t : ResolvedType} (h : t.isLeaf = true) : Similar R t t
  | other (text text' : String) : Similar R (.other text) (.other text')
  | object (text text' : String) {levels levels' : List (List Node)}
      (all : List.Forall₂ (List.Forall₂ R) levels levels') :
      Similar R (.object text levels) (.object text' levels')
  | function {n n' : Node} (kind : n.kind = .functionType) (signature : R n n') :
      Similar R (.function n) (.function n')
  | union {ts ts' : List ResolvedType} (all : List.Forall₂ (Similar R) ts ts') :
      Similar R (.union ts) (.union ts')

namespace Similar

variable {R : Node → Node → Prop}

/-- Similar types are alike. -/
theorem alike {t t' : ResolvedType} (h : Similar R t t') : Alike R t t' := by
  cases h with
  | leaf h => exact .leaf h h rfl
  | other => exact .leaf rfl rfl rfl
  | object _ _ all => exact .object all
  | function _ signature => exact .function signature
  | @union ts ts' all => exact .union (forall₂_imp_of_mem all fun v hv v' _ hsame => hsame.alike)
termination_by sizeOf t
decreasing_by
  have hlt := List.sizeOf_lt_of_mem hv
  simp only [union.sizeOf_spec]
  omega

/-- Similar types have similar variants. -/
theorem variants {t t' : ResolvedType} (h : Similar R t t') :
    List.Forall₂ (Similar R) t.variants t'.variants := by
  cases h with
  | leaf h =>
      rw [variants_of_not_isUnion (isUnion_of_isLeaf h)]
      exact .cons (.leaf h) .nil
  | other => exact .cons (.other _ _) .nil
  | object _ _ all => exact .cons (.object _ _ all) .nil
  | function kind signature => exact .cons (.function kind signature) .nil
  | union all => exact all

end Similar

end ResolvedType

/-! ## Rewritten scopes -/

namespace Scope

/-- A scope and the one that it is rewritten to.  Names that count mention none
but such names, and their declarations are rewritten in order. -/
structure Rewriting where
  scope : Scope
  scope' : Scope
  /-- The names that count. -/
  names : String → Prop
  /-- Members that are written in another way. -/
  member : Node → Node → Prop
  int32Names : scope'.int32Names = scope.int32Names
  declarations : ∀ name, names name → List.Forall₂ (Rewritten member)
    (scope.declarationsNamed name) (scope'.declarationsNamed name)
  within : ∀ name, names name → ∀ d ∈ scope.declarationsNamed name, d.RefersWithin names

namespace Rewriting

variable (w : Rewriting) {n n' : Node} {name : String}

/-- The second node is what the first one is rewritten to.  Declarations have to
be declarations of names that count, and aliases the first ones. -/
structure Linked (n n' : Node) : Prop where
  rewritten : Rewritten w.member n n'
  within : n.RefersWithin w.names
  declared : n.kind.declaresType = true → w.names (declaredName n)
  first : n.kind = .typeAliasDeclaration → w.scope.First n ∧ w.scope'.First n'

variable {w}

/-! ### Children -/

/-- What declares no type is linked when it is rewritten. -/
theorem linked_of_rewritten (h : Rewritten w.member n n')
    (hwithin : n.RefersWithin w.names) (hkind : n.kind.declaresType = false) : w.Linked n n' where
  rewritten := h
  within := hwithin
  declared hdeclares := by simp [hkind] at hdeclares
  first halias := by simp [halias, Kind.declaresType] at hkind

theorem linked_of_copy (h : CopyWithin w.names n n') (hkind : n.kind.declaresType = false) :
    w.Linked n n' :=
  linked_of_rewritten (.copy h.copy) h.within hkind

namespace Linked

variable (hn : w.Linked n n')

include hn

/-- A linked node of any other kind than those around members is a copy. -/
theorem copyWithin (hlist : n.kind.isMemberList = false)
    (hsurrounds : n.kind.surroundsMembers = false) : CopyWithin w.names n n' :=
  ⟨hn.rewritten.copy_of_kind hlist hsurrounds, hn.within⟩

section Children

variable (hlist : n.kind.isMemberList = false) (hstatements : n.kind.holdsStatements = false)

include hlist hstatements

theorem children : List.Forall₂ w.Linked n.children n'.children :=
  forall₂_imp_of_mem (hn.rewritten.children hlist) fun _ hc _ _ hchild =>
    linked_of_rewritten hchild (hn.within.of_mem_children hc)
      (hn.within.lawful.declaresType_eq_false hstatements hc)

theorem namedChildren : List.Forall₂ w.Linked n.namedChildren n'.namedChildren :=
  List.rel_filter (fun {c c'} hc => by simp only [isNamed, hc.rewritten.kind_eq])
    (hn.children hlist hstatements)

theorem child? (role : Role) : Option.Rel w.Linked (n.child? role) (n'.child? role) :=
  rel_child? (hn.children hlist hstatements) (hn.rewritten.roles_eq hlist) role

theorem firstNamed? : Option.Rel w.Linked n.firstNamed? n'.firstNamed? :=
  rel_head? (hn.namedChildren hlist hstatements)

end Children

end Linked

/-! ### Declarations -/

section Names

variable (hname : w.names name)

include hname

/-- All declarations of a name are linked, but that aliases need not be the first
ones. -/
theorem declarationsNamed_rel :
    List.Forall₂ (fun d d' => Rewritten w.member d d' ∧ d.RefersWithin w.names)
      (w.scope.declarationsNamed name) (w.scope'.declarationsNamed name) :=
  forall₂_imp_of_mem (w.declarations name hname) fun d hd _ _ h => ⟨h, w.within name hname d hd⟩

/-- A name means linked declarations. -/
theorem declaration?_rel :
    Option.Rel w.Linked (w.scope.declaration? name) (w.scope'.declaration? name) := by
  have hfirst : Option.Rel
      (fun d d' => Rewritten w.member d d' ∧ d.RefersWithin w.names)
      (w.scope.declaration? name) (w.scope'.declaration? name) := by
    rw [declaration?_eq_head?, declaration?_eq_head?]
    exact rel_head? (declarationsNamed_rel hname)
  refine rel_imp_of_mem hfirst fun d hd d' hd' hrewritten => ?_
  have hdeclared : declaredName d = name := by simpa using List.find?_some hd
  exact ⟨hrewritten.1, hrewritten.2, fun _ => hdeclared ▸ hname,
    fun _ => ⟨first_of_declaration? hd, first_of_declaration? hd'⟩⟩

theorem namesInterface_eq : w.scope'.namesInterface name = w.scope.namesInterface name := by
  have hdeclared := declaration?_rel hname
  rw [namesInterface, namesInterface]
  match w.scope.declaration? name, w.scope'.declaration? name, hdeclared with
  | _, _, .none => rfl
  | _, _, .some hd => simp only [Option.any_some, hd.rewritten.kind_eq]

/-- The interfaces of a name are rewritten. -/
theorem interfaces_rel :
    List.Forall₂ (fun d d' => Rewritten w.member d d' ∧ d.RefersWithin w.names ∧
        d.kind = .interfaceDeclaration)
      (w.scope.interfaces name) (w.scope'.interfaces name) := by
  have hinterfaces : List.Forall₂
      (fun d d' => Rewritten w.member d d' ∧ d.RefersWithin w.names)
      (w.scope.interfaces name) (w.scope'.interfaces name) :=
    List.rel_filter (fun {d d'} hd => by simp only [hd.1.kind_eq]) (declarationsNamed_rel hname)
  refine forall₂_imp_of_mem hinterfaces fun d hd d' _ h => ⟨h.1, h.2, ?_⟩
  simpa using (List.mem_filter.mp hd).2

end Names

/-! ### Bases -/

/-- The types that an interface extends are copies, and are looked up by names
that count. -/
theorem bases_rel (h : Rewritten w.member n n') (hwithin : n.RefersWithin w.names)
    (hkind : n.kind = .interfaceDeclaration) :
    List.Forall₂ (fun b b' => CopyWithin w.names b b' ∧ b.kind.declaresType = false ∧
      w.names (baseName b)) (bases n) (bases n') := by
  have hnamed : List.Forall₂ (Rewritten w.member) n.namedChildren n'.namedChildren :=
    List.rel_filter (fun {c c'} hc => by simp only [isNamed, hc.kind_eq])
      (h.children (by rw [hkind]))
  have hclause := rel_find? (p := (·.kind = .extendsTypeClause))
    (q := (·.kind = .extendsTypeClause)) hnamed fun c c' hc => by rw [hc.kind_eq]
  have hfound : ∀ c ∈ n.namedChildren.find? (·.kind = .extendsTypeClause),
      c ∈ n.children ∧ c.kind = .extendsTypeClause := fun c hc =>
    ⟨mem_children_of_mem_namedChildren (List.mem_of_find?_eq_some hc),
      by simpa using List.find?_some hc⟩
  rw [bases, bases]
  generalize n.namedChildren.find? _ = clause?, n'.namedChildren.find? _ = clause'?
    at hclause hfound ⊢
  cases hclause with
  | none => exact .nil
  | @some clause clause' hclause =>
      obtain ⟨hmem, hextends⟩ := hfound clause rfl
      have hinside := hwithin.of_mem_children hmem
      have hcopy : CopyWithin w.names clause clause' :=
        ⟨hclause.copy_of_kind (by rw [hextends]) (by rw [hextends]), hinside⟩
      refine forall₂_imp_of_mem ((copying_copyWithin w.names).namedChildren hcopy)
        fun b hb b' _ hbase => ⟨hbase, ?_, ?_⟩
      · exact hinside.lawful.declaresType_eq_false (by rw [hextends])
          (mem_children_of_mem_namedChildren hb)
      · refine hinside.mentioned ?_
        rw [mentioned, hextends]
        exact List.mem_map_of_mem hb

/-- What an interface extends leads to linked places. -/
theorem basePlace_rel {b b' : Node} (hcopy : CopyWithin w.names b b')
    (hkind : b.kind.declaresType = false) (hname : w.names (baseName b)) :
    Place.Related w.names w.Linked (w.scope.basePlace b) (w.scope'.basePlace b') := by
  rw [basePlace, basePlace, (copying_copyWithin w.names).baseName_eq hcopy,
    namesInterface_eq hname]
  split
  · exact .interface hname
  · exact .expression (linked_of_copy hcopy hkind)

section Levels

variable (hname : w.names name)

include hname

/-- The places that an interface leads to are linked. -/
theorem nexts_rel : List.Forall₂ (Place.Related w.names w.Linked)
    (w.scope.nexts (.interface name)) (w.scope'.nexts (.interface name)) := by
  have hbases : List.Forall₂ (fun b b' => CopyWithin w.names b b' ∧ b.kind.declaresType = false ∧
      w.names (baseName b)) ((w.scope.interfaces name).flatMap bases)
      ((w.scope'.interfaces name).flatMap bases) :=
    List.rel_flatMap (interfaces_rel hname) fun {d d'} hd => bases_rel hd.1 hd.2.1 hd.2.2
  rw [nexts, nexts]
  exact List.rel_map (fun {b b'} hb => basePlace_rel hb.1 hb.2.1 hb.2.2) hbases

/-- The member lists of the interfaces of a name are linked. -/
theorem ownLevels_rel : List.Forall₂ (List.Forall₂ w.Linked)
    (w.scope.ownLevels (.interface name)) (w.scope'.ownLevels (.interface name)) := by
  refine .cons (List.rel_filterMap ?_ (interfaces_rel hname)) .nil
  intro d d' hd
  obtain ⟨hrewritten, hwithin, hkind⟩ := hd
  have hlist : d.kind.isMemberList = false := by rw [hkind]
  have hbody := rel_child? (hrewritten.children hlist) (hrewritten.roles_eq hlist) .body
  refine rel_imp_of_mem hbody fun b hb b' _ h => ?_
  have hmem : b ∈ d.children := mem_children_of_child? hb
  exact linked_of_rewritten h (hwithin.of_mem_children hmem)
    (hwithin.lawful.declaresType_eq_false (by rw [hkind]) hmem)

end Levels

/-! ### Resolution -/

/-- The types that linked nodes stand for are similar. -/
abbrev SimilarTypes (w : Rewriting) : ResolvedType → ResolvedType → Prop :=
  ResolvedType.Similar w.Linked

theorem isLeaf_literalType (n : Node) : (literalType n).isLeaf = true := by
  rcases literalType_cases n with ⟨_, h⟩ | ⟨_, h⟩ | h <;> rw [h] <;> rfl

/-- Linked nodes stand for linked ones. -/
theorem target?_rel (hn : w.Linked n n') :
    Option.Rel w.Linked (w.scope.target? n) (w.scope'.target? n') := by
  have hcopying := copying_copyWithin w.names
  rw [target?, target?, hn.rewritten.kind_eq]
  split
  case h_1 kind | h_2 kind | h_3 kind => exact hn.firstNamed? (by rw [kind]) (by rw [kind])
  case h_4 kind | h_5 kind =>
    rw [hcopying.text (hn.copyWithin (by rw [kind]) (by rw [kind])), w.int32Names]
    split
    · exact .none
    · exact declaration?_rel (hn.within.mentioned (by simp [mentioned, kind]))
  case h_6 kind =>
    have hcopy := hn.copyWithin (by rw [kind]) (by rw [kind])
    refine rel_declaration?_of_name (hcopying.map_text_child? hcopy .name) fun name hname =>
      declaration?_rel (hn.within.mentioned ?_)
    rw [mentioned, kind]
    exact Option.mem_toList.mpr hname
  case h_7 kind => exact hn.child? (by rw [kind]) (by rw [kind]) .value
  case h_8 => exact .none

/-- Linked nodes have similar types by their own form. -/
theorem ownType_similar (hn : w.Linked n n') :
    w.SimilarTypes (w.scope.ownType n) (w.scope'.ownType n') := by
  have hcopying := copying_copyWithin w.names
  rw [ownType, ownType, hn.rewritten.kind_eq]
  split
  case h_1 | h_2 | h_3 | h_4 => exact .leaf rfl
  case h_5 kind =>
    rw [hcopying.text (hn.copyWithin (by rw [kind]) (by rw [kind]))]
    exact .leaf (ResolvedType.isLeaf_ofWord _)
  case h_6 kind =>
    rw [hcopying.literalType_eq (hn.copyWithin (by rw [kind]) (by rw [kind]))]
    exact .leaf (isLeaf_literalType n)
  case h_7 kind | h_8 kind =>
    rw [hcopying.text (hn.copyWithin (by rw [kind]) (by rw [kind])), w.int32Names]
    split <;> exact .leaf rfl
  case h_9 kind =>
    rw [hcopying.text (hn.copyWithin (by rw [kind]) (by rw [kind]))]
    exact .leaf rfl
  case h_10 => exact .object _ _ (.cons (.cons hn .nil) .nil)
  case h_11 kind => exact .function kind hn
  case h_12 => exact .other _ _

/-- **Resolution and the walk over a hierarchy do not tell the two scopes
apart.** -/
theorem simulation (w : Rewriting) :
    Simulation w.scope w.scope' w.names w.Linked w.SimilarTypes where
  object := .object _ _
  union := .union
  variants := ResolvedType.Similar.variants
  levels ht := ht.alike.levels
  kind_eq hn := hn.rewritten.kind_eq
  declaredName_eq hn kind := hn.rewritten.declaredName_eq (Kind.isMemberList_eq_false kind)
  alias_iff hm hn hkind hkind' := by
    obtain ⟨hfirst, hfirst'⟩ := hm.first hkind
    obtain ⟨hother, hother'⟩ := hn.first hkind'
    have hlist {n : Node} (kind : n.kind = .typeAliasDeclaration) : n.kind.isMemberList = false :=
      Kind.isMemberList_eq_false (by rw [kind])
    rw [hfirst.eq_iff hother, hfirst'.eq_iff hother', hm.rewritten.declaredName_eq (hlist hkind),
      hn.rewritten.declaredName_eq (hlist hkind')]
  counts hn kind := hn.declared (by rw [kind])
  target? := target?_rel
  joined hn kind := hn.namedChildren (by rw [kind]) (by rw [kind])
  other _ := .other _ _
  own hn _ := ownType_similar hn
  ownLevels := ownLevels_rel
  nexts hname := List.rel_filter
    (fun {p p'} hp => by simp only [hp.isComment_eq fun _ _ hn => hn.rewritten.kind_eq])
    (nexts_rel hname)

/-- **Linked nodes stand for similar types.** -/
theorem resolve_similar (hn : w.Linked n n') :
    w.SimilarTypes (w.scope.resolve n) (w.scope'.resolve n') :=
  w.simulation.resolve hn

end Rewriting

end Scope

end CommandSchema
