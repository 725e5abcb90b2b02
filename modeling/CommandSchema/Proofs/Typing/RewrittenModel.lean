import CommandSchema.Proofs.Contract.Agreement
import CommandSchema.Proofs.Typing.QuotedTexts

/-!
# CommandSchema.Proofs.Typing.RewrittenModel

The type models of a scope and the one that it is rewritten to.

Members that are copies are declared alike (`Rewriting.declaration_alike`), and so
are call signatures.  With resolution this makes the two models agree
(`Rewriting.agree_model`).  What a look-up finds are copies or members that are
written in another way, so the extraction of commands agrees as soon as the
declarations of the latter do (`Rewriting.extract_agree`).
-/

namespace CommandSchema

open Syntax Syntax.Node

/-! ## Entries of rewritten nodes -/

namespace Syntax.Node

variable {member : Node → Node → Prop} {n n' c c' : Node}

theorem isMember_iff : n.isMember = true ↔
    n.kind = .methodSignature ∨ n.kind = .propertySignature := by
  simp [isMember]

/-- Entries of a member list are rewritten as entries or as nodes. -/
def EntryRewritten (member : Node → Node → Prop) (c c' : Node) : Prop :=
  MemberRewritten member c c' ∨ Rewritten member c c'

namespace EntryRewritten

variable (h : EntryRewritten member c c')

include h

/-- An entry keeps its kind, unless it is a member and stays one. -/
theorem kind_eq_or_isMember : c'.kind = c.kind ∨ c.isMember = true ∧ c'.isMember = true := by
  rcases h with h | h
  · cases h with
    | copy h => exact .inl (copying_copy.kind h)
    | rewritten left right => exact .inr ⟨left, right⟩
  · exact .inl h.kind_eq

theorem isMember_eq : c'.isMember = c.isMember := by
  rcases h.kind_eq_or_isMember with hkind | ⟨left, right⟩
  · rw [isMember, isMember, hkind]
  · rw [left, right]

/-- A member is rewritten as one. -/
theorem memberRewritten (hmember : c.isMember = true) : MemberRewritten member c c' := by
  rcases h with h | h
  · exact h
  · rcases isMember_iff.mp hmember with hkind | hkind <;>
      exact .copy (h.copy_of_kind (by rw [hkind]) (by rw [hkind]))

theorem isCallSignature_eq :
    decide (c'.kind = .callSignature) = decide (c.kind = .callSignature) := by
  rcases h.kind_eq_or_isMember with hkind | ⟨left, right⟩
  · rw [hkind]
  · rcases isMember_iff.mp left with hleft | hleft <;>
      rcases isMember_iff.mp right with hright | hright <;> simp [hleft, hright]

theorem copy_of_callSignature (hkind : c.kind = .callSignature) : Copy c c' := by
  rcases h with h | h
  · cases h with
    | copy h => exact h
    | rewritten left => simp [isMember, hkind] at left
  · exact h.copy_of_kind (by rw [hkind]) (by rw [hkind])

end EntryRewritten

theorem MemberRewritten.memberName?_eq (h : MemberRewritten member n n') :
    n'.memberName? = n.memberName? := by
  cases h with
  | copy h => exact copying_copy.memberName?_eq h
  | rewritten _ _ name => exact name

namespace Rewritten

variable (h : Rewritten member n n')

include h

/-- The named children of rewritten nodes are rewritten. -/
theorem entries :
    List.Forall₂ (EntryRewritten member) n.namedChildren n'.namedChildren := by
  have hchildren : List.Forall₂ (EntryRewritten member) n.children n'.children := by
    cases h with
    | copy h => exact (copying_copy.children h).imp fun _ _ hc => .inl (.copy hc)
    | members _ _ _ all => exact all.imp fun _ _ => .inl
    | around _ _ _ _ _ all => exact all.imp fun _ _ => .inr
  refine List.rel_filter (fun {c c'} hc => ?_) hchildren
  rcases hc.kind_eq_or_isMember with hkind | ⟨left, right⟩
  · simp only [isNamed, hkind]
  · rcases isMember_iff.mp left with hleft | hleft <;>
      rcases isMember_iff.mp right with hright | hright <;> simp [isNamed, hleft, hright]

/-- Members with a name are rewritten. -/
theorem membersNamed (name : String) :
    List.Forall₂ (fun c c' => MemberRewritten member c c' ∧ c.isMember = true)
      (n.membersNamed name) (n'.membersNamed name) := by
  have hsame : ∀ c c', EntryRewritten member c c' →
      (c.isMember && decide (c.memberName? = some name)) =
        (c'.isMember && decide (c'.memberName? = some name)) := by
    intro c c' hc
    rw [hc.isMember_eq]
    cases hmember : c.isMember with
    | false => rfl
    | true => rw [(hc.memberRewritten hmember).memberName?_eq]
  have hkept : List.Forall₂ (EntryRewritten member) (n.membersNamed name)
      (n'.membersNamed name) :=
    List.rel_filter (fun {c c'} hc => Bool.eq_iff_iff.mp (hsame c c' hc)) h.entries
  refine forall₂_imp_of_mem hkept fun c hc _ _ hentry => ?_
  have hmember : c.isMember = true := (Bool.and_eq_true_iff.mp (List.mem_filter.mp hc).2).1
  exact ⟨hentry.memberRewritten hmember, hmember⟩

/-- Call signatures are copied. -/
theorem callSignatures :
    List.Forall₂ Copy (n.namedChildren.filter (·.kind = .callSignature))
      (n'.namedChildren.filter (·.kind = .callSignature)) := by
  have hkept : List.Forall₂ (EntryRewritten member)
      (n.namedChildren.filter (·.kind = .callSignature))
      (n'.namedChildren.filter (·.kind = .callSignature)) :=
    List.rel_filter (fun {c c'} hc => Bool.eq_iff_iff.mp hc.isCallSignature_eq.symm) h.entries
  exact forall₂_imp_of_mem hkept fun c hc _ _ hentry =>
    hentry.copy_of_callSignature (by simpa using (List.mem_filter.mp hc).2)

end Rewritten

end Syntax.Node

namespace Scope.Rewriting

variable {w : Rewriting} {n n' : Node}

/-! ## Parts that carry types -/

/-- Copies that declare no type. -/
structure TypeCopy (w : Rewriting) (n n' : Node) : Prop where
  copy : CopyWithin w.names n n'
  plain : n.kind.declaresType = false

theorem TypeCopy.linked (h : w.TypeCopy n n') : w.Linked n n' := linked_of_copy h.copy h.plain

/-- The parts of a node that holds no statements are copies. -/
theorem typeCopy_child? (hn : CopyWithin w.names n n') (hkind : n.kind.holdsStatements = false)
    (role : Role) : Option.Rel w.TypeCopy (n.child? role) (n'.child? role) :=
  rel_imp_of_mem ((copying_copyWithin w.names).child? hn role) fun _ hc _ _ hcopy =>
    ⟨hcopy, hn.within.lawful.declaresType_eq_false hkind (mem_children_of_child? hc)⟩

/-- Annotations carry copies. -/
theorem TypeCopy.unannotated (h : w.TypeCopy n n') : w.TypeCopy n.unannotated n'.unannotated := by
  have hcopying := copying_copyWithin w.names
  rw [Node.unannotated, Node.unannotated, hcopying.kind h.copy]
  split
  · next hkind =>
      have hplain : ∀ c ∈ n.firstNamed?, c.kind.declaresType = false := fun c hc =>
        h.copy.within.lawful.declaresType_eq_false (by rw [hkind])
          (mem_children_of_firstNamed? hc)
      match n.firstNamed?, n'.firstNamed?, hcopying.firstNamed? h.copy, hplain with
      | _, _, .none, _ => exact h
      | _, _, .some hcopy, hplain => exact ⟨hcopy, hplain _ rfl⟩
  · exact h

/-- Parts that carry types carry copies. -/
theorem typeCopy_map_unannotated (hn : CopyWithin w.names n n')
    (hkind : n.kind.holdsStatements = false) (role : Role) :
    Option.Rel w.TypeCopy ((n.child? role).map Node.unannotated)
      ((n'.child? role).map Node.unannotated) :=
  rel_map (typeCopy_child? hn hkind role) fun _ _ => TypeCopy.unannotated

/-- What copies of one type expression stand for, or a type without nodes on both
sides. -/
inductive SameExpression (w : Rewriting) : ResolvedType → ResolvedType → Prop
  | leaf {t : ResolvedType} (h : t.isLeaf = true) : SameExpression w t t
  | written {n n' : Node} (h : w.TypeCopy n n') :
      SameExpression w (w.scope.resolve n) (w.scope'.resolve n')

namespace SameExpression

variable {t t' : ResolvedType} (h : w.SameExpression t t')

include h

theorem similar : w.SimilarTypes t t' := by
  cases h with
  | leaf h => exact .leaf h
  | written h => exact resolve_similar h.linked

/-- Where no member is written in another way all texts stay the same. -/
theorem text_eq (hmember : ∀ n n', ¬ w.member n n') : t'.text = t.text := by
  cases h with
  | leaf => rfl
  | written h =>
      refine ResolvedType.text_eq_of_variants ((quotes_resolve h.linked).imp fun v v' hv => ?_)
      cases hv with
      | same text => exact text
      | object _ _ _ encloses | stopped _ _ encloses =>
          exact absurd encloses (not_encloses hmember)

end SameExpression

/-! ## Members and signatures -/

/-- Places of a parameter list hold the same plain parameter, or none. -/
theorem parameterSite_alike (hn : CopyWithin w.names n n') :
    ParameterSite.Alike w.TypeCopy (· = ·) n.parameterSite n'.parameterSite := by
  have hcopying := copying_copyWithin w.names
  have hother : ParameterSite.Alike w.TypeCopy (· = ·) (.other n.text) (.other n'.text) :=
    .other (hcopying.text hn).symm
  rw [parameterSite, parameterSite]
  match n.child? .pattern, n'.child? .pattern, hcopying.child? hn .pattern with
  | _, _, .none => exact hother
  | _, _, .some hpattern =>
      simp only [hcopying.kind hn, hcopying.kind hpattern, hcopying.text hpattern]
      split
      · next hplain =>
          have hkind : n.kind.holdsStatements = false := by
            rcases hplain.1 with hkind | hkind <;> rw [hkind]
          exact .plain (typeCopy_map_unannotated hn hkind .type)
      · exact hother

/-- Parameter lists hold the same places. -/
theorem parameterSites_alike
    (hlist : Option.Rel (CopyWithin w.names) (n.child? .parameters) (n'.child? .parameters)) :
    List.Forall₂ (ParameterSite.Alike w.TypeCopy (· = ·)) n.parameterSites n'.parameterSites := by
  rw [parameterSites, parameterSites]
  match n.child? .parameters, n'.child? .parameters, hlist with
  | _, _, .none => exact .nil
  | _, _, .some hlist =>
      exact List.rel_map (fun {c c'} hc => parameterSite_alike hc)
        ((copying_copyWithin w.names).filter_kind hlist fun kind => !decide (kind = .comment))

/-- Members that are copies are declared alike. -/
theorem declaration_alike (hn : CopyWithin w.names n n') (hmember : n.isMember = true) :
    Declaration.Alike w.TypeCopy (· = ·) n.declaration n'.declaration := by
  have hcopying := copying_copyWithin w.names
  have hstatements : n.kind.holdsStatements = false := by
    rcases isMember_iff.mp hmember with hkind | hkind <;> rw [hkind]
  rw [declaration, declaration, hcopying.kind hn]
  split
  · rw [hcopying.isOptional_eq hn, hcopying.typeParameterCount_eq hn]
    exact .method (parameterSites_alike (hcopying.child? hn .parameters))
      (typeCopy_map_unannotated hn hstatements .returnType)
  · rw [hcopying.isOptional_eq hn]
    exact .property (typeCopy_map_unannotated hn hstatements .type)
  · exact .other

/-- Signatures that are copies are alike. -/
theorem callSignature_alike (hn : CopyWithin w.names n n')
    (hkind : n.kind.holdsStatements = false) :
    CallSignature.Alike w.TypeCopy w.SameExpression (· = ·) (w.scope.callSignature n)
      (w.scope'.callSignature n') where
  typeParameters := ((copying_copyWithin w.names).typeParameterCount_eq hn).symm
  parameters := parameterSites_alike ((copying_copyWithin w.names).child? hn .parameters)
  result := by
    have hresult := rel_map (typeCopy_map_unannotated hn hkind .returnType)
      fun _ _ ht => SameExpression.written ht
    rw [callSignature, callSignature]
    simp only [result?]
    generalize Option.map w.scope.resolve _ = t?, Option.map w.scope'.resolve _ = t'?
      at hresult ⊢
    cases hresult with
    | none => exact .leaf rfl
    | some ht => exact ht

/-! ## Look-ups -/

/-- What a look-up finds in both scopes: members within the names that count, of
which the second one may be written in another way. -/
structure SiteLinked (w : Rewriting) (n n' : Node) : Prop where
  rewritten : MemberRewritten w.member n n'
  within : n.RefersWithin w.names
  isMember : n.isMember = true

theorem Linked.membersNamed (hn : w.Linked n n') (name : String) :
    List.Forall₂ w.SiteLinked (n.membersNamed name) (n'.membersNamed name) :=
  forall₂_imp_of_mem (hn.rewritten.membersNamed name) fun _ hc _ _ h =>
    ⟨h.1, hn.within.of_mem_children (mem_children_of_mem_namedChildren (List.mem_filter.mp hc).1),
      h.2⟩

theorem memberSites?_rel {t t' : ResolvedType} (h : w.SimilarTypes t t') (name : String) :
    Option.Rel (List.Forall₂ w.SiteLinked) (t.memberSites? name) (t'.memberSites? name) := by
  rw [memberSites?_eq_firstSites, memberSites?_eq_firstSites]
  exact firstSites_rel h.alike.levels fun _ _ hn => hn.membersNamed name

/-- Similar types can be called in the same ways. -/
theorem callSignatures_rel {t t' : ResolvedType} (h : w.SimilarTypes t t') :
    List.Forall₂ (CallSignature.Alike w.TypeCopy w.SameExpression (· = ·))
      (w.scope.model.callSignatures t) (w.scope'.model.callSignatures t') := by
  have hnodes : List.Forall₂ (fun n n' => CopyWithin w.names n n' ∧
      n.kind.holdsStatements = false) t.signatureNodes t'.signatureNodes := by
    cases h with
    | leaf h =>
        rw [ResolvedType.signatureNodes_of_isLeaf h]
        exact .nil
    | other | union => exact .nil
    | function kind signature =>
        refine .cons ⟨signature.copyWithin ?_ ?_, ?_⟩ .nil <;> rw [kind]
    | object _ _ all =>
        refine List.rel_flatMap (List.rel_flatten all) fun {b b'} hb => ?_
        refine forall₂_imp_of_mem hb.rewritten.callSignatures fun c hc _ _ hcopy => ?_
        obtain ⟨hmem, hkind⟩ := List.mem_filter.mp hc
        refine ⟨⟨hcopy, hb.within.of_mem_children (mem_children_of_mem_namedChildren hmem)⟩, ?_⟩
        rw [show c.kind = .callSignature by simpa using hkind]
  exact List.rel_map (fun {n n'} hn => callSignature_alike hn.1 hn.2) hnodes

/-! ## The models -/

/-- The texts that the two sides report: the same ones, but that those of types are
the texts of what copies of an expression stand for. -/
def texts (w : Rewriting) : ReportTexts where
  place := (· = ·)
  expression := (· = ·)
  type text text' := ∃ t t', w.SameExpression t t' ∧ t.text = text ∧ t'.text = text'
  expression_refl _ := rfl
  type_refl text := ⟨.other text, .other text, .leaf rfl, rfl, rfl⟩

/-- **The two models agree.** -/
theorem agree_model (w : Rewriting) (policy : RefPolicy) :
    TypeModel.Agree w.TypeCopy w.SameExpression w.texts policy w.scope.model w.scope'.model where
  resolve _ _ hn := .written hn
  callSignatures _ _ ht := callSignatures_rel ht.similar
  isString _ _ ht := ht.similar.alike.isOf_eq .string
  isBoolean _ _ ht := ht.similar.alike.isOf_eq .boolean
  isInt32 _ _ ht := ht.similar.alike.isOf_eq .int32
  isVoid _ _ ht := ht.similar.alike.isOf_eq .void
  accepts n n' hn := by
    have hreference : n'.reference? = n.reference? :=
      (copying_copyWithin w.names).reference?_eq hn.copy
    rw [model, model]
    simp only [hreference]
  exprText _ _ hn := ((copying_copyWithin w.names).text hn.copy).symm
  typeText t t' ht := ⟨t, t', ht, rfl, rfl⟩

/-- The declarations of the members that are written in another way agree. -/
def MembersAgree (w : Rewriting) : Prop :=
  ∀ m m', m.RefersWithin w.names → w.member m m' →
    Contract.DeclarationAgree w.TypeCopy w.SameExpression w.texts w.scope.model w.scope'.model
      m.declaration m'.declaration

section Owners

variable (hmembers : w.MembersAgree) {owner owner' : Node}
  (hsites : ∀ name, Option.Rel (List.Forall₂ w.SiteLinked)
    ((w.scope.resolve owner).memberSites? name) ((w.scope'.resolve owner').memberSites? name))

include hmembers hsites

/-- What a look-up finds on owners whose members are linked agrees, where the
declarations of members that are written in another way do. -/
theorem declarations?_agree (name : String) :
    Option.Rel (List.Forall₂ (Contract.DeclarationAgree w.TypeCopy w.SameExpression w.texts
        w.scope.model w.scope'.model))
      (w.scope.model.declarations? (w.scope.resolve owner) name)
      (w.scope'.model.declarations? (w.scope'.resolve owner') name) := by
  refine rel_map (hsites name) fun sites sites' h => ?_
  refine List.rel_map (fun {m m'} hm => ?_) h
  cases hm.rewritten with
  | copy hcopy =>
      exact Contract.signatureOf_agree (w.agree_model ⟨.reference, []⟩).toAgreeOnShapes
        (declaration_alike ⟨hcopy, hm.within⟩ hm.isMember)
  | rewritten _ _ _ h => exact hmembers m m' hm.within h

/-- **Extraction agrees**: where the declarations of members that are written in
another way agree, requests for two owners whose members are linked have the same
commands, or are rejected at the same command for breaking the same rule. -/
theorem extract_agree (policy : RefPolicy) (names : List String) :
    AlikeOutcomes (Rejection.Agree w.texts owner.text owner'.text) (· = ·)
      (Contract.extract w.scope.model policy owner names)
      (Contract.extract w.scope'.model policy owner' names) :=
  Contract.extract_agree (w.agree_model policy) (declarations?_agree hmembers hsites) names

end Owners

/-! ## Copies -/

/-- A scope and one in which the declarations of the names that count are
copies. -/
def ofCopies (scope scope' : Scope) (names : String → Prop)
    (int32Names : scope'.int32Names = scope.int32Names)
    (copies : ∀ name, names name →
      List.Forall₂ Copy (scope.declarationsNamed name) (scope'.declarationsNamed name))
    (within : ∀ name, names name → ∀ d ∈ scope.declarationsNamed name, d.RefersWithin names) :
    Rewriting where
  scope := scope
  scope' := scope'
  names := names
  member _ _ := False
  int32Names := int32Names
  declarations name hname := (copies name hname).imp fun _ _ => .copy
  within := within

section Copies

variable (hmember : ∀ n n', ¬ w.member n n') (policy : RefPolicy)
  {owner owner' : Node}
  (hsites : ∀ name, Option.Rel (List.Forall₂ w.SiteLinked)
    ((w.scope.resolve owner).memberSites? name) ((w.scope'.resolve owner').memberSites? name))
  (names : List String)

include hmember hsites

/-- Where no member is written in another way and all texts stay the same, requests
for two owners whose members are linked have the same outcome, but that rejections
name the owner that they are about. -/
theorem extract_agree_of_copies :
    AlikeOutcomes (fun e e' => e.owner = owner.text ∧ e' = { e with owner := owner'.text }) (· = ·)
      (Contract.extract w.scope.model policy owner names)
      (Contract.extract w.scope'.model policy owner' names) := by
  have hsame : w.texts.Same := by
    refine ⟨fun h => h, fun h => h, ?_⟩
    rintro _ _ ⟨t, t', ht, rfl, rfl⟩
    exact (ht.text_eq hmember).symm
  have hagree := extract_agree (fun m m' _ h => absurd h (hmember m m')) hsites policy names
  exact hagree.imp (fun _ _ he => ⟨he.left, he.eq hsame⟩) fun _ _ h => h

/-- Owners with the same text have the same outcome. -/
theorem extract_same_of_text (howner : owner'.text = owner.text) :
    AlikeOutcomes (· = ·) (· = ·) (Contract.extract w.scope.model policy owner names)
      (Contract.extract w.scope'.model policy owner' names) :=
  (extract_agree_of_copies hmember policy hsites names).imp
    (fun e e' he => by rw [he.2, howner, ← he.1]) fun _ _ h => h

end Copies

end Scope.Rewriting

end CommandSchema
