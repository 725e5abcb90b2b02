import CommandSchema.Proofs.Reachability

/-!
# CommandSchema.Proofs.OwnerForms

The ways to write the owner of commands.

The members of an owner may stand in one interface, in several interfaces of the
same name, in an object type that the owner is an alias of, or in any of these
under another name that an empty interface extends (`Scope.Writes`).  A look-up
goes through all of them alike: through the members of the owner, and then
through what its bases contribute (`Writes.exists_layout`).  So two files that
write an owner with the same members in different ways, and do not use its name
elsewhere, have the same commands for it (`Extraction.explicit_agree_of_writes`).

As for every analysis of types, the trees are such that type declarations stand
among statements only, as in every parsed file
(`SourceFile.declaresInStatements_root`).
-/

namespace CommandSchema

open Syntax Syntax.Node

/-! ## Members of a member list -/

namespace Syntax.Node

/-- What stands in a member list, comments left out. -/
def members (body : Node) : List Node := body.namedChildren.filter (!·.isComment)

theorem membersNamed_eq_filter (body : Node) (m : String) :
    body.membersNamed m = body.members.filter fun n => n.isMember && n.memberName? = some m := by
  rw [membersNamed, members, List.filter_filter]
  refine List.filter_congr fun n _ => ?_
  cases hkind : n.kind <;> simp [isMember, isComment, hkind]

/-- Copied members have copies with the same name. -/
theorem membersNamed_copies {bodies bodies' : List Node}
    (h : (bodies.flatMap members).map unplaced = (bodies'.flatMap members).map unplaced)
    (m : String) :
    List.Forall₂ Copy (bodies.flatMap (·.membersNamed m)) (bodies'.flatMap (·.membersNamed m)) := by
  simp only [membersNamed_eq_filter, ← List.filter_flatMap]
  refine List.rel_filter (fun {n n'} hn => ?_) (forall₂_copy h)
  simp only [isMember, copying_copy.kind hn, copying_copy.memberName?_eq hn]

end Syntax.Node

namespace Scope

variable {scope : Scope} {owner : String} {members bases : List Node}

/-! ## Forms of owners -/

/-- A name is declared with the given members and bases: by interfaces whose
member lists and `extends` clauses come to these, or by one alias of an object
type.  Positions do not count. -/
inductive DeclaresMembers (scope : Scope) (name : String) (members bases : List Node) : Prop
  | interfaces (declared : scope.declarationsNamed name ≠ [])
      (all : ∀ d ∈ scope.declarationsNamed name, d.kind = .interfaceDeclaration)
      (bodies : (((scope.declarationsNamed name).filterMap (·.child? .body)).flatMap
        Node.members).map unplaced = members)
      (extended : ((scope.declarationsNamed name).flatMap Scope.bases).map unplaced = bases)
  | aliased {d value : Node} (declared : scope.declarationsNamed name = [d])
      (kind : d.kind = .typeAliasDeclaration) (valued : d.child? .value = some value)
      (object : value.kind = .objectType) (bodies : value.members.map unplaced = members)
      (extended : bases = [])

/-- An owner is written with the given members and bases: it is declared with
them itself, or it is an empty interface that extends a name that is declared
with them and extends nothing. -/
inductive Writes (scope : Scope) (owner : String) (members bases : List Node) : Prop
  | declared (h : scope.DeclaresMembers owner members bases)
  | derived {d base : Node} (declared : scope.declarationsNamed owner = [d])
      (kind : d.kind = .interfaceDeclaration)
      (empty : ∀ body, d.child? .body = some body → body.members = [])
      (extended : Scope.bases d = [base]) (reference : base.kind = .typeIdentifier)
      (other : base.text ≠ owner) (notInt32 : base.text ∉ scope.int32Names)
      (h : scope.DeclaresMembers base.text members []) (nothing : bases = [])

/-- Some names are used neither in members and bases of an owner nor in the
declarations of other names. -/
structure Unused (scope : Scope) (own : List String) (members bases : List Node) : Prop where
  members : ∀ n ∈ members, ∀ name ∈ n.mentions, name ∉ own
  bases : ∀ b ∈ bases, baseName b ∉ own ∧ ∀ name ∈ b.mentions, name ∉ own
  others : ∀ name, name ∉ own → ∀ d ∈ scope.declarationsNamed name,
    ∀ other ∈ d.mentions, other ∉ own

/-! ## What a look-up on an owner goes through -/

/-- The levels that the bases of an interface contribute to it. -/
def inherited (scope : Scope) (owner : String) (bases : List Node) : List (List Node) :=
  (((bases.map scope.basePlace).mapM (scope.walk (maxDepth - 1) [])).run [owner]).1.flatten

/-- A look-up on an owner goes through the given member lists, and then through
what the given bases contribute. -/
structure Layout (scope : Scope) (owner : String) (d : Node) (bodies bases : List Node) : Prop where
  first : scope.declaration? owner = some d
  bodiesDeclared : ∀ body ∈ bodies, ∃ d ∈ scope.declarations, body ∈ d.children
  basesDeclared : ∀ base ∈ bases, ∃ d ∈ scope.declarations, base ∈ Scope.bases d
  found : ∀ m, (scope.resolve d).memberSites? m =
    (firstSites m [bodies]).or (firstSites m (scope.inherited owner bases))

theorem inherited_nil : scope.inherited owner [] = [] := rfl

/-- The levels of an interface are its own member lists, and then those that its
bases contribute. -/
theorem levels_resolve_interface {d : Node} (kind : d.kind = .interfaceDeclaration) :
    (scope.resolve d).levels =
      [(scope.interfaces (declaredName d)).filterMap (·.child? .body)] ++
        scope.inherited (declaredName d)
          ((scope.interfaces (declaredName d)).flatMap Scope.bases) := by
  have hwalk : (scope.resolve d).levels =
      ((scope.interfaceLevels maxDepth [] (declaredName d)).run []).1 := by
    rw [resolve, resolveWithin_interface kind]
    rfl
  rw [hwalk, show maxDepth = (maxDepth - 1) + 1 from rfl,
    run_interfaceLevels_of_not_mem (List.not_mem_nil)]
  rfl

theorem exists_declares_of_mem_bodies {name : String} {body : Node}
    (h : body ∈ (scope.declarationsNamed name).filterMap (·.child? .body)) :
    ∃ d ∈ scope.declarations, body ∈ d.children := by
  obtain ⟨d, hd, hbody⟩ := List.mem_filterMap.mp h
  exact ⟨d, mem_declarations_of_mem_declarationsNamed hd, mem_children_of_child? hbody⟩

/-- Only declarations of an interface are merged where no alias has its name. -/
theorem interfaces_eq_declarationsNamed {name : String}
    (all : ∀ d ∈ scope.declarationsNamed name, d.kind = .interfaceDeclaration) :
    scope.interfaces name = scope.declarationsNamed name :=
  List.filter_eq_self.mpr fun d hd => by simpa using all d hd

/-- A name that only interfaces have means an interface. -/
theorem namesInterface_of_all {name : String} (declared : scope.declarationsNamed name ≠ [])
    (all : ∀ d ∈ scope.declarationsNamed name, d.kind = .interfaceDeclaration) :
    scope.namesInterface name = true := by
  obtain ⟨d, rest, hds⟩ := List.exists_cons_of_ne_nil declared
  rw [namesInterface, declaration?_eq_head?, hds]
  simpa using all d (by simp [hds])

theorem resolveWithin_alias {d value : Node} (kind : d.kind = .typeAliasDeclaration)
    (valued : d.child? .value = some value) (object : value.kind = .objectType) (k : Nat) :
    scope.resolveWithin (k + 2) [] d = pure (.object value.text [[value]]) := by
  rw [resolveWithin_of_leads (.aliased kind valued) (k + 1) (by simp),
    resolveWithin_of_target?_eq_none (by rw [target?, object]) (by simp [object])
      (by simp [object]) k (by simp [object]), ownType, object]

/-- Where an empty interface extends a name that extends nothing, the name
contributes the member lists that it is declared with. -/
theorem DeclaresMembers.inherited_eq {base : Node} (reference : base.kind = .typeIdentifier)
    (other : base.text ≠ owner) (notInt32 : base.text ∉ scope.int32Names)
    (h : scope.DeclaresMembers base.text members []) :
    ∃ bodies, scope.inherited owner [base] = [bodies] ∧
      (∀ body ∈ bodies, ∃ d ∈ scope.declarations, body ∈ d.children) ∧
      (bodies.flatMap Node.members).map unplaced = members := by
  have hname : baseName base = base.text := by simp [baseName, reference]
  rw [inherited, List.map_singleton, run_mapM_singleton, List.flatten_singleton, basePlace, hname]
  cases h with
  | interfaces declared all bodies extended =>
      have hmerged := interfaces_eq_declarationsNamed all
      have hnexts : scope.nexts (.interface base.text) = [] := by
        rw [nexts, hmerged, List.map_eq_nil_iff.mp extended, List.map_nil]
      have hlevels : ((scope.interfaceLevels (maxDepth - 1) [] base.text).run [owner]).1 =
          [(scope.declarationsNamed base.text).filterMap (·.child? .body)] := by
        rw [show maxDepth - 1 = 30 + 1 from rfl,
          run_interfaceLevels_of_not_mem (by simpa using other), hnexts, ownLevels, hmerged]
        rfl
      rw [if_pos (namesInterface_of_all declared all)]
      exact ⟨_, hlevels, fun _ => exists_declares_of_mem_bodies, bodies⟩
  | @aliased d value declared kind valued object bodies =>
      have hfirst : scope.declaration? base.text = some d := by
        rw [declaration?_eq_head?, declared, List.head?_cons]
      have hresolve : scope.resolveWithin (maxDepth - 1) [] base =
          pure (.object value.text [[value]]) := by
        rw [show maxDepth - 1 = (28 + 2) + 1 from rfl,
          resolveWithin_of_leads (.reference (.inl reference) notInt32 hfirst) _ (by simp),
          entered, if_neg (by simp [reference]), resolveWithin_alias kind valued object]
      rw [if_neg (by simp [namesInterface, hfirst, kind])]
      refine ⟨[value], ?_, ?_, by simpa using bodies⟩
      · rw [run_walk_expression, hresolve]
        rfl
      · simp only [List.mem_singleton, forall_eq]
        exact ⟨d, mem_declarations_of_declaration? hfirst, mem_children_of_child? valued⟩

/-- A look-up on a name goes through what the name is declared with. -/
theorem DeclaresMembers.exists_layout (h : scope.DeclaresMembers owner members bases) :
    ∃ d bodies bases', scope.Layout owner d bodies bases' ∧
      (bodies.flatMap Node.members).map unplaced = members ∧ bases'.map unplaced = bases := by
  cases h with
  | interfaces declared all bodies extended =>
      obtain ⟨d, rest, hds⟩ := List.exists_cons_of_ne_nil declared
      have hd : d ∈ scope.declarationsNamed owner := by simp [hds]
      refine ⟨d, _, _, ⟨?_, fun _ => exists_declares_of_mem_bodies, fun base hbase => ?_,
        fun m => ?_⟩, bodies, extended⟩
      · rw [declaration?_eq_head?, hds, List.head?_cons]
      · obtain ⟨d, hd, hbase⟩ := List.mem_flatMap.mp hbase
        exact ⟨d, mem_declarations_of_mem_declarationsNamed hd, hbase⟩
      · rw [memberSites?_eq_firstSites, levels_resolve_interface (all d hd),
          declaredName_of_mem_declarationsNamed hd, interfaces_eq_declarationsNamed all,
          firstSites_append]
  | @aliased d value declared kind valued object bodies extended =>
      have hfirst : scope.declaration? owner = some d := by
        rw [declaration?_eq_head?, declared, List.head?_cons]
      refine ⟨d, [value], [], ⟨hfirst, ?_, by simp, fun m => ?_⟩, by simpa using bodies,
        by simp [extended]⟩
      · simp only [List.mem_singleton, forall_eq]
        exact ⟨d, mem_declarations_of_declaration? hfirst, mem_children_of_child? valued⟩
      · rw [memberSites?_eq_firstSites, inherited_nil, ← firstSites_append, resolve,
          show maxDepth + 1 = (maxDepth - 1) + 2 from rfl,
          resolveWithin_alias kind valued object]
        rfl

/-- **What a look-up on an owner goes through**, in whichever way it is written:
the member lists with its members, and what its bases contribute. -/
theorem Writes.exists_layout (h : scope.Writes owner members bases) :
    ∃ d bodies bases', scope.Layout owner d bodies bases' ∧
      (bodies.flatMap Node.members).map unplaced = members ∧ bases'.map unplaced = bases := by
  cases h with
  | declared h => exact h.exists_layout
  | @derived d base declared kind empty extended reference other notInt32 h nothing =>
      obtain ⟨bodies, hinherited, hdeclared, hmembers⟩ :=
        h.inherited_eq reference other notInt32
      have hd : d ∈ scope.declarationsNamed owner := by simp [declared]
      refine ⟨d, bodies, [], ⟨?_, hdeclared, by simp, fun m => ?_⟩, hmembers, by simp [nothing]⟩
      · rw [declaration?_eq_head?, declared, List.head?_cons]
      · have hmerged : scope.interfaces owner = [d] := by
          rw [interfaces, declared]
          simp [kind]
        have hown : firstSites m [([d] : List Node).filterMap (·.child? .body)] = none := by
          rw [firstSites_singleton, if_pos]
          simp only [List.flatMap_eq_nil_iff, membersNamed_eq_filter]
          intro body hbody
          rw [empty body (by simpa using hbody), List.filter_nil]
        rw [memberSites?_eq_firstSites, levels_resolve_interface kind,
          declaredName_of_mem_declarationsNamed hd, hmerged, List.flatMap_singleton, extended,
          hinherited, firstSites_append, hown, Option.none_or, inherited_nil]
        exact (Option.or_none ..).symm

/-! ## Two scopes that write the owner with the same members -/

namespace Rewriting

variable {w : Rewriting}

/-- Bases that are copies contribute linked levels. -/
theorem inherited_rel {bases bases' : List Node}
    (h : List.Forall₂ (fun b b' => CopyWithin w.names b b' ∧ b.kind.declaresType = false ∧
      w.names (baseName b)) bases bases') (owner : String) :
    List.Forall₂ (List.Forall₂ w.Linked) (w.scope.inherited owner bases)
      (w.scope'.inherited owner bases') := by
  have hplaces : List.Forall₂ (Place.Related w.names w.Linked) (bases.map w.scope.basePlace)
      (bases'.map w.scope'.basePlace) :=
    List.rel_map (fun {b b'} hb => basePlace_rel hb.1 hb.2.1 hb.2.2) h
  exact List.rel_flatten (AlikeRuns.mapM hplaces
    (fun p p' hp => w.simulation.walk (maxDepth - 1) hp) [owner]).1

/-- The declarations of a member are linked where they stand among copies of the
same members, however these are spread over member lists. -/
theorem firstSites_bodies_rel {bodies bodies' : List Node}
    (hlaw : ∀ body ∈ bodies, body.DeclaresInStatements)
    (hmembers : (bodies.flatMap Node.members).map unplaced =
      (bodies'.flatMap Node.members).map unplaced)
    (hwithin : ∀ n ∈ bodies.flatMap Node.members, ∀ name ∈ n.mentions, w.names name)
    (m : String) :
    Option.Rel (List.Forall₂ w.SiteLinked) (firstSites m [bodies]) (firstSites m [bodies']) := by
  have hsites : List.Forall₂ w.SiteLinked (bodies.flatMap (·.membersNamed m))
      (bodies'.flatMap (·.membersNamed m)) := by
    refine forall₂_imp_of_mem (membersNamed_copies hmembers m) fun n hn n' _ hcopy => ?_
    obtain ⟨body, hbody, hn⟩ := List.mem_flatMap.mp hn
    rw [membersNamed_eq_filter, List.mem_filter, Bool.and_eq_true] at hn
    obtain ⟨hmem, hmember, -⟩ := hn
    have hchild : n ∈ body.children :=
      mem_children_of_mem_namedChildren (List.mem_filter.mp hmem).1
    exact ⟨.copy hcopy,
      ⟨(hlaw body hbody).of_mem (mem_preorder_of_mem_children hchild (self_mem_preorder n)),
        hwithin n (List.mem_flatMap.mpr ⟨body, hbody, hmem⟩)⟩, hmember⟩
  rw [firstSites_singleton, firstSites_singleton]
  generalize bodies.flatMap _ = sites, bodies'.flatMap _ = sites' at hsites ⊢
  cases hsites with
  | nil => exact .none
  | cons hsite hrest => exact .some (.cons hsite hrest)

/-- Look-ups on two owners that are written with copies of the same members and
bases find linked members. -/
theorem memberSites?_rel_of_layout (hlaw : ∀ d ∈ w.scope.declarations, d.DeclaresInStatements)
    {owner : String} {bodies bodies' bases bases' : List Node} {d d' : Node}
    (h : w.scope.Layout owner d bodies bases) (h' : w.scope'.Layout owner d' bodies' bases')
    (hmembers : (bodies.flatMap Node.members).map unplaced =
      (bodies'.flatMap Node.members).map unplaced)
    (hbases : bases.map unplaced = bases'.map unplaced)
    (hmembersWithin : ∀ n ∈ bodies.flatMap Node.members, ∀ name ∈ n.mentions, w.names name)
    (hbasesWithin : ∀ b ∈ bases, w.names (baseName b) ∧ ∀ name ∈ b.mentions, w.names name)
    (m : String) :
    Option.Rel (List.Forall₂ w.SiteLinked) ((w.scope.resolve d).memberSites? m)
      ((w.scope'.resolve d').memberSites? m) := by
  have hbodiesLaw : ∀ body ∈ bodies, body.DeclaresInStatements := by
    intro body hbody
    obtain ⟨d, hd, hchild⟩ := h.bodiesDeclared body hbody
    exact (hlaw d hd).of_mem (mem_preorder_of_mem_children hchild (self_mem_preorder body))
  have hbasesLinked : List.Forall₂ (fun b b' => CopyWithin w.names b b' ∧
      b.kind.declaresType = false ∧ w.names (baseName b)) bases bases' := by
    refine forall₂_imp_of_mem (forall₂_copy hbases) fun b hb b' _ hcopy => ?_
    obtain ⟨d, hd, hbase⟩ := h.basesDeclared b hb
    obtain ⟨clause, hclause, kind, hchild⟩ := Scope.exists_clause_of_mem_bases hbase
    have hclauseLaw : clause.DeclaresInStatements :=
      (hlaw d hd).of_mem (mem_preorder_of_mem_children hclause (self_mem_preorder clause))
    obtain ⟨hname, hwithin⟩ := hbasesWithin b hb
    exact ⟨⟨hcopy,
      hclauseLaw.of_mem (mem_preorder_of_mem_children hchild (self_mem_preorder b)), hwithin⟩,
      hclauseLaw.declaresType_eq_false (by rw [kind]) hchild, hname⟩
  rw [h.found, h'.found]
  exact rel_or (firstSites_bodies_rel hbodiesLaw hmembers hmembersWithin m)
    (firstSites_rel (inherited_rel hbasesLinked owner) fun _ _ hn => hn.membersNamed m)

end Rewriting

end Scope

namespace Extraction

/-- **The way an owner is written does not matter**: two files that write an
owner with the same members and bases, that declare all names but some own ones
alike, and that do not use these own names elsewhere, have the same commands for
the owner, or reject the same command for breaking the same rule. -/
theorem explicit_agree_of_writes (settings : Settings) (path : String) (dialect dialect' : Dialect)
    (root root' : Node) (hlaw : root.DeclaresInStatements) (owner : String) (own : List String)
    (members bases : List Node)
    (h : (Scope.ofTree root settings.int32Names).Writes owner members bases)
    (h' : (Scope.ofTree root' settings.int32Names).Writes owner members bases)
    (hunused : (Scope.ofTree root settings.int32Names).Unused own members bases)
    (hothers : ∀ name, name ∉ own →
      ((Scope.ofTree root settings.int32Names).declarationsNamed name).map unplaced =
        ((Scope.ofTree root' settings.int32Names).declarationsNamed name).map unplaced)
    (commands : List String) :
    AlikeOutcomes (fun e e' => ∃ r r' : Rejection, e = .rejected path r ∧ e' = .rejected path r' ∧
        r'.command = r.command ∧ r'.violation = r.violation) (· = ·)
      (ofFile settings (.explicit owner commands) ⟨path, dialect, root⟩)
      (ofFile settings (.explicit owner commands) ⟨path, dialect', root'⟩) := by
  have hlawful : ∀ d ∈ (Scope.ofTree root settings.int32Names).declarations,
      d.DeclaresInStatements :=
    fun d hd => hlaw.of_mem (Scope.mem_preorder_of_mem_declarations hd)
  let w : Scope.Rewriting := .ofCopies (Scope.ofTree root settings.int32Names)
    (Scope.ofTree root' settings.int32Names) (· ∉ own) rfl
    (fun name hname => forall₂_copy (hothers name hname))
    fun name hname d hd => ⟨hlawful d (Scope.mem_declarations_of_mem_declarationsNamed hd),
      hunused.others name hname d hd⟩
  obtain ⟨d, bodies, bases₁, hlayout, rfl, rfl⟩ := h.exists_layout
  obtain ⟨d', bodies', bases₂, hlayout', hmembers', hbases'⟩ := h'.exists_layout
  have hsites := w.memberSites?_rel_of_layout hlawful hlayout hlayout' hmembers'.symm
    hbases'.symm
    (fun n hn name hname => hunused.members n.unplaced (List.mem_map_of_mem hn) name
      (by rwa [copying_copy.mentions_eq (copy_unplaced n)]))
    fun b hb => by
      have hbase := hunused.bases b.unplaced (List.mem_map_of_mem hb)
      rwa [copying_copy.mentions_eq (copy_unplaced b), copying_copy.baseName_eq (copy_unplaced b)]
        at hbase
  have hdeclared : Option.Rel (fun e e' => e = d ∧ e' = d')
      ((Scope.ofTree root settings.int32Names).declaration? owner)
      ((Scope.ofTree root' settings.int32Names).declaration? owner) := by
    rw [hlayout.first, hlayout'.first]
    exact .some ⟨rfl, rfl⟩
  refine explicit_alike hdeclared (fun hnone => ?_) fun _ _ hd => ?_
  · rw [hlayout.first] at hnone
    cases hnone
  · obtain ⟨rfl, rfl⟩ := hd
    exact (w.extract_agree_of_copies (fun _ _ => id) settings.refPolicy hsites commands).imp
      (fun r r' hr => ⟨r, r', rfl, rfl, by rw [hr.2], by rw [hr.2]⟩) fun _ _ h => h

/-- `interface V { a(r: R): void; b(r: R): void }` and an interface beside it. -/
def oneInterface : Node :=
  fileOf [interfaceAt 1 "V" [] [methodAt 1 "a", methodAt 1 "b"], interfaceAt 2 "R" ["W"] []]

/-- The members stand in two interfaces with a name that `V` extends. -/
def mergedBase : Node :=
  fileOf [interfaceAt 1 "H" [] [methodAt 1 "a"], interfaceAt 2 "R" ["W"] [],
    interfaceAt 3 "V" ["H"] [], interfaceAt 4 "H" [] [methodAt 4 "b"]]

/-- Both files have the same commands of `V`. -/
theorem explicit_agree_of_writes_mergedBase :
    AlikeOutcomes (fun e e' => ∃ r r' : Rejection, e = .rejected "V.ts" r ∧
        e' = .rejected "V.ts" r' ∧ r'.command = r.command ∧ r'.violation = r.violation) (· = ·)
      (ofFile .default (.explicit "V" ["a", "b"]) ⟨"V.ts", .typeScript, oneInterface⟩)
      (ofFile .default (.explicit "V" ["a", "b"]) ⟨"V.ts", .typeScript, mergedBase⟩) ∧
    ofFile .default (.explicit "V" ["a", "b"]) ⟨"V.ts", .typeScript, oneInterface⟩ =
      .ok [⟨"V.ts", "V", [⟨"a", false, []⟩, ⟨"b", false, []⟩]⟩] := by
  let members : List Node := [(methodAt 1 "a").unplaced, (methodAt 1 "b").unplaced]
  let scope : Scope := Scope.ofTree oneInterface Settings.default.int32Names
  let scope' : Scope := Scope.ofTree mergedBase Settings.default.int32Names
  have hwrites : scope.Writes "V" members [] :=
    .declared (.interfaces (by decide +kernel) (by decide +kernel) (by decide +kernel)
      (by decide +kernel))
  have hwrites' : scope'.Writes "V" members [] := by
    have hbase : scope'.DeclaresMembers "H" members [] :=
      .interfaces (by decide +kernel) (by decide +kernel) (by decide +kernel) (by decide +kernel)
    have hdeclared : scope'.declarationsNamed "V" = [interfaceAt 3 "V" ["H"] []] := by
      decide +kernel
    exact .derived hdeclared rfl (fun body hbody => by cases hbody; rfl) rfl rfl
      (by decide +kernel) (by decide +kernel) hbase rfl
  have hnames : (∀ d ∈ scope.declarations, Scope.declaredName d ∈ ["V", "H", "R"]) ∧
      ∀ d ∈ scope'.declarations, Scope.declaredName d ∈ ["V", "H", "R"] := by
    decide +kernel
  have hunused : scope.Unused ["V", "H"] members [] := by
    refine ⟨by decide +kernel, by simp, fun name hname d hd => ?_⟩
    have hdeclared : ∀ d ∈ scope.declarations, Scope.declaredName d ∉ ["V", "H"] →
        ∀ other ∈ d.mentions, other ∉ ["V", "H"] := by
      decide +kernel
    exact hdeclared d (Scope.mem_declarations_of_mem_declarationsNamed hd)
      (by rwa [Scope.declaredName_of_mem_declarationsNamed hd])
  refine ⟨explicit_agree_of_writes .default "V.ts" .typeScript .typeScript oneInterface mergedBase
    (by decide +kernel) "V" ["V", "H"] members [] hwrites hwrites' hunused (fun name hname => ?_)
    ["a", "b"], by decide +kernel⟩
  by_cases hR : name = "R"
  · subst hR
    decide +kernel
  · have hnone (s : Scope) (h : ∀ d ∈ s.declarations, Scope.declaredName d ∈ ["V", "H", "R"]) :
        s.declarationsNamed name = [] := by
      refine List.filter_eq_nil_iff.mpr fun d hd hdeclared => ?_
      have hmem : name ∈ ["V", "H", "R"] := of_decide_eq_true hdeclared ▸ h d hd
      simp_all
    rw [hnone _ hnames.1, hnone _ hnames.2]

end Extraction

end CommandSchema
