import CommandSchema.Proofs.Contract.Rules
import CommandSchema.Proofs.Typing.Inheritance

/-!
# CommandSchema.Proofs.Typing.NearestLevel

Which declarations of a command count.

The levels of an owner are searched in order for declarations of the command's
name, and the search ends at the first level that has any: the nearest one
(`Scope.Nearest`).  How many declarations that level has, over all its member
lists together, decides everything before the signature is read: none at all
means that there is no such member, a single one is the command's declaration,
and several are ambiguous (`resolve_of_nearest`).  What later levels declare is
never looked at.
-/

namespace CommandSchema

open Syntax

/-! ## Declarations of a name -/

namespace Syntax.Node

/-- A member declares a name: it is a method or a property, and its own name is
the given one, decoded if it is quoted and as it is written if it is not. -/
def Declares (member : Node) (name : String) : Prop :=
  (member.kind = .methodSignature ∨ member.kind = .propertySignature) ∧
    ∃ label, member.child? .name = some label ∧
      (label.kind = .stringLiteral → label.stringValue = name) ∧
      (label.kind ≠ .stringLiteral → label.text = name)

/-- The name of a member is read off the node in its name's place. -/
theorem declares_iff {member : Node} {name : String} :
    member.Declares name ↔ (member.kind = .methodSignature ∨ member.kind = .propertySignature) ∧
      member.memberName? = some name := by
  rw [Declares, memberName?]
  cases member.child? .name with
  | none => simp
  | some label => by_cases hquoted : label.kind = .stringLiteral <;> simp [hquoted]

instance (member : Node) (name : String) : Decidable (member.Declares name) :=
  decidable_of_iff _ declares_iff.symm

end Syntax.Node

namespace Scope

/-- The declarations of a name in a level, over all its member lists. -/
def declaredIn (level : List Node) (name : String) : List Node :=
  (level.flatMap Node.namedChildren).filter (·.Declares name)

theorem declaredIn_eq_flatMap (level : List Node) (name : String) :
    declaredIn level name = level.flatMap (·.membersNamed name) := by
  rw [declaredIn, List.filter_flatMap]
  refine List.flatMap_congr fun body _ => List.filter_congr fun member _ => ?_
  simp only [Node.declares_iff, Bool.decide_and, Bool.decide_or]

/-! ## The nearest level -/

/-- The first level of the owner's type that declares a name. -/
def Nearest (scope : Scope) (owner : Node) (name : String) (level : List Node) : Prop :=
  ∃ text before after, scope.resolve owner = .object text (before ++ level :: after) ∧
    (∀ earlier ∈ before, declaredIn earlier name = []) ∧ declaredIn level name ≠ []

variable {scope : Scope} {owner : Node} {name : String} {level : List Node}

/-- A look-up finds nothing exactly when no level declares the name. -/
theorem memberSites?_eq_none_iff {t : ResolvedType} :
    t.memberSites? name = none ↔ ∀ level ∈ t.levels, declaredIn level name = [] := by
  rw [memberSites?_eq_firstSites]
  induction t.levels with
  | nil => simp [firstSites, ResolvedType.memberSites?]
  | cons level levels ih =>
      rw [← List.singleton_append, firstSites_append, firstSites_singleton,
        ← declaredIn_eq_flatMap]
      by_cases hlevel : declaredIn level name = [] <;> simp [hlevel, ih]

/-- A look-up finds the declarations of the nearest level. -/
theorem Nearest.memberSites?_eq (h : scope.Nearest owner name level) :
    (scope.resolve owner).memberSites? name = some (declaredIn level name) := by
  obtain ⟨text, before, after, htype, hbefore, hlevel⟩ := h
  have hnone : firstSites name before = none :=
    (memberSites?_eq_none_iff (t := .object text before)).mpr hbefore
  rw [memberSites?_eq_firstSites, htype]
  change firstSites name (before ++ ([level] ++ after)) = _
  rw [firstSites_append, hnone, Option.none_or, firstSites_append, firstSites_singleton,
    ← declaredIn_eq_flatMap, if_neg hlevel, Option.some_or]

/-- Some level is the nearest one, unless no level of an object type declares
the name. -/
theorem nearest_or_none (scope : Scope) (owner : Node) (name : String) :
    (∃ level, scope.Nearest owner name level) ∨
      ∀ text levels, scope.resolve owner = .object text levels →
        ∀ level ∈ levels, declaredIn level name = [] := by
  by_cases hobject : ∃ text levels, scope.resolve owner = .object text levels
  · obtain ⟨text, levels, htype⟩ := hobject
    rcases forall_or_leftmost (p := fun level => declaredIn level name = []) levels with
      hall | ⟨before, level, after, rfl, hbefore, hlevel⟩
    · refine .inr fun text' levels' htype' => ?_
      rw [htype] at htype'
      cases htype'
      exact hall
    · exact .inl ⟨level, text, before, after, htype, hbefore, hlevel⟩
  · exact .inr fun text levels htype => absurd ⟨text, levels, htype⟩ hobject

/-- Without a nearest level a look-up finds nothing. -/
theorem memberSites?_of_no_nearest (h : ∀ text levels, scope.resolve owner = .object text levels →
    ∀ level ∈ levels, declaredIn level name = []) :
    (scope.resolve owner).memberSites? name = none := by
  rw [memberSites?_eq_none_iff]
  intro level hlevel
  cases htype : scope.resolve owner with
  | object text levels =>
      rw [htype] at hlevel
      exact h text levels htype level hlevel
  | _ => simp [htype, ResolvedType.levels] at hlevel

/-! ## From the declarations to the command -/

/-- Reading the signature of a declaration never reports that the member is
missing or ambiguous. -/
theorem signatureOf_eq_error {N T : Type} {model : TypeModel N T} {d : Declaration N}
    {v : Violation} (h : Contract.signatureOf model d = .error v) :
    v ≠ .memberNotFound ∧ ∀ k, v ≠ .ambiguous k := by
  by_cases hcalls : ∃ k sites result?, Contract.Calls model d k sites result?
  · obtain ⟨k, sites, result?, hcalls⟩ := hcalls
    obtain ⟨style, hsignature⟩ := Contract.signatureOf_of_calls hcalls
    rw [hsignature] at h
    split at h
    · cases h
      simp
    · rcases Contract.plain_or_other sites with ⟨parameters, rfl⟩ | ⟨before, text, after, rfl⟩
      · rw [Contract.mapM_plainParameter_plain] at h
        cases h
      · rw [Contract.mapM_plainParameter_other] at h
        cases h
        simp
  · rw [Contract.signatureOf_of_not_calls hcalls] at h
    cases h
    simp

/-- What the file's model answers for a member are the declarations that the
look-up finds. -/
theorem declarations?_model (scope : Scope) (t : ResolvedType) (name : String) :
    scope.model.declarations? t name = (t.memberSites? name).map (·.map Node.declaration) := rfl

theorem resolve_of_no_nearest
    (h : ∀ text levels, scope.resolve owner = .object text levels →
      ∀ level ∈ levels, declaredIn level name = []) :
    Contract.resolve scope.model (scope.resolve owner) name = .error .memberNotFound := by
  rw [Contract.resolve, declarations?_model, memberSites?_of_no_nearest h]
  rfl

/-- A single declaration in the nearest level is that of the command. -/
theorem Nearest.resolve_of_single {member : Node} (h : scope.Nearest owner name level)
    (hsingle : declaredIn level name = [member]) :
    Contract.resolve scope.model (scope.resolve owner) name =
      Contract.signatureOf scope.model member.declaration := by
  rw [Contract.resolve, declarations?_model, h.memberSites?_eq, hsingle]
  rfl

/-- Several declarations in the nearest level are ambiguous. -/
theorem Nearest.resolve_of_several (h : scope.Nearest owner name level)
    (hseveral : 2 ≤ (declaredIn level name).length) :
    Contract.resolve scope.model (scope.resolve owner) name =
      .error (.ambiguous (declaredIn level name).length) := by
  rw [Contract.resolve, declarations?_model, h.memberSites?_eq]
  match hsites : declaredIn level name with
  | [] | [_] => simp [hsites] at hseveral
  | first :: second :: more => simp

/-- Before its signature is read a member is missing, single or ambiguous. -/
theorem resolve_cases (scope : Scope) (owner : Node) (name : String) :
    ((∀ text levels, scope.resolve owner = .object text levels →
        ∀ level ∈ levels, declaredIn level name = []) ∧
      Contract.resolve scope.model (scope.resolve owner) name = .error .memberNotFound) ∨
    ∃ level, scope.Nearest owner name level ∧
      ((∃ member, declaredIn level name = [member] ∧
          Contract.resolve scope.model (scope.resolve owner) name =
            Contract.signatureOf scope.model member.declaration) ∨
        2 ≤ (declaredIn level name).length ∧
          Contract.resolve scope.model (scope.resolve owner) name =
            .error (.ambiguous (declaredIn level name).length)) := by
  rcases nearest_or_none scope owner name with ⟨level, hnearest⟩ | hnone
  · refine .inr ⟨level, hnearest, ?_⟩
    have hne : declaredIn level name ≠ [] := by
      obtain ⟨-, -, -, -, -, hne⟩ := hnearest
      exact hne
    match hsites : declaredIn level name with
    | [] => exact absurd hsites hne
    | [member] => exact .inl ⟨member, rfl, hnearest.resolve_of_single hsites⟩
    | first :: second :: more =>
        have hseveral : 2 ≤ (declaredIn level name).length := by simp [hsites]
        rw [← hsites]
        exact .inr ⟨hseveral, hnearest.resolve_of_several hseveral⟩
  · exact .inl ⟨hnone, resolve_of_no_nearest hnone⟩

/-- An interface comes first among its own levels, with the member lists of all
its declarations. -/
theorem exists_resolve_of_interface (scope : Scope) {owner : Node}
    (howner : owner.kind = .interfaceDeclaration) :
    ∃ after, scope.resolve owner =
      .object (declaredName owner) (scope.memberLists (declaredName owner) :: after) := by
  rw [resolve, run_resolveWithin_interface howner, maxDepth,
    run_interfaceLevels_of_not_mem List.not_mem_nil]
  exact ⟨_, rfl⟩

/-- **The nearest level decides.**  For every file, owner and name: the member is
missing exactly when the owner has no object type or no level of it declares the
name, and it is ambiguous, with a count, exactly when its nearest level has that
many declarations and these are at least two.  A single declaration in the
nearest level is the one that is read.  Owners with the same nearest level fare
alike, whatever their other levels declare, and two members of that level with
the name always clash, whether their names are quoted or not.  For an interface
that declares the name itself the nearest level holds the member lists of all
its declarations. -/
theorem resolve_of_nearest (scope : Scope) (owner : Node) (name : String) :
    let outcome := Contract.resolve scope.model (scope.resolve owner) name
    (outcome = .error .memberNotFound ↔
      ∀ text levels, scope.resolve owner = .object text levels →
        ∀ level ∈ levels, declaredIn level name = []) ∧
    (∀ k, outcome = .error (.ambiguous k) ↔
      2 ≤ k ∧ ∃ level, scope.Nearest owner name level ∧ (declaredIn level name).length = k) ∧
    (∀ level member, scope.Nearest owner name level → declaredIn level name = [member] →
      outcome = Contract.signatureOf scope.model member.declaration) ∧
    (∀ other level, scope.Nearest owner name level → scope.Nearest other name level →
      Contract.resolve scope.model (scope.resolve other) name = outcome) ∧
    (∀ level first second, scope.Nearest owner name level →
      [first, second].Sublist (level.flatMap Node.namedChildren) →
      first.Declares name → second.Declares name →
      ∃ k, 2 ≤ k ∧ outcome = .error (.ambiguous k)) ∧
    (owner.kind = .interfaceDeclaration →
      declaredIn (scope.memberLists (declaredName owner)) name ≠ [] →
      scope.Nearest owner name (scope.memberLists (declaredName owner))) := by
  intro outcome
  have hcases := resolve_cases scope owner name
  refine ⟨⟨fun h => ?missing, resolve_of_no_nearest⟩, fun k => ⟨fun h => ?several, ?count⟩,
    fun level member => Nearest.resolve_of_single, fun other level hnearest hother => ?alike,
    fun level first second hnearest hpair hfirst hsecond => ?clash, fun howner hown => ?own⟩
  case missing =>
    rcases hcases with ⟨hnone, -⟩ | ⟨level, -, ⟨member, -, hsingle⟩ | ⟨-, hseveral⟩⟩
    · exact hnone
    · exact absurd rfl (signatureOf_eq_error (hsingle.symm.trans h)).1
    · cases hseveral.symm.trans h
  case several =>
    rcases hcases with ⟨-, hnone⟩ | ⟨level, hnearest, ⟨member, -, hsingle⟩ | ⟨hcount, hseveral⟩⟩
    · cases hnone.symm.trans h
    · exact absurd rfl ((signatureOf_eq_error (hsingle.symm.trans h)).2 k)
    · cases hseveral.symm.trans h
      exact ⟨hcount, level, hnearest, rfl⟩
  case count =>
    rintro ⟨hcount, level, hnearest, rfl⟩
    exact hnearest.resolve_of_several hcount
  case alike =>
    change Contract.resolve _ _ _ = Contract.resolve _ _ _
    rw [Contract.resolve, Contract.resolve, declarations?_model, declarations?_model,
      hnearest.memberSites?_eq, hother.memberSites?_eq]
  case clash =>
    have hsublist : [first, second].Sublist (declaredIn level name) := by
      have hfiltered := hpair.filter (·.Declares name)
      simpa [declaredIn, hfirst, hsecond] using hfiltered
    exact ⟨_, hsublist.length_le, hnearest.resolve_of_several hsublist.length_le⟩
  case own =>
    obtain ⟨after, htype⟩ := exists_resolve_of_interface scope howner
    exact ⟨_, [], after, htype, by simp, hown⟩

/-- A declaration of an interface in a line of its own, with its bases, its
methods, and a property whose name is quoted. -/
def quotingNode (line : Nat) (name : String) (bases methods quoted : List String) : Node :=
  let node (kind : Kind) (role : Option Role) (text : String) (children : List Node) : Node :=
    ⟨kind, role, text, ⟨line, 1⟩, children⟩
  let property (m : String) : Node :=
    node .propertySignature none m
      [node .stringLiteral (some .name) m [node .stringFragment none m []]]
  let plain := interfaceNode line name bases methods
  { plain with children := plain.children.map fun child =>
      { child with children := child.children ++ if child.kind = .interfaceBody then
          quoted.map property else [] } }

/-- The first declaration of an interface that is declared twice and extends two
other ones. -/
def twiceDeclared : Node := quotingNode 1 "Owner" ["Left", "Right"] ["m"] []

/-- The scope of `interface Owner extends Left, Right { m(): void }`,
`interface Owner { "m" }`, `interface Left { n(): void }` and
`interface Right { n(): void; n(): void }`. -/
def twice : Scope where
  declarations := [twiceDeclared, quotingNode 2 "Owner" [] [] ["m"],
    quotingNode 3 "Left" [] ["n"] [], quotingNode 4 "Right" [] ["n", "n"] []]
  int32Names := []

/-- The two declarations of `m` clash, although one of them is quoted; of those
of `n` only the one in `Left` counts; and nothing declares `k`. -/
theorem resolve_twiceDeclared :
    Contract.resolve twice.model (twice.resolve twiceDeclared) "m" = .error (.ambiguous 2) ∧
    (∃ member, declaredIn (twice.memberLists "Left") "n" = [member] ∧
      (declaredIn (twice.memberLists "Right") "n").length = 2 ∧
      Contract.resolve twice.model (twice.resolve twiceDeclared) "n" =
        Contract.signatureOf twice.model member.declaration) ∧
    Contract.resolve twice.model (twice.resolve twiceDeclared) "k" = .error .memberNotFound := by
  have hdirect : twice.ExtendsDirectly := by
    unfold ExtendsDirectly
    decide +kernel
  have htype : twice.resolve twiceDeclared = .object "Owner"
      [twice.memberLists "Owner", twice.memberLists "Left", twice.memberLists "Right"] := by
    have hcontributors : twice.contributors twiceDeclared = ["Owner", "Left", "Right"] := by
      decide +kernel
    rw [resolve_eq_object_contributors hdirect rfl, hcontributors]
    rfl
  obtain ⟨-, hm, -, -, -, hown⟩ := resolve_of_nearest twice twiceDeclared "m"
  obtain ⟨-, -, hn, -⟩ := resolve_of_nearest twice twiceDeclared "n"
  obtain ⟨hk, -⟩ := resolve_of_nearest twice twiceDeclared "k"
  refine ⟨(hm 2).mpr ⟨Nat.le_refl 2, _, hown rfl ?_, ?_⟩, ?_, hk.mpr ?_⟩
  · decide +kernel
  · decide +kernel
  · have hsingle : ∃ member, declaredIn (twice.memberLists "Left") "n" = [member] :=
      List.length_eq_one_iff.mp (by decide +kernel)
    obtain ⟨member, hsingle⟩ := hsingle
    refine ⟨member, hsingle, by decide +kernel, hn (twice.memberLists "Left") member ?_ hsingle⟩
    exact ⟨"Owner", [twice.memberLists "Owner"], [twice.memberLists "Right"], htype,
      by decide +kernel, by rw [hsingle]; simp⟩
  · intro text levels htype'
    rw [htype] at htype'
    cases htype'
    decide +kernel

end Scope

end CommandSchema
