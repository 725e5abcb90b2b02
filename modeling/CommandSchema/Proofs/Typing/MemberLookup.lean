import CommandSchema.Proofs.Traversal
import CommandSchema.Proofs.Typing.Hierarchy

/-!
# CommandSchema.Proofs.Typing.MemberLookup

What a member look-up finds in a hierarchy.

The levels of a resolved type come from a walk over the places of its
hierarchy that takes the bases in source order and enters every interface
once (`Scope.walk`).  Its order is that of a depth-first search: a base that is
listed first is searched down to its last ancestor before the next base has
its turn.  So what the look-up finds is never hidden on the way by which it was
found (`exists_passes_of_firstSites_walk`), but a base that one interface hides
may be found by another way.
-/

namespace CommandSchema

open Syntax

/-- The levels of a resolved type; all types but objects have none. -/
def ResolvedType.levels : ResolvedType → List (List Node)
  | .object _ levels => levels
  | _ => []

namespace Scope

/-! ## The walk -/

/-- The levels that a place contributes in at most the given number of steps,
while the aliases of `path` are being resolved. -/
def walk (scope : Scope) (k : Nat) (path : List Node) :
    Place → StateM (List String) (List (List Node))
  | .interface name => scope.interfaceLevels k path name
  | .expression n => ResolvedType.levels <$> scope.resolveWithin k path n

/-- Whether the walk goes into a place: it enters no interface twice, and no
alias that is being resolved. -/
def Place.Fresh (path : List Node) (seen : List String) : Place → Prop
  | .interface name => name ∉ seen
  | .expression n => n.kind = .typeAliasDeclaration → n ∉ path

/-- The interfaces that have contributed once the walk is in a place. -/
def Place.marked (seen : List String) : Place → List String
  | .interface name => name :: seen
  | .expression _ => seen

/-- The aliases that are being resolved once the walk is in a place. -/
def Place.entered (path : List Node) : Place → List Node
  | .interface _ => path
  | .expression n => Scope.entered path n

variable {scope : Scope} {m : String} {p q : Place}

theorem run_walk_expression (k : Nat) (path : List Node) (n : Node) (seen : List String) :
    (scope.walk k path (.expression n)).run seen =
      (((scope.resolveWithin k path n).run seen).1.levels,
        ((scope.resolveWithin k path n).run seen).2) := rfl

theorem run_walk_comment {c : Node} (h : c.isComment = true) (k : Nat) (path : List Node)
    (seen : List String) : (scope.walk k path (.expression c)).run seen = ([], seen) := by
  rw [run_walk_expression, resolveWithin_comment h]
  rfl

/-- Whether a place is a comment. -/
def Place.isComment : Place → Bool
  | .interface _ => false
  | .expression n => n.isComment

/-- Comments can be left out of a walk. -/
theorem run_mapM_walk_filter (scope : Scope) (k : Nat) (path : List Node) (ps : List Place)
    (seen : List String) :
    ((ps.mapM (scope.walk k path)).run seen).1.flatten =
        (((ps.filter (!·.isComment)).mapM (scope.walk k path)).run seen).1.flatten ∧
      ((ps.mapM (scope.walk k path)).run seen).2 =
        (((ps.filter (!·.isComment)).mapM (scope.walk k path)).run seen).2 := by
  refine run_mapM_filter (fun p _ hp seen => ?_) seen
  cases p with
  | interface name => cases hp
  | expression c => exact run_walk_comment (by simpa [Place.isComment] using hp) k path seen

/-- The walk from an interface that has contributed already is over. -/
theorem run_interfaceLevels_of_mem {k : Nat} {path : List Node} {name : String}
    {seen : List String} (h : name ∈ seen) :
    (scope.interfaceLevels (k + 1) path name).run seen = ([], seen) := by
  rw [interfaceLevels]
  simp only [StateT.run_bind, StateT.run_get, pure_bind, h, if_true]
  rfl

/-- The walk from an interface takes its own member lists and goes on to its
bases. -/
theorem run_interfaceLevels_of_not_mem {k : Nat} {path : List Node} {name : String}
    {seen : List String} (h : name ∉ seen) :
    (scope.interfaceLevels (k + 1) path name).run seen =
      let below := ((scope.nexts (.interface name)).mapM (scope.walk k path)).run (name :: seen)
      (scope.ownLevels (.interface name) ++ below.1.flatten, below.2) := by
  have hbase : scope.walk k path ∘ scope.basePlace = fun base =>
      if scope.namesInterface (baseName base) then scope.interfaceLevels k path (baseName base)
      else do
        match ← scope.resolveWithin k path base with
        | .object _ levels => return levels
        | _ => return [] := by
    funext base
    rw [Function.comp_apply, basePlace]
    split
    · rfl
    · rw [walk, map_eq_pure_bind]
      congr 1
      funext t
      cases t <;> rfl
  rw [interfaceLevels, nexts, List.mapM_map, hbase]
  simp only [StateT.run_bind, StateT.run_get, pure_bind, h, if_false]
  rfl

/-- The walk does not go into a place that is not fresh. -/
theorem run_walk_of_not_fresh {k : Nat} {path : List Node} {seen : List String}
    (h : ¬ p.Fresh path seen) : (scope.walk (k + 1) path p).run seen = ([], seen) := by
  cases p with
  | interface name => exact run_interfaceLevels_of_mem (not_not.mp h)
  | expression n =>
      obtain ⟨kind, hpath⟩ : n.kind = .typeAliasDeclaration ∧ n ∈ path := by
        simpa [Place.Fresh] using h
      rw [run_walk_expression, resolveWithin_of_mem_path kind k hpath]
      rfl

/-- Of the types that nodes have by their own form, only those of object types
have levels. -/
theorem levels_ownType (n : Node) :
    (scope.ownType n).levels = scope.ownLevels (.expression n) := by
  rw [ownType, ownLevels]
  split
  case h_5 kind =>
    unfold ResolvedType.ofWord
    split <;> simp [kind, ResolvedType.levels]
  case h_6 kind =>
    rw [if_neg (by simp [kind])]
    rcases literalType_cases n with ⟨_, h⟩ | ⟨_, h⟩ | h <;> rw [h] <;> rfl
  case h_7 kind | h_8 kind => split <;> simp [kind, ResolvedType.levels]
  case h_12 hobject _ =>
    rw [if_neg hobject]
    rfl
  all_goals next kind => simp [kind, ResolvedType.levels]

/-- **One step of the walk**: in a place that is fresh it takes the member
lists of the place and goes on to the places that it leads to.  From a union it
comes back with no levels, but what it went through has contributed. -/
theorem run_walk_of_fresh {k : Nat} {path : List Node} {seen : List String}
    (h : p.Fresh path seen) :
    (scope.walk (k + 1) path p).run seen =
      let below := ((scope.nexts p).mapM (scope.walk k (p.entered path))).run (p.marked seen)
      (if p.isUnion then [] else scope.ownLevels p ++ below.1.flatten, below.2) := by
  cases p with
  | interface name => exact run_interfaceLevels_of_not_mem h
  | expression n =>
      simp only [Place.entered, Place.marked, Place.isUnion]
      by_cases hinterface : n.kind = .interfaceDeclaration
      · have hnexts : scope.nexts (.expression n) = [.interface (declaredName n)] := by
          rw [nexts, if_pos hinterface]
        rw [run_walk_expression, resolveWithin_interface hinterface, hnexts, run_mapM_singleton]
        simp only [ownLevels, entered, hinterface, reduceCtorEq, decide_false, if_false,
          List.flatten_singleton, List.nil_append]
        rfl
      by_cases hunion : n.kind = .unionType
      · have hnexts : scope.nexts (.expression n) = n.namedChildren.map .expression := by
          rw [nexts, if_neg hinterface, if_pos hunion]
        have hentered : entered path n = path := by
          rw [entered, if_neg (by simp [hunion])]
        rw [run_walk_expression, resolveWithin_union hunion, hnexts, hentered, List.mapM_map]
        simp only [hunion, decide_true, if_true]
        exact Prod.ext rfl (run_mapM_map_snd _ _ _ _).symm
      have hnexts : scope.nexts (.expression n) = (scope.target? n).toList.map .expression := by
        rw [nexts, if_neg hinterface, if_neg hunion]
      cases htarget : scope.target? n with
      | none =>
          rw [run_walk_expression,
            resolveWithin_of_target?_eq_none htarget hinterface hunion k h, hnexts, htarget,
            Option.toList_none, List.map_nil, run_mapM_nil]
          simp only [hunion, decide_false, Bool.false_eq_true, if_false, List.flatten_nil,
            List.append_nil, ← levels_ownType]
          rfl
      | some q =>
          have hleads := target?_eq_some_iff.mp htarget
          rw [run_walk_expression, resolveWithin_of_leads hleads k h, hnexts, htarget,
            Option.toList_some, List.map_singleton, run_mapM_singleton, hleads.ownLevels_eq_nil]
          simp only [hunion, decide_false, Bool.false_eq_true, if_false, List.flatten_singleton,
            List.nil_append]
          rfl

/-- Without steps left nothing contributes. -/
theorem run_walk_zero (path : List Node) (p : Place) (seen : List String) :
    (scope.walk 0 path p).run seen = ([], seen) := by
  cases p with
  | interface name =>
      rw [walk, interfaceLevels]
      rfl
  | expression n =>
      rw [run_walk_expression, resolveWithin_zero]
      rfl

/-- Only what stands at or below a place contributes in the walk from it. -/
theorem below_of_mem_run_walk {k : Nat} {path : List Node} {seen : List String} :
    ∀ name ∈ ((scope.walk k path p).run seen).2,
      name ∈ seen ∨ scope.Below p (.interface name) := by
  induction k generalizing path p seen with
  | zero =>
      intro name hname
      rw [run_walk_zero] at hname
      exact .inl hname
  | succ k ih =>
      by_cases hfresh : p.Fresh path seen
      · rw [run_walk_of_fresh hfresh]
        refine run_mapM_preserves (I := fun s => ∀ name ∈ s, name ∈ seen ∨
          scope.Below p (.interface name)) ?_ ?_
        · intro q hq s hs name hname
          rcases ih name hname with hold | hbelow
          · exact hs name hold
          · exact .inr (.head hq hbelow)
        · intro name hname
          cases p with
          | expression n => exact .inl hname
          | interface other =>
              rcases List.mem_cons.mp hname with rfl | hold
              · exact .inr .refl
              · exact .inl hold
      · rw [run_walk_of_not_fresh hfresh]
        exact fun name hname => .inl hname

/-! ## The first declarations among the levels -/

/-- The declarations of a member in the first of several levels that has
any. -/
def firstSites (m : String) (levels : List (List Node)) : Option (List Node) :=
  (ResolvedType.object "" levels).memberSites? m

theorem memberSites?_eq_firstSites (t : ResolvedType) :
    t.memberSites? m = firstSites m t.levels := by
  cases t <;> rfl

theorem memberSites?_resolve (owner : Node) :
    (scope.resolve owner).memberSites? m =
      firstSites m ((scope.walk (maxDepth + 1) [] (.expression owner)).run []).1 := by
  rw [run_walk_expression]
  exact memberSites?_eq_firstSites (scope.resolve owner)

/-- Among levels of related member lists, related declarations come first. -/
theorem firstSites_rel {R P : Node → Node → Prop} {levels levels' : List (List Node)}
    (h : List.Forall₂ (List.Forall₂ R) levels levels')
    (hmembers : ∀ n n', R n n' → List.Forall₂ P (n.membersNamed m) (n'.membersNamed m)) :
    Option.Rel (List.Forall₂ P) (firstSites m levels) (firstSites m levels') := by
  simp only [firstSites, ResolvedType.memberSites?]
  induction h with
  | nil => exact .none
  | @cons level level' _ _ hlevel _ ih =>
      have hsites : List.Forall₂ P (level.flatMap (·.membersNamed m))
          (level'.flatMap (·.membersNamed m)) :=
        List.rel_flatMap hlevel fun {n n'} hn => hmembers n n' hn
      rw [List.findSome?_cons, List.findSome?_cons]
      generalize level.flatMap _ = sites, level'.flatMap _ = sites' at hsites ⊢
      cases hsites with
      | nil => exact ih
      | cons hsite hrest => exact .some (.cons hsite hrest)

theorem firstSites_append (m : String) (xs ys : List (List Node)) :
    firstSites m (xs ++ ys) = (firstSites m xs).or (firstSites m ys) := by
  rw [firstSites, ResolvedType.memberSites?, List.findSome?_append]
  rfl

theorem firstSites_singleton (m : String) (level : List Node) :
    firstSites m [level] =
      if level.flatMap (·.membersNamed m) = [] then none
      else some (level.flatMap (·.membersNamed m)) := by
  rw [firstSites, ResolvedType.memberSites?, List.findSome?_singleton]
  split <;> simp_all

/-- The declarations of a place come first, if there are any. -/
theorem firstSites_ownLevels (m : String) (p : Place) :
    firstSites m (scope.ownLevels p) =
      if scope.ownSites m p = [] then none else some (scope.ownSites m p) := by
  cases p with
  | interface name =>
      rw [ownSites, ownLevels, List.flatten_singleton]
      exact firstSites_singleton m _
  | expression n =>
      rw [ownSites, ownLevels]
      split
      · exact firstSites_singleton m _
      · rfl

/-- Declarations that come first in a list of levels come first in one of its
parts. -/
theorem exists_of_firstSites_flatten {parts : List (List (List Node))} {sites : List Node}
    (h : firstSites m parts.flatten = some sites) :
    ∃ part ∈ parts, firstSites m part = some sites := by
  induction parts with
  | nil => cases h
  | cons part parts ih =>
      rw [List.flatten_cons, firstSites_append, Option.or_eq_some_iff] at h
      rcases h with h | ⟨-, h⟩
      · exact ⟨part, by simp, h⟩
      · obtain ⟨other, hother, h⟩ := ih h
        exact ⟨other, by simp [hother], h⟩

/-- In a fresh place the walk finds the declarations of the place itself, and
otherwise what it finds in the places that it leads to. -/
theorem firstSites_walk_of_fresh {k : Nat} {path : List Node} {seen : List String}
    (hfresh : p.Fresh path seen) (hunion : p.isUnion = false) :
    firstSites m ((scope.walk (k + 1) path p).run seen).1 =
      if scope.ownSites m p = [] then
        firstSites m (((scope.nexts p).mapM (scope.walk k (p.entered path))).run
          (p.marked seen)).1.flatten
      else some (scope.ownSites m p) := by
  rw [run_walk_of_fresh hfresh]
  simp only [hunion, Bool.false_eq_true, if_false]
  rw [firstSites_append, firstSites_ownLevels]
  split <;> rfl

/-! ## What the walk finds -/

/-- The walk finds only what no place on the way to it hides. -/
theorem exists_passes_of_firstSites_walk {k : Nat} {path : List Node} {seen : List String}
    {sites : List Node} (h : firstSites m ((scope.walk k path p).run seen).1 = some sites) :
    ∃ q, Relation.ReflTransGen (scope.Passes m) p q ∧ scope.ownSites m q = sites ∧
      sites ≠ [] := by
  induction k generalizing path p seen with
  | zero =>
      rw [run_walk_zero] at h
      cases h
  | succ k ih =>
      by_cases hfresh : p.Fresh path seen
      · cases hunion : p.isUnion with
        | true =>
            rw [run_walk_of_fresh hfresh] at h
            simp only [hunion, if_true] at h
            cases h
        | false =>
            rw [firstSites_walk_of_fresh hfresh hunion] at h
            split at h
            · next hown =>
                obtain ⟨part, hpart, h⟩ := exists_of_firstSites_flatten h
                obtain ⟨q, hq, seen', rfl⟩ :=
                  exists_left_of_forall₂ (forall₂_run_mapM _ _ _) hpart
                obtain ⟨r, hr, hsites⟩ := ih h
                exact ⟨r, .head ⟨hown, hq⟩ hr, hsites⟩
            · next hown =>
                cases h
                exact ⟨p, .refl, rfl, hown⟩
      · rw [run_walk_of_not_fresh hfresh] at h
        cases h

/-- The walk finds nothing where the member is lacking. -/
theorem firstSites_walk_of_lacks (h : scope.Lacks m p) (k : Nat) (path : List Node)
    (seen : List String) : firstSites m ((scope.walk k path p).run seen).1 = none := by
  cases hfirst : firstSites m ((scope.walk k path p).run seen).1 with
  | none => rfl
  | some sites =>
      obtain ⟨q, hq, hown, hne⟩ := exists_passes_of_firstSites_walk hfirst
      exact absurd (hown ▸ h q (below_of_passes hq)) hne

/-- The aliases that are being resolved stand before a place on the way to
it. -/
def OnTheWay (scope : Scope) (m : String) (path : List Node) (p : Place) : Prop :=
  ∀ a ∈ path, Relation.TransGen (scope.Passes m) (.expression a) p

/-- No interface that has contributed is needed again: those that the search
could come to from a place lack the member. -/
def Spent (scope : Scope) (m : String) (seen : List String) (p : Place) : Prop :=
  ∀ name ∈ seen, Relation.ReflTransGen (scope.Passes m) p (.interface name) →
    scope.Lacks m (.interface name)

/-- A place where the search still finds something is fresh. -/
theorem WithinReach.fresh {k : Nat} {path : List Node} {seen : List String}
    (h : scope.WithinReach m k p) (hlack : ¬ scope.Lacks m p) (hpath : OnTheWay scope m path p)
    (hseen : Spent scope m seen p) : p.Fresh path seen := by
  cases p with
  | interface name => exact fun hname => hlack (hseen name hname .refl)
  | expression n => exact fun _ hn => hlack (h.lacks_of_cycle (hpath n hn))

/-- The aliases stay on the way when the walk goes on. -/
theorem OnTheWay.next {path : List Node} (h : OnTheWay scope m path p)
    (hstep : scope.Passes m p q) : OnTheWay scope m (p.entered path) q := by
  have hold : ∀ a ∈ path, Relation.TransGen (scope.Passes m) (.expression a) q :=
    fun a ha => (h a ha).tail hstep
  cases p with
  | interface name => exact hold
  | expression n =>
      intro a ha
      rcases mem_entered ha with rfl | ha
      · exact .single hstep
      · exact hold a ha

/-- What has contributed stays spent when the walk goes on. -/
theorem Spent.next {k : Nat} {seen : List String} (h : Spent scope m seen p)
    (hreach : scope.WithinReach m k p) (hstep : scope.Passes m p q) :
    Spent scope m (p.marked seen) q := by
  have hold : Spent scope m seen q := fun name hname hq => h name hname (.head hstep hq)
  cases p with
  | expression n => exact hold
  | interface other =>
      intro name hname hq
      rcases List.mem_cons.mp hname with rfl | hname
      · exact hreach.lacks_of_cycle (.head' hstep hq)
      · exact hold name hname hq

/-- Bases that lack the member use up nothing, and behind them comes what the
walk finds in the next one. -/
theorem firstSites_mapM_walk {k : Nat} {path : List Node} {seen : List String}
    {before after : List Place} {sites : List Node} (hlack : ∀ b ∈ before, scope.Lacks m b)
    (hq : ∀ seen, Spent scope m seen q →
      firstSites m ((scope.walk k path q).run seen).1 = some sites)
    (hseen : Spent scope m seen q) :
    firstSites m (((before ++ q :: after).mapM (scope.walk k path)).run seen).1.flatten =
      some sites := by
  induction before generalizing seen with
  | nil =>
      rw [List.nil_append, run_mapM_cons, List.flatten_cons, firstSites_append, hq seen hseen]
      rfl
  | cons b before ih =>
      have hb : scope.Lacks m b := hlack b (by simp)
      rw [List.cons_append, run_mapM_cons, List.flatten_cons, firstSites_append,
        firstSites_walk_of_lacks hb, Option.none_or]
      refine ih (fun c hc => hlack c (by simp [hc])) ?_
      intro name hname hreach
      rcases below_of_mem_run_walk name hname with hold | hbelow
      · exact hseen name hold hreach
      · exact hb.of_below hbelow

/-- Within reach the walk finds what the search finds. -/
theorem WithinReach.firstSites_walk {k : Nat} {path : List Node} {seen : List String}
    {sites : List Node} (h : scope.WithinReach m k p) (hfinds : scope.Finds m p sites)
    (hpath : OnTheWay scope m path p) (hseen : Spent scope m seen p) :
    firstSites m ((scope.walk k path p).run seen).1 = some sites := by
  have hfresh := h.fresh hfinds.not_lacks hpath hseen
  induction h generalizing path seen sites with
  | absent lack => exact absurd lack hfinds.not_lacks
  | declared own =>
      rw [firstSites_walk_of_fresh hfresh (isUnion_eq_false_of_ownSites own), if_neg own]
      cases hfinds with
      | own => rfl
      | next none => exact absurd none own
  | @next k p single all ih =>
      rw [firstSites_walk_of_fresh hfresh single]
      cases hfinds with
      | own own => rw [if_neg own]
      | @next p q before after sites none order lack rest =>
          have hq : q ∈ scope.nexts p := by
            rw [order]
            simp
          rw [if_pos none, order]
          refine firstSites_mapM_walk lack ?_ (hseen.next (.next single all) ⟨none, hq⟩)
          intro seen' hseen'
          have hpath' := hpath.next ⟨none, hq⟩
          exact ih q hq rest hpath' hseen' ((all q hq).fresh rest.not_lacks hpath' hseen')

/-- Within reach a look-up returns what the search in source order finds. -/
theorem memberSites?_eq_some_iff_finds {owner : Node} {sites : List Node}
    (hreach : scope.WithinReach m (maxDepth + 1) (.expression owner)) :
    (scope.resolve owner).memberSites? m = some sites ↔
      scope.Finds m (.expression owner) sites := by
  have hfinds {sites : List Node} (h : scope.Finds m (.expression owner) sites) :
      (scope.resolve owner).memberSites? m = some sites := by
    rw [memberSites?_resolve]
    exact hreach.firstSites_walk h (by simp [OnTheWay]) (by simp [Spent])
  constructor
  · intro h
    rcases hreach.lacks_or_finds with hlack | ⟨other, hother⟩
    · rw [memberSites?_resolve, firstSites_walk_of_lacks hlack] at h
      cases h
    · rw [hfinds hother] at h
      cases h
      exact hother
  · exact hfinds

/-- **When a redeclared member hides every base declaration**: in a hierarchy
of any shape, a look-up returns only declarations that nothing hides on some
way down to them.  Within the reach of resolution it returns what the search in
source order finds, and so base declarations are hidden exactly when that
search ends at none of them. -/
theorem hidesBases_iff_not_finds (scope : Scope) (owner : Node) (m : String) :
    (∀ sites, (scope.resolve owner).memberSites? m = some sites →
      ∃ p, Relation.ReflTransGen (scope.Passes m) (.expression owner) p ∧
        scope.ownSites m p = sites ∧ sites ≠ []) ∧
    (scope.WithinReach m (maxDepth + 1) (.expression owner) →
      (∀ sites, (scope.resolve owner).memberSites? m = some sites ↔
        scope.Finds m (.expression owner) sites) ∧
      (scope.HidesBases owner m ↔
        ∀ derived base,
          Relation.ReflTransGen scope.Extends (.expression owner) (.interface derived) →
          Relation.TransGen scope.Extends (.interface derived) (.interface base) →
          scope.ownSites m (.interface derived) ≠ [] →
          scope.ownSites m (.interface base) ≠ [] →
          ¬ scope.Finds m (.expression owner) (scope.ownSites m (.interface base)))) := by
  refine ⟨fun sites h => ?_, fun hreach => ⟨fun sites => memberSites?_eq_some_iff_finds hreach, ?_⟩⟩
  · rw [memberSites?_resolve] at h
    exact exists_passes_of_firstSites_walk h
  · simp only [HidesBases, ne_eq, memberSites?_eq_some_iff_finds hreach]

/-- The declaration of an interface in a line of its own, with its bases and
the name of its only method, if it has one. -/
def interfaceNode (line : Nat) (name : String) (bases methods : List String) : Node :=
  let node (kind : Kind) (role : Option Role) (text : String) (children : List Node) : Node :=
    ⟨kind, role, text, ⟨line, 1⟩, children⟩
  let method (m : String) : Node :=
    node .methodSignature none m [node .propertyName (some .name) m []]
  node .interfaceDeclaration none name
    [node .typeIdentifier (some .name) name [],
      node .extendsTypeClause none "extends"
        (bases.map fun base => node .typeIdentifier (some .type) base []),
      node .interfaceBody (some .body) "body" (methods.map method)]

/-- An interface that extends a root and, listed after it, an interface that
redeclares the root's method. -/
def diamondOwner : Node := interfaceNode 3 "Owner" ["Root", "Left"] []

/-- The scope of `interface Root { m(): void }`,
`interface Left extends Root { m(): void }` and
`interface Owner extends Root, Left {}`. -/
def diamond : Scope where
  declarations :=
    [interfaceNode 1 "Root" [] ["m"], interfaceNode 2 "Left" ["Root"] ["m"], diamondOwner]
  int32Names := []

/-- The root is listed first, so its declaration is found, although `Left`
hides it. -/
theorem not_hidesBases_diamond :
    diamond.WithinReach "m" (maxDepth + 1) (.expression diamondOwner) ∧
      ¬ diamond.HidesBases diamondOwner "m" := by
  have hroot : diamond.ownSites "m" (.interface "Root") ≠ [] := by decide
  have hleft : diamond.ownSites "m" (.interface "Left") ≠ [] := by decide
  have howner : diamond.nexts (.expression diamondOwner) = [.interface "Owner"] := by decide
  have hbases : diamond.nexts (.interface "Owner") = [.interface "Root", .interface "Left"] := by
    decide
  have hreach : diamond.WithinReach "m" (maxDepth + 1) (.expression diamondOwner) := by
    refine .next rfl fun q hq => .next ?_ fun r hr => ?_
    · rw [howner, List.mem_singleton] at hq
      rw [hq]
      rfl
    · rw [howner, List.mem_singleton] at hq
      rw [hq, hbases, List.mem_pair] at hr
      rcases hr with rfl | rfl
      · exact .declared hroot
      · exact .declared hleft
  refine ⟨hreach, fun hhides => ?_⟩
  have hfirst : diamond.nexts (.interface "Owner") =
      [] ++ .interface "Root" :: [.interface "Left"] := hbases
  have hfinds : diamond.Finds "m" (.expression diamondOwner)
      (diamond.ownSites "m" (.interface "Root")) :=
    .next (by decide) (show _ = [] ++ .interface "Owner" :: [] from howner) (by simp)
      (.next (by decide) hfirst (by simp) (.own hroot))
  have hextends : diamond.Extends (.expression diamondOwner) (.interface "Owner") :=
    ⟨rfl, by simp [howner]⟩
  have hextendsLeft : diamond.Extends (.interface "Owner") (.interface "Left") :=
    ⟨rfl, by simp [hbases]⟩
  have hextendsRoot : diamond.Extends (.interface "Left") (.interface "Root") := ⟨rfl, by decide⟩
  exact ((hidesBases_iff_not_finds diamond diamondOwner "m").2 hreach).2.mp hhides "Left" "Root"
    (.head hextends (.single hextendsLeft)) (.single hextendsRoot) hleft hroot hfinds

end Scope

end CommandSchema
