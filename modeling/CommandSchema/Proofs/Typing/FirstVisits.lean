import CommandSchema.Proofs.Typing.Inheritance
import Mathlib.Data.Finset.Card

/-!
# CommandSchema.Proofs.Typing.FirstVisits

The levels of an interface as a walk over the `extends` graph.

`Scope.FirstVisits` is the depth-first walk that visits every interface once: it
takes the names of a list in order, passes over those that it has visited, and
goes from a new one to its bases before the next name of the list has its turn.
It knows no bound on its steps.  The walk of the resolution does, but a way
without repetition is no longer than there are interfaces, so in a file that
declares no more of them than there are steps the two walks are the same
(`resolve_eq_object_firstVisits`).
-/

namespace CommandSchema

open Syntax

namespace Scope

/-! ## The walk -/

/-- `scope.FirstVisits names seen visits`: the depth-first walk that starts from
the names, in order, and has been at those in `seen`, visits these interfaces
for the first time, in this order.  A new interface stands before what is
visited from its bases, and that stands before the rest. -/
inductive FirstVisits (scope : Scope) : (names seen visits : List String) → Prop
  | done {seen : List String} : FirstVisits scope [] seen []
  | again {name : String} {names seen visits : List String} (old : name ∈ seen)
      (rest : FirstVisits scope names seen visits) : FirstVisits scope (name :: names) seen visits
  | first {name : String} {names seen below visits : List String} (new : name ∉ seen)
      (bases : FirstVisits scope (scope.baseNames name) (name :: seen) below)
      (rest : FirstVisits scope names (below.reverse ++ name :: seen) visits) :
      FirstVisits scope (name :: names) seen (name :: below ++ visits)

variable {scope : Scope}

namespace FirstVisits

variable {names seen visits : List String}

/-- There is at most one walk. -/
theorem unique {visits' : List String} (h : scope.FirstVisits names seen visits)
    (h' : scope.FirstVisits names seen visits') : visits' = visits := by
  induction h generalizing visits' with
  | done =>
      cases h'
      rfl
  | again old _ ih =>
      cases h' with
      | again _ rest => exact ih rest
      | first new => exact absurd old new
  | first new _ _ ihbases ihrest =>
      cases h' with
      | again old => exact absurd old new
      | first _ bases rest =>
          obtain rfl := ihbases bases
          rw [ihrest rest]

/-- A walk goes on from where another one has ended. -/
theorem append {names' visits' : List String} (h : scope.FirstVisits names seen visits)
    (h' : scope.FirstVisits names' (visits.reverse ++ seen) visits') :
    scope.FirstVisits (names ++ names') seen (visits ++ visits') := by
  induction h with
  | done => exact h'
  | again old _ ih => exact .again old (ih h')
  | @first name names seen below visits new bases _ _ ih =>
      rw [List.append_assoc]
      refine .first new bases (ih ?_)
      simpa using h'

/-- What a walk starts from has been visited when it ends. -/
theorem mem_of_mem (h : scope.FirstVisits names seen visits) {name : String}
    (hname : name ∈ names) : name ∈ visits ∨ name ∈ seen := by
  induction h with
  | done => cases hname
  | again old _ ih =>
      rcases List.mem_cons.mp hname with rfl | hrest
      · exact .inr old
      · exact ih hrest
  | @first other names seen below visits new _ _ _ ih =>
      rcases List.mem_cons.mp hname with rfl | hrest
      · exact .inl (by simp)
      · have := ih hrest
        simp only [List.mem_append, List.mem_reverse, List.mem_cons] at this ⊢
        tauto

/-- So have the bases of what it visits. -/
theorem base_mem (h : scope.FirstVisits names seen visits) {name base : String}
    (hname : name ∈ visits) (hbase : base ∈ scope.baseNames name) :
    base ∈ visits ∨ base ∈ seen := by
  induction h with
  | done => cases hname
  | again _ _ ih => exact ih hname
  | @first other names seen below visits _ bases _ ihbases ihrest =>
      have hentered : base ∈ below ∨ base ∈ other :: seen →
          base ∈ other :: below ++ visits ∨ base ∈ seen := by
        simp only [List.mem_append, List.mem_cons]
        tauto
      rcases List.mem_append.mp hname with hbefore | hrest
      · rcases List.mem_cons.mp hbefore with rfl | hbelow
        · exact hentered (bases.mem_of_mem hbase)
        · exact hentered (ihbases hbelow)
      · rcases ihrest hrest with hvisited | hseen
        · exact .inl (List.mem_append_right _ hvisited)
        · exact hentered (by simpa using hseen)

/-- A walk from the beginning visits all that its start inherits from. -/
theorem mem_of_inherits (h : scope.FirstVisits names [] visits) {k : Nat} {name base : String}
    (hname : name ∈ visits) (hinherits : scope.Inherits k name base) : base ∈ visits := by
  induction hinherits with
  | here => exact hname
  | step hbase _ ih =>
      rcases h.base_mem hname hbase with hvisited | hseen
      · exact ih hvisited
      · cases hseen

end FirstVisits

/-! ## The steps that it takes -/

/-- The names of the interfaces of the file. -/
def interfaceNames (scope : Scope) : Finset String :=
  ((scope.declarations.filter (·.kind = .interfaceDeclaration)).map declaredName).toFinset

/-- The interfaces of the file that have not been visited. -/
def unvisited (scope : Scope) (seen : List String) : Finset String :=
  scope.interfaceNames \ seen.toFinset

theorem mem_interfaceNames_iff {name : String} :
    name ∈ scope.interfaceNames ↔ ∃ d, d ∈ scope.interfaces name := by
  simp only [interfaceNames, List.mem_toFinset, List.mem_map, List.mem_filter, decide_eq_true_eq,
    mem_interfaces_iff]
  grind

theorem mem_interfaceNames_of_base {name base : String} (h : base ∈ scope.baseNames name) :
    base ∈ scope.interfaceNames :=
  mem_interfaceNames_iff.mpr (exists_mem_interfaces (mem_baseNames_iff.mp h).1)

theorem card_unvisited_anti {seen seen' : List String} (h : ∀ name ∈ seen, name ∈ seen') :
    (scope.unvisited seen').card ≤ (scope.unvisited seen).card := by
  refine Finset.card_le_card (Finset.sdiff_subset_sdiff subset_rfl fun name hname => ?_)
  rw [List.mem_toFinset] at hname ⊢
  exact h name hname

/-- A visit leaves one interface less. -/
theorem card_unvisited_cons_lt {name : String} {seen : List String}
    (hname : name ∈ scope.interfaceNames) (hnew : name ∉ seen) :
    (scope.unvisited (name :: seen)).card < (scope.unvisited seen).card := by
  rw [unvisited, List.toFinset_cons, Finset.sdiff_insert]
  refine Finset.card_erase_lt_of_mem (Finset.mem_sdiff.mpr ⟨hname, ?_⟩)
  rwa [List.mem_toFinset]

/-! ## The levels of an interface -/

section Walk

variable (hdirect : scope.ExtendsDirectly) (path : List Node)

include hdirect

/-- But for comments, the places behind an interface are its bases. -/
theorem nexts_filter_eq_baseNames (name : String) :
    (scope.nexts (.interface name)).filter (!·.isComment) =
      (scope.baseNames name).map .interface := by
  have hbases : ∀ base ∈ (scope.interfaces name).flatMap bases,
      base.isComment = true ∨ scope.namesInterface (baseName base) = true :=
    fun base hbase => hdirect.base hbase
  rw [nexts, baseNames]
  generalize (scope.interfaces name).flatMap bases = all at hbases
  induction all with
  | nil => rfl
  | cons base rest ih =>
      have hrest := ih fun other hother => hbases other (by simp [hother])
      rw [List.map_cons, List.map_cons, List.filter_cons, List.filter_cons, hrest, basePlace]
      by_cases hnames : scope.namesInterface (baseName base) = true
      · simp [hnames, Place.isComment]
      · have hcomment := (hbases base (by simp)).resolve_right hnames
        simp [hnames, hcomment, Place.isComment]

/-- The walk of the resolution from the bases of an interface goes over their
names. -/
theorem run_nexts_eq_run_baseNames (k : Nat) (name : String) (seen : List String) :
    (((scope.nexts (.interface name)).mapM (scope.walk k path)).run seen).2 =
      (((scope.baseNames name).mapM (scope.interfaceLevels k path)).run seen).2 := by
  rw [(run_mapM_walk_filter scope k path _ seen).2, nexts_filter_eq_baseNames hdirect,
    List.mapM_map]
  rfl

omit hdirect in
/-- Where the resolution walks from every single interface as the walk of first
visits does, it does so from several of them in a row. -/
theorem firstVisits_run_mapM {k : Nat}
    (hstep : ∀ name ∈ scope.interfaceNames, ∀ seen, (scope.unvisited seen).card ≤ k →
      ∃ visits, scope.FirstVisits [name] seen visits ∧
        ((scope.interfaceLevels k path name).run seen).2 = visits.reverse ++ seen)
    {names seen : List String} (hnames : ∀ name ∈ names, name ∈ scope.interfaceNames)
    (hroom : (scope.unvisited seen).card ≤ k) :
    ∃ visits, scope.FirstVisits names seen visits ∧
      ((names.mapM (scope.interfaceLevels k path)).run seen).2 = visits.reverse ++ seen := by
  induction names generalizing seen with
  | nil => exact ⟨[], .done, rfl⟩
  | cons name names ih =>
      obtain ⟨visits, hvisits, hrun⟩ := hstep name (hnames name (by simp)) seen hroom
      have hroom' : (scope.unvisited (visits.reverse ++ seen)).card ≤ k :=
        (card_unvisited_anti fun _ h => List.mem_append_right _ h).trans hroom
      obtain ⟨rest, hrest, hrunrest⟩ := ih (fun other h => hnames other (by simp [h])) hroom'
      refine ⟨visits ++ rest, hvisits.append hrest, ?_⟩
      rw [run_mapM_cons, hrun, hrunrest, List.reverse_append, List.append_assoc]

/-- **One interface**: with a step for every interface that has not been visited
the walk of the resolution is the walk of first visits. -/
theorem firstVisits_run_interfaceLevels {k : Nat} {name : String} {seen : List String}
    (hname : name ∈ scope.interfaceNames) (hroom : (scope.unvisited seen).card ≤ k) :
    ∃ visits, scope.FirstVisits [name] seen visits ∧
      ((scope.interfaceLevels k path name).run seen).2 = visits.reverse ++ seen := by
  induction k generalizing name seen with
  | zero =>
      -- nothing is left to visit, so the name is not new
      have hold : name ∈ seen := by
        by_contra hnew
        have := card_unvisited_cons_lt hname hnew
        omega
      exact ⟨[], .again hold .done, by rw [run_interfaceLevels_zero]; rfl⟩
  | succ k ih =>
      by_cases hold : name ∈ seen
      · exact ⟨[], .again hold .done, by rw [run_interfaceLevels_of_mem hold]; rfl⟩
      · have hroom' : (scope.unvisited (name :: seen)).card ≤ k := by
          have := card_unvisited_cons_lt hname hold
          omega
        obtain ⟨below, hbelow, hrun⟩ := firstVisits_run_mapM path
          (fun base hbase seen hroom => ih hbase hroom)
          (fun base hbase => mem_interfaceNames_of_base hbase) hroom'
        refine ⟨name :: below ++ [], .first hold hbelow .done, ?_⟩
        rw [run_interfaceLevels_of_not_mem hold]
        simp only [run_nexts_eq_run_baseNames hdirect, hrun]
        simp

end Walk

theorem baseNames_eq_nil {name : String} (h : name ∉ scope.interfaceNames) :
    scope.baseNames name = [] := by
  rw [List.eq_nil_iff_forall_not_mem]
  intro base hbase
  obtain ⟨-, d, hd, -⟩ := mem_baseNames_iff.mp hbase
  exact h (mem_interfaceNames_iff.mpr ⟨d, hd⟩)

/-- In a file with no more interfaces than the bound, what contributes to an
interface are the first visits from it. -/
theorem firstVisits_contributors (hdirect : scope.ExtendsDirectly)
    (hfew : scope.interfaceNames.card ≤ maxDepth) {owner : Node}
    (howner : owner.kind = .interfaceDeclaration) :
    scope.FirstVisits [declaredName owner] [] (scope.contributors owner) := by
  rw [contributors, run_resolveWithin_interface howner]
  by_cases hname : declaredName owner ∈ scope.interfaceNames
  · have hroom : (scope.unvisited []).card ≤ maxDepth := by
      rw [unvisited, List.toFinset_nil, Finset.sdiff_empty]
      exact hfew
    obtain ⟨visits, hvisits, hrun⟩ := firstVisits_run_interfaceLevels hdirect [] hname hroom
    rw [hrun]
    simpa using hvisits
  · have hbases := baseNames_eq_nil hname
    have hrun : ((scope.interfaceLevels maxDepth [] (declaredName owner)).run []).2 =
        [declaredName owner] := by
      rw [maxDepth, run_interfaceLevels_of_not_mem List.not_mem_nil]
      simp only [run_nexts_eq_run_baseNames hdirect, hbases]
      rfl
    have hbelow : scope.FirstVisits (scope.baseNames (declaredName owner)) [declaredName owner]
        [] := by
      rw [hbases]
      exact .done
    rw [hrun]
    exact .first List.not_mem_nil hbelow .done

/-- **The levels of an interface are the first visits of a depth-first walk.**
In a file whose `extends` clauses name interfaces of the file, and that declares
no more interfaces than the resolution takes steps, the walk from an interface
that goes to the bases of all declarations of a name, in source order, ends
with one list of first visits.  The interface resolves to the member lists of
just these interfaces, in this order, each of them once, and they are all that
some way of `extends` leads to, however long it is. -/
theorem resolve_eq_object_firstVisits (scope : Scope) (hdirect : scope.ExtendsDirectly)
    (hfew : scope.interfaceNames.card ≤ maxDepth) (owner : Node)
    (howner : owner.kind = .interfaceDeclaration) :
    ∃ visits, (∀ other, scope.FirstVisits [declaredName owner] [] other ↔ other = visits) ∧
      scope.resolve owner = .object (declaredName owner) (visits.map scope.memberLists) ∧
      visits.Nodup ∧ ∀ v, v ∈ visits ↔ ∃ k, scope.Inherits k (declaredName owner) v := by
  have hvisits := firstVisits_contributors hdirect hfew howner
  refine ⟨scope.contributors owner, fun other => ⟨hvisits.unique, fun h => h ▸ hvisits⟩,
    resolve_eq_object_contributors hdirect howner, nodup_contributors hdirect howner,
    fun v => ⟨fun hv => ⟨_, inherits_of_mem_contributors hdirect howner hv⟩, ?_⟩⟩
  rintro ⟨k, hinherits⟩
  exact hvisits.mem_of_inherits (self_mem_contributors hdirect howner) hinherits

/-- The first declaration of an interface that extends itself. -/
def knotOwner : Node := interfaceNode 1 "Owner" ["Owner", "A", "B"] []

/-- The scope of a file whose interfaces extend each other in circles, with two
declarations of the owner and an interface that nothing extends. -/
def knot : Scope where
  declarations :=
    [knotOwner, interfaceNode 2 "A" ["B", "A", "Owner"] [], interfaceNode 3 "B" ["C"] ["m"],
      interfaceNode 4 "Owner" ["C", "B"] ["m"], interfaceNode 5 "C" ["A"] [],
      interfaceNode 6 "Alone" ["Owner"] ["m"]]
  int32Names := []

/-- The walk through the circles comes to `C` below `B`, although `Owner` lists
it, and both declarations of `Owner` make one level. -/
theorem resolve_knotOwner :
    knot.ExtendsDirectly ∧ knot.interfaceNames.card ≤ maxDepth ∧
    knotOwner.kind = .interfaceDeclaration ∧
    knot.FirstVisits ["Owner"] [] ["Owner", "A", "B", "C"] ∧
    knot.resolve knotOwner =
      .object "Owner" (["Owner", "A", "B", "C"].map knot.memberLists) ∧
    (knot.memberLists "Owner").length = 2 ∧
    ∀ k, ¬ knot.Inherits k "Owner" "Alone" := by
  have hdirect : knot.ExtendsDirectly := by
    unfold ExtendsDirectly
    decide +kernel
  have hfew : knot.interfaceNames.card ≤ maxDepth := by decide +kernel
  have hbasesOwner : knot.baseNames "Owner" = ["Owner", "A", "B", "C", "B"] := by decide +kernel
  have hbasesA : knot.baseNames "A" = ["B", "A", "Owner"] := by decide +kernel
  have hbasesB : knot.baseNames "B" = ["C"] := by decide +kernel
  have hbasesC : knot.baseNames "C" = ["A"] := by decide +kernel
  -- the derivation of the walk, from its end
  have hC : knot.FirstVisits ["C"] ["B", "A", "Owner"] ("C" :: [] ++ []) :=
    .first (by decide) (hbasesC ▸ .again (by decide) .done) .done
  have hB : knot.FirstVisits ["B", "A", "Owner"] ["A", "Owner"] ("B" :: ["C"] ++ []) :=
    .first (by decide) (hbasesB ▸ hC) (.again (by decide) (.again (by decide) .done))
  have hA : knot.FirstVisits ["A", "B", "C", "B"] ["Owner"] ("A" :: ["B", "C"] ++ []) :=
    .first (by decide) (hbasesA ▸ hB)
      (.again (by decide) (.again (by decide) (.again (by decide) .done)))
  have hwalk : knot.FirstVisits ["Owner"] [] ("Owner" :: ["A", "B", "C"] ++ []) :=
    .first (by decide) (hbasesOwner ▸ .again (by decide) hA) .done
  obtain ⟨visits, hvisits, hresolve, -, hall⟩ :=
    resolve_eq_object_firstVisits knot hdirect hfew knotOwner rfl
  obtain rfl : ["Owner", "A", "B", "C"] = visits := (hvisits _).mp hwalk
  refine ⟨hdirect, hfew, rfl, hwalk, hresolve, by decide +kernel, fun k hinherits => ?_⟩
  exact absurd ((hall "Alone").mpr ⟨k, hinherits⟩) (by decide)

end Scope

end CommandSchema
