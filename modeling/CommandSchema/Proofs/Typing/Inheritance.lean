import CommandSchema.Proofs.Typing.MemberLookup
import Mathlib.Data.List.Perm.Subperm

/-!
# CommandSchema.Proofs.Typing.Inheritance

What an interface inherits, in files whose `extends` clauses name interfaces of
the file.

The walk over such a hierarchy is a depth-first search over names with two
guards: a name is entered once, and not beyond the bound on the steps.  The
interfaces that it enters are the contributors, and they contribute their
member lists in the order in which they are entered
(`resolve_eq_object_contributors`).

The two guards work against each other.  An interface that is entered with the
last step has no step left for its bases, and it is not entered again when a
shorter way leads to it.  That can only happen at the end of a way of the
greatest length that passes through no interface twice (`Scope.Winds`), so
where no such way leads to an interface with bases, what contributes does not
depend on the order of the bases (`contributors_of_extendsDirectly`).
-/

namespace CommandSchema

open Syntax

namespace Scope

/-! ## Hierarchies of interfaces -/

/-- All `extends` clauses of the file name interfaces of the file. -/
def ExtendsDirectly (scope : Scope) : Prop :=
  ∀ d ∈ scope.declarations, d.kind = .interfaceDeclaration →
    ∀ base ∈ bases d, base.isComment = true ∨ scope.namesInterface (baseName base) = true

/-- The interfaces of the file that the interfaces of a name extend. -/
def baseNames (scope : Scope) (name : String) : List String :=
  (((scope.interfaces name).flatMap bases).map baseName).filter scope.namesInterface

/-- The member lists of the interfaces of a name. -/
def memberLists (scope : Scope) (name : String) : List Node :=
  (scope.interfaces name).filterMap (·.child? .body)

/-- `scope.Inherits k a b`: some way of `extends` leads from the first name to
the second one in at most `k` steps. -/
inductive Inherits (scope : Scope) : Nat → String → String → Prop
  | here {k : Nat} {a : String} : Inherits scope k a a
  | step {k : Nat} {a b c : String} (base : b ∈ scope.baseNames a) (rest : Inherits scope k b c) :
      Inherits scope (k + 1) a c

/-- `scope.Winds used k a b`: some way of `extends` leads from the first name to
the second one in exactly `k` steps, through no name twice and none of those
used before. -/
inductive Winds (scope : Scope) : List String → Nat → String → String → Prop
  | here {used : List String} {a : String} (fresh : a ∉ used) : Winds scope used 0 a a
  | step {used : List String} {k : Nat} {a b c : String} (fresh : a ∉ used)
      (base : b ∈ scope.baseNames a) (rest : Winds scope (a :: used) k b c) :
      Winds scope used (k + 1) a c

variable {scope : Scope}

theorem mem_interfaces_iff {name : String} {d : Node} :
    d ∈ scope.interfaces name ↔
      d ∈ scope.declarations ∧ declaredName d = name ∧ d.kind = .interfaceDeclaration := by
  simp only [interfaces, declarationsNamed, List.mem_filter, decide_eq_true_eq, and_assoc]

/-- A name that means an interface has one. -/
theorem exists_mem_interfaces {name : String} (h : scope.namesInterface name = true) :
    ∃ d, d ∈ scope.interfaces name := by
  rw [namesInterface] at h
  cases hfirst : scope.declaration? name with
  | none => simp [hfirst] at h
  | some d =>
      have hname : declaredName d = name := by simpa using List.find?_some hfirst
      have hkind : d.kind = .interfaceDeclaration := by simpa [hfirst] using h
      exact ⟨d, mem_interfaces_iff.mpr ⟨List.mem_of_find?_eq_some hfirst, hname, hkind⟩⟩

/-- A name is extended by another one when a declaration of the other one lists
it and it means an interface. -/
theorem mem_baseNames_iff {name base : String} :
    base ∈ scope.baseNames name ↔ scope.namesInterface base = true ∧
      ∃ d ∈ scope.interfaces name, ∃ b ∈ bases d, baseName b = base := by
  simp only [baseNames, List.mem_filter, List.mem_map, List.mem_flatMap]
  constructor
  · rintro ⟨⟨b, ⟨d, hd, hb⟩, hname⟩, hnames⟩
    exact ⟨hnames, d, hd, b, hb, hname⟩
  · rintro ⟨hnames, d, hd, b, hb, hname⟩
    exact ⟨⟨b, ⟨d, hd, hb⟩, hname⟩, hnames⟩

/-- What the interfaces of a name list are comments and interfaces of the
file. -/
theorem ExtendsDirectly.base (hdirect : scope.ExtendsDirectly) {name : String} {base : Node}
    (hbase : base ∈ (scope.interfaces name).flatMap bases) :
    base.isComment = true ∨ scope.namesInterface (baseName base) = true := by
  obtain ⟨d, hd, hbased⟩ := List.mem_flatMap.mp hbase
  obtain ⟨hdeclared, -, hkind⟩ := mem_interfaces_iff.mp hd
  exact hdirect d hdeclared hkind base hbased

/-- A way may be given more steps than it needs. -/
theorem Inherits.mono {k l : Nat} {a b : String} (h : scope.Inherits k a b) (hkl : k ≤ l) :
    scope.Inherits l a b := by
  induction h generalizing l with
  | here => exact .here
  | step base _ ih =>
      obtain ⟨l, rfl⟩ : ∃ j, l = j + 1 := ⟨l - 1, by omega⟩
      exact .step base (ih (by omega))

/-- A way can go on by one step. -/
theorem Inherits.tail {k : Nat} {a b c : String} (h : scope.Inherits k a b)
    (hc : c ∈ scope.baseNames b) : scope.Inherits (k + 1) a c := by
  induction h with
  | here => exact .step hc .here
  | step base _ ih => exact .step base (ih hc)

/-- A way that avoids more names avoids fewer. -/
theorem Winds.anti {used used' : List String} {k : Nat} {a b : String}
    (h : scope.Winds used k a b) (hused : ∀ name ∈ used', name ∈ used) :
    scope.Winds used' k a b := by
  induction h generalizing used' with
  | here fresh => exact .here fun h => fresh (hused _ h)
  | step fresh base _ ih =>
      refine .step (fun h => fresh (hused _ h)) base (ih fun name hname => ?_)
      rcases List.mem_cons.mp hname with rfl | hname
      · exact List.mem_cons_self
      · exact List.mem_cons_of_mem _ (hused name hname)

/-! ## The order of the contributions -/

/-- The interfaces that contribute to the type of a declaration, in the order
in which they do. -/
def contributors (scope : Scope) (owner : Node) : List String :=
  ((scope.resolveWithin (maxDepth + 1) [] owner).run []).2.reverse

/-- A place behind an interface is one of its bases, or a comment. -/
theorem mem_nexts_interface (hdirect : scope.ExtendsDirectly) {name : String} {p : Place}
    (hp : p ∈ scope.nexts (.interface name)) :
    (∃ base ∈ scope.baseNames name, p = .interface base) ∨
      ∃ c : Node, c.isComment = true ∧ p = .expression c := by
  obtain ⟨base, hbase, rfl⟩ := List.mem_map.mp hp
  rw [basePlace]
  split
  · next hnames =>
      refine .inl ⟨baseName base, ?_, rfl⟩
      exact List.mem_filter.mpr ⟨List.mem_map_of_mem hbase, hnames⟩
  · next hnames => exact .inr ⟨base, (hdirect.base hbase).resolve_right hnames, rfl⟩

theorem interface_mem_nexts {name base : String} (h : base ∈ scope.baseNames name) :
    .interface base ∈ scope.nexts (.interface name) := by
  obtain ⟨hmem, hnames⟩ := List.mem_filter.mp h
  obtain ⟨b, hb, rfl⟩ := List.mem_map.mp hmem
  exact List.mem_map.mpr ⟨b, hb, if_pos hnames⟩

theorem run_interfaceLevels_zero (path : List Node) (name : String) (seen : List String) :
    (scope.interfaceLevels 0 path name).run seen = ([], seen) :=
  @run_walk_zero scope path (.interface name) seen

section Walk

variable (hdirect : scope.ExtendsDirectly) (path : List Node)

include hdirect

/-- What every step from an interface to a base preserves, the steps to all its
bases preserve. -/
theorem run_nexts_preserves {k : Nat} {name : String} {I : List String → Prop}
    (hstep : ∀ base ∈ scope.baseNames name, ∀ seen, I seen →
      I ((scope.interfaceLevels k path base).run seen).2)
    {seen : List String} (hseen : I seen) :
    I (((scope.nexts (.interface name)).mapM (scope.walk k path)).run seen).2 := by
  refine run_mapM_preserves (fun p hp seen hseen => ?_) hseen
  rcases mem_nexts_interface hdirect hp with ⟨base, hbase, rfl⟩ | ⟨c, hc, rfl⟩
  · exact hstep base hbase seen hseen
  · rw [run_walk_comment hc]
    exact hseen

/-- The walk from an interface puts the interfaces that it enters in front of
those that have contributed, the latest first, and its levels are their member
lists in the order of entering. -/
theorem run_interfaceLevels_prepends (k : Nat) (name : String) (seen : List String) :
    ∃ new, (scope.interfaceLevels k path name).run seen =
      (new.reverse.map scope.memberLists, new ++ seen) := by
  induction k generalizing name seen with
  | zero => exact ⟨[], run_interfaceLevels_zero path name seen⟩
  | succ k ih =>
      by_cases hname : name ∈ seen
      · exact ⟨[], run_interfaceLevels_of_mem hname⟩
      · have hstep : ∀ p ∈ scope.nexts (.interface name), ∀ seen, ∃ new,
            (scope.walk k path p).run seen = (new.reverse.map scope.memberLists, new ++ seen) := by
          intro p hp seen
          rcases mem_nexts_interface hdirect hp with ⟨base, -, rfl⟩ | ⟨c, hc, rfl⟩
          · exact ih base seen
          · exact ⟨[], run_walk_comment hc k path seen⟩
        obtain ⟨new, hlevels, hstate⟩ := run_mapM_prepends hstep (name :: seen)
        refine ⟨new ++ [name], ?_⟩
        rw [run_interfaceLevels_of_not_mem hname]
        simp only [hlevels, hstate]
        simp [ownLevels, memberLists]

theorem mem_run_interfaceLevels_of_mem {k : Nat} {name other : String} {seen : List String}
    (h : other ∈ seen) : other ∈ ((scope.interfaceLevels k path name).run seen).2 := by
  obtain ⟨new, hnew⟩ := run_interfaceLevels_prepends hdirect path k name seen
  rw [hnew]
  exact List.mem_append_right _ h

/-- With a step left the interface that the walk starts from contributes. -/
theorem self_mem_run_interfaceLevels (k : Nat) (name : String) (seen : List String) :
    name ∈ ((scope.interfaceLevels (k + 1) path name).run seen).2 := by
  by_cases hname : name ∈ seen
  · exact mem_run_interfaceLevels_of_mem hdirect path hname
  · rw [run_interfaceLevels_of_not_mem hname]
    exact run_nexts_preserves hdirect path (I := (name ∈ ·))
      (fun base _ seen hseen => mem_run_interfaceLevels_of_mem hdirect path hseen)
      List.mem_cons_self

/-- With a step left for them the bases of an interface contribute. -/
theorem base_mem_run_nexts {name base : String} (hbase : base ∈ scope.baseNames name) (k : Nat)
    (seen : List String) :
    base ∈ (((scope.nexts (.interface name)).mapM (scope.walk (k + 1) path)).run seen).2 := by
  refine run_mapM_establishes (P := (base ∈ ·)) (interface_mem_nexts hbase)
    (self_mem_run_interfaceLevels hdirect path k base) (fun p hp seen hseen => ?_) seen
  rcases mem_nexts_interface hdirect hp with ⟨other, -, rfl⟩ | ⟨c, hc, rfl⟩
  · exact mem_run_interfaceLevels_of_mem hdirect path hseen
  · rw [run_walk_comment hc]
    exact hseen

/-- No interface contributes twice. -/
theorem nodup_run_interfaceLevels {k : Nat} {name : String} {seen : List String}
    (h : seen.Nodup) : ((scope.interfaceLevels k path name).run seen).2.Nodup := by
  induction k generalizing name seen with
  | zero =>
      rw [run_interfaceLevels_zero]
      exact h
  | succ k ih =>
      by_cases hname : name ∈ seen
      · rw [run_interfaceLevels_of_mem hname]
        exact h
      · rw [run_interfaceLevels_of_not_mem hname]
        exact run_nexts_preserves hdirect path (I := List.Nodup) (fun base _ seen hseen => ih hseen)
          (List.nodup_cons.mpr ⟨hname, h⟩)

/-- Only what is extended within the steps contributes. -/
theorem inherits_of_mem_run_interfaceLevels {k : Nat} {name : String} {seen : List String} :
    ∀ other ∈ ((scope.interfaceLevels k path name).run seen).2,
      other ∈ seen ∨ ∃ j < k, scope.Inherits j name other := by
  induction k generalizing name seen with
  | zero =>
      intro other hother
      rw [run_interfaceLevels_zero] at hother
      exact .inl hother
  | succ k ih =>
      by_cases hname : name ∈ seen
      · rw [run_interfaceLevels_of_mem hname]
        exact fun other hother => .inl hother
      · rw [run_interfaceLevels_of_not_mem hname]
        refine run_nexts_preserves hdirect path (I := fun s => ∀ other ∈ s,
          other ∈ seen ∨ ∃ j < k + 1, scope.Inherits j name other) ?_ ?_
        · intro base hbase s hs other hother
          rcases ih other hother with hold | ⟨j, hj, hinherits⟩
          · exact hs other hold
          · exact .inr ⟨j + 1, by omega, .step hbase hinherits⟩
        · intro other hother
          rcases List.mem_cons.mp hother with rfl | hold
          · exact .inr ⟨0, by omega, .here⟩
          · exact .inl hold

/-- An interface that enters the walk has its bases enter it too, unless the
walk came to it with its last step, on a way that winds through new interfaces
only. -/
theorem bases_mem_or_winds {k : Nat} {name : String} {seen : List String} :
    ∀ u ∈ ((scope.interfaceLevels k path name).run seen).2, u ∈ seen ∨
      (∀ base ∈ scope.baseNames u, base ∈ ((scope.interfaceLevels k path name).run seen).2) ∨
      ∃ j, k = j + 1 ∧ scope.Winds seen j name u := by
  induction k generalizing name seen with
  | zero =>
      intro u hu
      rw [run_interfaceLevels_zero] at hu
      exact .inl hu
  | succ k ih =>
      by_cases hname : name ∈ seen
      · rw [run_interfaceLevels_of_mem hname]
        exact fun u hu => .inl hu
      intro u hu
      -- all but the start enter the walk behind one of its bases
      let I (s : List String) : Prop := (∀ other ∈ name :: seen, other ∈ s) ∧
        ∀ u ∈ s, u ∈ name :: seen ∨ (∀ base ∈ scope.baseNames u, base ∈ s) ∨
          scope.Winds seen k name u
      have hstep : ∀ base ∈ scope.baseNames name, ∀ s, I s →
          I ((scope.interfaceLevels k path base).run s).2 := by
        intro base hbase s hs
        have hkept : ∀ other ∈ s, other ∈ ((scope.interfaceLevels k path base).run s).2 :=
          fun other h => mem_run_interfaceLevels_of_mem hdirect path h
        refine ⟨fun other h => hkept other (hs.1 other h), fun u hu => ?_⟩
        rcases ih u hu with hold | hbases | ⟨j, rfl, hwinds⟩
        · rcases hs.2 u hold with hseen | hbases | hwinds
          · exact .inl hseen
          · exact .inr (.inl fun base hbase => hkept base (hbases base hbase))
          · exact .inr (.inr hwinds)
        · exact .inr (.inl hbases)
        · exact .inr (.inr (.step hname hbase (hwinds.anti hs.1)))
      have hothers := run_nexts_preserves hdirect path hstep ⟨fun _ h => h, fun _ h => .inl h⟩
      rw [run_interfaceLevels_of_not_mem hname] at hu ⊢
      rcases hothers.2 u hu with hseen | hbases | hwinds
      · rcases List.mem_cons.mp hseen with rfl | hold
        · -- the start has a step left for its bases, or is where the walk ends
          cases k with
          | zero => exact .inr (.inr ⟨0, rfl, .here hname⟩)
          | succ k =>
              exact .inr (.inl fun base hbase => base_mem_run_nexts hdirect path hbase k _)
        · exact .inl hold
      · exact .inr (.inl hbases)
      · exact .inr (.inr ⟨k, rfl, hwinds⟩)

end Walk

/-! ## What contributes to an interface -/

section Contributors

variable (hdirect : scope.ExtendsDirectly) {owner : Node}
  (howner : owner.kind = .interfaceDeclaration)

include howner

/-- A declaration of an interface is resolved by the walk from its name. -/
theorem run_resolveWithin_interface (k : Nat) (path : List Node) (seen : List String) :
    (scope.resolveWithin (k + 1) path owner).run seen =
      (.object (declaredName owner)
          ((scope.interfaceLevels k path (declaredName owner)).run seen).1,
        ((scope.interfaceLevels k path (declaredName owner)).run seen).2) := by
  rw [resolveWithin_interface howner]
  rfl

include hdirect

/-- The levels of an interface are the member lists of what contributes to it,
in order. -/
theorem resolve_eq_object_contributors :
    scope.resolve owner =
      .object (declaredName owner) ((scope.contributors owner).map scope.memberLists) := by
  obtain ⟨new, hnew⟩ :=
    run_interfaceLevels_prepends hdirect [] maxDepth (declaredName owner) []
  rw [resolve, contributors, run_resolveWithin_interface howner, hnew, List.append_nil]

/-- A look-up on an interface finds the declarations of the first contributor
that has any. -/
theorem memberSites?_eq_find?_contributors (m : String) :
    (scope.resolve owner).memberSites? m =
      ((scope.contributors owner).find? fun v => scope.ownSites m (.interface v) ≠ []).map
        fun v => scope.ownSites m (.interface v) := by
  rw [resolve_eq_object_contributors hdirect howner]
  change firstSites m _ = _
  induction scope.contributors owner with
  | nil => rfl
  | cons v vs ih =>
      rw [List.map_cons, show scope.memberLists v :: vs.map scope.memberLists =
        scope.ownLevels (.interface v) ++ vs.map scope.memberLists from rfl, firstSites_append,
        firstSites_ownLevels, ih]
      by_cases hown : scope.ownSites m (.interface v) = [] <;> simp [hown]

theorem nodup_contributors : (scope.contributors owner).Nodup := by
  rw [contributors, run_resolveWithin_interface howner, (List.reverse_perm _).nodup_iff]
  exact nodup_run_interfaceLevels hdirect [] List.nodup_nil

/-- Only what is extended in fewer steps than the bound contributes. -/
theorem inherits_of_mem_contributors {v : String} (hv : v ∈ scope.contributors owner) :
    scope.Inherits (maxDepth - 1) (declaredName owner) v := by
  rw [contributors, run_resolveWithin_interface howner, List.mem_reverse] at hv
  rcases inherits_of_mem_run_interfaceLevels hdirect [] v hv with hold | ⟨j, hj, hinherits⟩
  · cases hold
  · exact hinherits.mono (by omega)

theorem self_mem_contributors : declaredName owner ∈ scope.contributors owner := by
  rw [contributors, run_resolveWithin_interface howner, List.mem_reverse]
  exact self_mem_run_interfaceLevels hdirect [] (maxDepth - 1) (declaredName owner) []

/-- The bases of a contributor contribute, unless a way of the greatest length
winds up to it. -/
theorem bases_mem_contributors_or_winds {u : String} (hu : u ∈ scope.contributors owner) :
    (∀ base ∈ scope.baseNames u, base ∈ scope.contributors owner) ∨
      scope.Winds [] (maxDepth - 1) (declaredName owner) u := by
  simp only [contributors, run_resolveWithin_interface howner, List.mem_reverse] at hu ⊢
  rcases bases_mem_or_winds hdirect [] u hu with hold | hbases | ⟨j, hj, hwinds⟩
  · cases hold
  · exact .inl hbases
  · rw [hj]
    exact .inr hwinds

/-- What is extended by a contributor contributes, or is lost behind one that
a way of the greatest length winds up to. -/
theorem mem_contributors_or_lost {k : Nat} {u v : String} (hu : u ∈ scope.contributors owner)
    (h : scope.Inherits k u v) :
    v ∈ scope.contributors owner ∨
      ∃ u' ∈ scope.contributors owner, ∃ base ∈ scope.baseNames u',
        base ∉ scope.contributors owner ∧ scope.Inherits k base v ∧
          scope.Winds [] (maxDepth - 1) (declaredName owner) u' := by
  induction h with
  | here => exact .inl hu
  | @step k u base v hbase hrest ih =>
      by_cases hmem : base ∈ scope.contributors owner
      · rcases ih hmem with hv | ⟨u', hu', other, hother, hlost, hbehind, hwinds⟩
        · exact .inl hv
        · exact .inr ⟨u', hu', other, hother, hlost, hbehind.mono (Nat.le_succ k), hwinds⟩
      · rcases bases_mem_contributors_or_winds hdirect howner hu with hall | hwinds
        · exact absurd (hall base hbase) hmem
        · exact .inr ⟨u, hu, base, hbase, hmem, hrest.mono (Nat.le_succ k), hwinds⟩

end Contributors

/-! ## The order of the bases -/

/-- Two files declare the same interfaces and list the bases of each in any
order. -/
def Reordered (scope scope' : Scope) : Prop :=
  List.Forall₂ (fun d d' => d'.kind = d.kind ∧ declaredName d' = declaredName d ∧
    ((bases d').map baseName).Perm ((bases d).map baseName)) scope.declarations scope'.declarations

theorem Reordered.symm {scope' : Scope} (h : scope.Reordered scope') : scope'.Reordered scope :=
  h.flip.imp fun _ _ h => ⟨h.1.symm, h.2.1.symm, h.2.2.symm⟩

/-- A name means an interface in both of two files. -/
theorem Reordered.namesInterface_eq {scope' : Scope} (h : scope.Reordered scope')
    (name : String) : scope'.namesInterface name = scope.namesInterface name := by
  have hdeclared := rel_find? (p := fun d => declaredName d = name)
    (q := fun d => declaredName d = name) h (fun d d' h => by rw [h.2.1])
  rw [namesInterface, namesInterface, declaration?, declaration?]
  generalize scope.declarations.find? _ = found at hdeclared ⊢
  generalize scope'.declarations.find? _ = found' at hdeclared ⊢
  cases hdeclared with
  | none => rfl
  | some hd => simp [hd.1]

/-- Interfaces extend the same interfaces in both of two files. -/
theorem Reordered.mem_baseNames {scope' : Scope} (h : scope.Reordered scope')
    {name base : String} (hbase : base ∈ scope.baseNames name) :
    base ∈ scope'.baseNames name := by
  obtain ⟨hnames, d, hd, b, hb, rfl⟩ := mem_baseNames_iff.mp hbase
  obtain ⟨hdeclared, hname, hkind⟩ := mem_interfaces_iff.mp hd
  obtain ⟨d', hd', hkind', hname', hperm⟩ := exists_right_of_forall₂ h hdeclared
  obtain ⟨b', hb', hbaseName⟩ := List.mem_map.mp (hperm.mem_iff.mpr (List.mem_map_of_mem hb))
  refine mem_baseNames_iff.mpr ⟨by rw [h.namesInterface_eq, hnames], d', ?_, b', hb', hbaseName⟩
  exact mem_interfaces_iff.mpr ⟨hd', hname'.trans hname, hkind'.trans hkind⟩

theorem Reordered.inherits {scope' : Scope} (h : scope.Reordered scope') {k : Nat}
    {a b : String} (hab : scope.Inherits k a b) : scope'.Inherits k a b := by
  induction hab with
  | here => exact .here
  | step base _ ih => exact .step (h.mem_baseNames base) ih

theorem Reordered.winds {scope' : Scope} (h : scope.Reordered scope') {used : List String}
    {k : Nat} {a b : String} (hab : scope.Winds used k a b) : scope'.Winds used k a b := by
  induction hab with
  | here fresh => exact .here fresh
  | step fresh base _ ih => exact .step fresh (h.mem_baseNames base) ih

/-- No way of the greatest length winds up to an interface whose bases could
contribute. -/
def Unwound (scope : Scope) (name : String) : Prop :=
  ∀ u, ∀ base ∈ scope.baseNames u, scope.Inherits (maxDepth - 1) name base →
    ¬ scope.Winds [] (maxDepth - 1) name u

/-- Where nothing winds, the ways within the bound lead from contributor to
contributor. -/
theorem Unwound.mem_contributors {owner : Node} (h : scope.Unwound (declaredName owner))
    (hdirect : scope.ExtendsDirectly) (howner : owner.kind = .interfaceDeclaration) {i j : Nat}
    {u v : String} (hu : u ∈ scope.contributors owner)
    (hbefore : scope.Inherits i (declaredName owner) u) (huv : scope.Inherits j u v)
    (hle : i + j ≤ maxDepth - 1) : v ∈ scope.contributors owner := by
  induction huv generalizing i with
  | here => exact hu
  | @step j u base v hbase hrest ih =>
      have hnext : scope.Inherits (i + 1) (declaredName owner) base := hbefore.tail hbase
      rcases bases_mem_contributors_or_winds hdirect howner hu with hbases | hwinds
      · exact ih (hbases base hbase) hnext (by omega)
      · exact absurd hwinds (h u base hbase (hnext.mono (by omega)))

/-- In a hierarchy where nothing winds, just what is extended within the bound
contributes. -/
theorem Unwound.mem_contributors_iff {owner : Node} (h : scope.Unwound (declaredName owner))
    (hdirect : scope.ExtendsDirectly) (howner : owner.kind = .interfaceDeclaration) {v : String} :
    v ∈ scope.contributors owner ↔ scope.Inherits (maxDepth - 1) (declaredName owner) v :=
  ⟨inherits_of_mem_contributors hdirect howner, fun hv =>
    h.mem_contributors hdirect howner (self_mem_contributors hdirect howner)
      (Inherits.here (k := 0)) hv (by omega)⟩

/-- Where one interface extends another one, the file declares both. -/
theorem declared_of_mem_baseNames {a b : String} (h : b ∈ scope.baseNames a) :
    a ∈ scope.declarations.map declaredName ∧ b ∈ scope.declarations.map declaredName := by
  obtain ⟨hnames, d, hd, -⟩ := mem_baseNames_iff.mp h
  obtain ⟨hdeclared, hname, -⟩ := mem_interfaces_iff.mp hd
  obtain ⟨d', hd'⟩ := exists_mem_interfaces hnames
  obtain ⟨hdeclared', hname', -⟩ := mem_interfaces_iff.mp hd'
  exact ⟨List.mem_map.mpr ⟨d, hdeclared, hname⟩, List.mem_map.mpr ⟨d', hdeclared', hname'⟩⟩

/-- A winding way takes one name more than it has steps. -/
theorem Winds.length_lt {used : List String} {k : Nat} {a b : String}
    (h : scope.Winds used k a b) (ha : a ∈ scope.declarations.map declaredName) :
    ∃ names : List String, names.length = k + 1 ∧ names.Nodup ∧
      ∀ name ∈ names, name ∉ used ∧ name ∈ scope.declarations.map declaredName := by
  induction h with
  | @here used a fresh =>
      refine ⟨[a], rfl, by simp, fun name hname => ?_⟩
      rw [List.mem_singleton.mp hname]
      exact ⟨fresh, ha⟩
  | @step used k a b c fresh base _ ih =>
      obtain ⟨names, hlength, hnodup, hnames⟩ := ih (declared_of_mem_baseNames base).2
      refine ⟨a :: names, by rw [List.length_cons, hlength], List.nodup_cons.mpr ⟨?_, hnodup⟩, ?_⟩
      · exact fun hmem => (hnames a hmem).1 List.mem_cons_self
      · intro name hname
        rcases List.mem_cons.mp hname with rfl | hname
        · exact ⟨fresh, ha⟩
        · exact ⟨fun hused => (hnames name hname).1 (List.mem_cons_of_mem _ hused),
            (hnames name hname).2⟩

/-- Nothing winds in a file with fewer declarations than the bound. -/
theorem unwound_of_length_lt (h : scope.declarations.length < maxDepth) (name : String) :
    scope.Unwound name := by
  intro u base hbase hinherits hwinds
  have hname : name ∈ scope.declarations.map declaredName := by
    cases hwinds with
    | step _ hfirst _ => exact (declared_of_mem_baseNames hfirst).1
  obtain ⟨names, hlength, hnodup, hnames⟩ := hwinds.length_lt hname
  have hle := (hnodup.subperm fun n hn => (hnames n hn).2).length_le
  rw [hlength, List.length_map] at hle
  omega

/-- **What an interface inherits**, where all `extends` clauses name interfaces
of the file: its levels are the member lists of its contributors, each once,
and a look-up finds the declarations of the first contributor that has any.
Only interfaces that some way of fewer steps than the bound leads to
contribute.  One of them is lost only behind a contributor that another way,
of the greatest length and through no interface twice, winds up to.  Where
there is no such way all of them contribute, in whatever order the bases are
listed. -/
theorem contributors_of_extendsDirectly (scope : Scope) (hdirect : scope.ExtendsDirectly)
    (owner : Node) (howner : owner.kind = .interfaceDeclaration) :
    scope.resolve owner =
      .object (declaredName owner) ((scope.contributors owner).map scope.memberLists) ∧
    (scope.contributors owner).Nodup ∧
    (∀ m, (scope.resolve owner).memberSites? m =
      ((scope.contributors owner).find? fun v => scope.ownSites m (.interface v) ≠ []).map
        fun v => scope.ownSites m (.interface v)) ∧
    (∀ v ∈ scope.contributors owner,
      scope.Inherits (maxDepth - 1) (declaredName owner) v) ∧
    (∀ v, scope.Inherits (maxDepth - 1) (declaredName owner) v →
      v ∈ scope.contributors owner ∨
        ∃ u ∈ scope.contributors owner, ∃ base ∈ scope.baseNames u,
          base ∉ scope.contributors owner ∧ scope.Inherits (maxDepth - 1) base v ∧
            scope.Winds [] (maxDepth - 1) (declaredName owner) u) ∧
    (scope.Unwound (declaredName owner) →
      (∀ v, v ∈ scope.contributors owner ↔
        scope.Inherits (maxDepth - 1) (declaredName owner) v) ∧
      ∀ (scope' : Scope) (owner' : Node), scope'.ExtendsDirectly → scope.Reordered scope' →
        owner'.kind = .interfaceDeclaration → declaredName owner' = declaredName owner →
        ∀ v, v ∈ scope'.contributors owner' ↔ v ∈ scope.contributors owner) := by
  refine ⟨resolve_eq_object_contributors hdirect howner, nodup_contributors hdirect howner,
    memberSites?_eq_find?_contributors hdirect howner,
    fun v hv => inherits_of_mem_contributors hdirect howner hv,
    fun v hv => mem_contributors_or_lost hdirect howner (self_mem_contributors hdirect howner) hv,
    fun h => ⟨fun v => h.mem_contributors_iff hdirect howner, ?_⟩⟩
  intro scope' owner' hdirect' hreordered howner' hname v
  have h' : scope'.Unwound (declaredName owner') := by
    rw [hname]
    exact fun u base hbase hinherits hwinds => h u base (hreordered.symm.mem_baseNames hbase)
      (hreordered.symm.inherits hinherits) (hreordered.symm.winds hwinds)
  rw [h.mem_contributors_iff hdirect howner, h'.mem_contributors_iff hdirect' howner', hname]
  exact ⟨hreordered.symm.inherits, hreordered.inherits⟩

/-- Interfaces in a row, each of which extends the next one. -/
def rowOf : (line : Nat) → (names : List String) → List Node
  | line, name :: next :: names =>
    interfaceNode line name [next] [] :: rowOf (line + 1) (next :: names)
  | _, _ => []

/-- The names of thirty interfaces: `L`, `LL` and so on. -/
def rowNames : List String :=
  (List.range 30).map fun k => String.ofList (List.replicate (k + 1) 'L')

/-- An interface that extends the start and the end of a row. -/
def rowOwner : Node := interfaceNode 1 "Owner" ["L", "X"] []

/-- The scope of `interface Owner extends L, X {}`, a row of thirty interfaces
from `L` to `X`, `interface X extends Y {}` and `interface Y { m(): void }`. -/
def row : Scope where
  declarations := rowOwner :: rowOf 2 (rowNames ++ ["X", "Y"]) ++ [interfaceNode 33 "Y" [] ["m"]]
  int32Names := []

/-- Two steps lead to `Y`, but the row winds up to `X` first, and so the look-up
misses the method that `Y` declares.  In the diamond nothing winds. -/
theorem not_mem_contributors_row :
    row.ExtendsDirectly ∧ rowOwner.kind = .interfaceDeclaration ∧
    row.Inherits 2 "Owner" "Y" ∧ row.ownSites "m" (.interface "Y") ≠ [] ∧
    "Y" ∉ row.contributors rowOwner ∧ (row.resolve rowOwner).memberSites? "m" = none ∧
    (∃ u ∈ row.contributors rowOwner, row.Winds [] (maxDepth - 1) "Owner" u) ∧
    diamond.Unwound "Owner" ∧
    ∀ v, v ∈ diamond.contributors diamondOwner ↔ diamond.Inherits (maxDepth - 1) "Owner" v := by
  have hdirect : row.ExtendsDirectly := by
    unfold ExtendsDirectly
    decide +kernel
  have hinherits : row.Inherits 2 "Owner" "Y" :=
    .step (b := "X") (by decide +kernel) (.step (b := "Y") (by decide +kernel) .here)
  have hlost : "Y" ∉ row.contributors rowOwner := by decide +kernel
  have hmember : (row.resolve rowOwner).memberSites? "m" = none := by
    rw [(contributors_of_extendsDirectly row hdirect rowOwner rfl).2.2.1 "m"]
    decide +kernel
  have hwinds : ∃ u ∈ row.contributors rowOwner, row.Winds [] (maxDepth - 1) "Owner" u := by
    obtain ⟨-, -, -, -, hbehind, -⟩ := contributors_of_extendsDirectly row hdirect rowOwner rfl
    rcases hbehind "Y" (hinherits.mono (by decide)) with hmem | ⟨u, hu, -, -, -, -, hwinds⟩
    · exact absurd hmem hlost
    · exact ⟨u, hu, hwinds⟩
  have hdiamond : diamond.ExtendsDirectly := by
    unfold ExtendsDirectly
    decide
  have hunwound : diamond.Unwound "Owner" := unwound_of_length_lt (by decide) "Owner"
  obtain ⟨-, -, -, -, -, hall⟩ :=
    contributors_of_extendsDirectly diamond hdiamond diamondOwner rfl
  exact ⟨hdirect, rfl, hinherits, by decide +kernel, hlost, hmember, hwinds, hunwound,
    (hall hunwound).1⟩

end Scope

end CommandSchema
