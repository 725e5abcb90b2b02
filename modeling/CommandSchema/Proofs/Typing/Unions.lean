import CommandSchema.Proofs.Typing.Completion
import CommandSchema.Proofs.Typing.Denotation

/-!
# CommandSchema.Proofs.Typing.Unions

What a union joins.

No union in a resolved type has a union among its variants, whatever the guards
of the resolution do (`Scope.flat_typeWithin`).  A union that is resolved without
being cut short joins the variants of all its named children, in source order
(`Scope.Completes.exists_children`).  These children are resolved one after the
other, in one go (`Scope.resolveAll`): an interface among them contributes its
members to the first child that leads to it.  A later child may lack members that
it has when it is resolved alone, and nothing else
(`ResolvedType.Fewer`); where it has no interface in common with the children
before it, it lacks nothing.
-/

namespace CommandSchema

open Syntax

/-! ## Types -/

namespace ResolvedType

/-- The first type is the second one or stands somewhere among its variants. -/
inductive Inside : ResolvedType → ResolvedType → Prop
  | refl (t : ResolvedType) : Inside t t
  | variant {t v : ResolvedType} {ts : List ResolvedType} (mem : v ∈ ts) (rest : Inside t v) :
      Inside t (.union ts)

/-- No union inside a type has a union among its own variants. -/
def Flat (t : ResolvedType) : Prop :=
  ∀ ts, Inside (.union ts) t → ∀ v ∈ ts, v.isUnion = false

/-- A type is flat when its variants are no unions. -/
theorem flat_of_variants {t : ResolvedType} (h : ∀ v ∈ t.variants, v.isUnion = false) :
    t.Flat := by
  intro ts hinside
  cases hinside with
  | refl => exact h
  | variant mem rest =>
      have hleaf := h _ mem
      cases rest with
      | refl => cases hleaf
      | variant => cases hleaf

/-- The first type is the second one, but for some levels of objects that are
missing. -/
inductive Fewer : ResolvedType → ResolvedType → Prop
  | same (t : ResolvedType) : Fewer t t
  | object {text : String} {levels levels' : List (List Node)}
      (some_missing : List.Sublist levels levels') :
      Fewer (.object text levels) (.object text levels')
  | union {ts ts' : List ResolvedType} (all : List.Forall₂ Fewer ts ts') :
      Fewer (.union ts) (.union ts')

namespace Fewer

variable {t t' : ResolvedType}

theorem variants (h : Fewer t t') : List.Forall₂ Fewer t.variants t'.variants := by
  cases h with
  | same => exact List.forall₂_same.mpr fun v _ => .same v
  | object some_missing => exact .cons (.object some_missing) .nil
  | union all => exact all

/-- Some of the levels are left. -/
theorem levels (h : Fewer t t') : t.levels.Sublist t'.levels := by
  cases h with
  | same => exact List.Sublist.refl _
  | object some_missing => exact some_missing
  | union => exact List.Sublist.refl _

end Fewer

end ResolvedType

namespace Scope

variable {scope : Scope} {k : Nat} {path : List Node} {n m c : Node} {seen : List String}

/-! ## Flat types -/

/-- The variants of a type are no unions, however its resolution goes. -/
theorem isUnion_of_mem_variants_typeWithin {v : ResolvedType}
    (hv : v ∈ (scope.typeWithin k path n seen).variants) : v.isUnion = false := by
  induction k generalizing path n seen with
  | zero =>
      rw [typeWithin_zero] at hv
      rw [List.mem_singleton.mp hv]
      rfl
  | succ k ih =>
      rcases typeWithin_succ_cases scope k path n seen with
        ⟨m, path', -, htype⟩ | kind | ⟨hunion, -⟩
      · rw [htype] at hv
        exact ih hv
      · obtain ⟨types, htype, htypes⟩ := typeWithin_union scope kind k path seen
        rw [htype] at hv
        obtain ⟨t, ht, hv⟩ := List.mem_flatMap.mp hv
        obtain ⟨c, -, seen', rfl⟩ := exists_left_of_forall₂ htypes ht
        exact ih hv
      · rw [ResolvedType.variants_of_not_isUnion hunion] at hv
        rwa [List.mem_singleton.mp hv]

/-- **Resolved types are flat.** -/
theorem flat_typeWithin (scope : Scope) (k : Nat) (path : List Node) (n : Node)
    (seen : List String) : (scope.typeWithin k path n seen).Flat :=
  ResolvedType.flat_of_variants fun _ hv => isUnion_of_mem_variants_typeWithin hv

/-- What resolves to a union leads to one. -/
theorem exists_leadsIn_of_isUnion (h : (scope.typeWithin k path n seen).isUnion = true) :
    ∃ j m, scope.LeadsIn j n m ∧ m.kind = .unionType := by
  induction k generalizing path n seen with
  | zero =>
      rw [typeWithin_zero] at h
      cases h
  | succ k ih =>
      rcases typeWithin_succ_cases scope k path n seen with
        ⟨m, path', hleads, htype⟩ | kind | ⟨hunion, -⟩
      · rw [htype] at h
        obtain ⟨j, last, hrest, kind⟩ := ih h
        exact ⟨j + 1, last, .step hleads hrest, kind⟩
      · exact ⟨0, n, .refl n, kind⟩
      · rw [hunion] at h
        cases h

/-! ## The children of a union -/

/-- The types of several nodes in one resolution, one after the other: every
interface contributes its members once. -/
def resolveAll (scope : Scope) (ns : List Node) : List ResolvedType :=
  ((ns.mapM (scope.resolveWithin (maxDepth + 1) [])).run []).1

theorem length_resolveAll (scope : Scope) (ns : List Node) :
    (scope.resolveAll ns).length = ns.length :=
  (forall₂_run_mapM (scope.resolveWithin (maxDepth + 1) []) ns []).length_eq.symm

/-- Two expressions have no interface in common. -/
def Apart (scope : Scope) (n m : Node) : Prop :=
  ∀ name, scope.Below (.expression n) (.interface name) →
    ¬ scope.Below (.expression m) (.interface name)

/-- Among equal types nothing is missing. -/
theorem comparison_eq {others : String → Prop} {places : Place → Prop}
    (places_next : ∀ {p q : Place}, places p → q ∈ scope.nexts p → places q)
    (others_below : ∀ {v w : String}, others v → scope.Below (.interface v) (.interface w) →
      others w)
    (h : ∀ name, others name → ¬ places (.interface name)) :
    Comparison scope others places (· = ·) (· = ·) where
  places_next := places_next
  others_below := others_below
  missing hother hplace := absurd hplace (h _ hother)
  append := by rintro _ _ _ _ rfl rfl; rfl
  refl _ := rfl
  same _ := rfl
  object := by rintro _ _ _ rfl; rfl
  union h := by rw [List.forall₂_eq_eq_eq] at h; rw [h]
  variants := by rintro _ _ rfl; exact List.forall₂_same.mpr fun _ _ => rfl
  levels := by rintro _ _ rfl; rfl

/-- Levels of the other interfaces may be missing. -/
theorem comparison_fewer {others : String → Prop}
    (others_below : ∀ {v w : String}, others v → scope.Below (.interface v) (.interface w) →
      others w) :
    Comparison scope others (fun _ => True) List.Sublist ResolvedType.Fewer where
  places_next _ _ := trivial
  others_below := others_below
  missing _ _ levels := List.nil_sublist levels
  append h h' := h.append h'
  refl levels := List.Sublist.refl levels
  same := .same
  object := .object
  union := .union
  variants h := h.variants
  levels h := h.levels

/-- The interfaces that have contributed stand below the nodes resolved. -/
theorem exists_below_of_mem_run_resolveWithin (scope : Scope) (k : Nat) (path ns : List Node) :
    ∀ name ∈ ((ns.mapM (scope.resolveWithin k path)).run []).2,
      ∃ b ∈ ns, scope.Below (.expression b) (.interface name) := by
  refine run_mapM_preserves (I := fun seen => ∀ name ∈ seen,
    ∃ b ∈ ns, scope.Below (.expression b) (.interface name)) (fun b hb seen hseen name hname => ?_)
    (fun name hname => absurd hname List.not_mem_nil)
  rcases below_of_mem_run_walk (p := .expression b) name hname with hold | hbelow
  · exact hseen name hold
  · exact ⟨b, hb, hbelow⟩

section Children

variable {ns : List Node}
  (h : Along (scope.resolveWithin k path) (fun c => scope.Completes k path (.expression c)) ns [])
  (hk : k ≤ maxDepth + 1)

include h hk

/-- Where the resolutions of several nodes complete they come to the same types as
with all steps left and no alias entered. -/
theorem resolveAll_eq :
    ((ns.mapM (scope.resolveWithin k path)).run []).1 = scope.resolveAll ns := by
  have hcompare : Comparison scope (fun _ => False) (fun _ => True) (· = ·) (· = ·) :=
    comparison_eq (fun _ _ => trivial) (fun hother _ => hother) fun _ hother => hother.elim
  have hwithin := hcompare.within hk (Nat.le_refl _) (List.nil_subset path)
  have hstart : Ahead (fun _ => False) (fun _ => True) [] [] := fun name _ => by simp
  have hsame := (h.rel (fun c _ s s' hc hs => hwithin.node trivial hc s' hs) hstart).1
  rwa [List.forall₂_eq_eq_eq] at hsame

/-- When all resolutions complete nothing is left open. -/
theorem closedBut_run_resolveWithin :
    scope.ClosedBut [] ((ns.mapM (scope.resolveWithin k path)).run []).2 :=
  (h.establishes (Q := fun _ _ => True)
    (fun _ _ _ hc hclosed => ⟨(hc.closedBut hk hclosed).1, trivial⟩)
    (fun _ _ _ _ _ _ => trivial) fun _ hv => absurd hv List.not_mem_nil).1

/-- **Each child** has the type that it has alone, but for levels that interfaces of
the children before it have contributed. -/
theorem fewer_of_getElem?_resolveAll {i : Nat} (hc : ns[i]? = some c) {t : ResolvedType}
    (ht : (scope.resolveAll ns)[i]? = some t) :
    t.Fewer (scope.resolve c) ∧
      ((∀ b ∈ ns.take i, scope.Apart b c) → t = scope.resolve c) := by
  obtain ⟨hcompletes, htype⟩ := h.get hc
  rw [resolveAll_eq h hk, ht, Option.some.injEq] at htype
  have hclosed := closedBut_run_resolveWithin (h.take i) hk
  have hbefore := exists_below_of_mem_run_resolveWithin scope k path (ns.take i)
  generalize (((ns.take i).mapM (scope.resolveWithin k path)).run []).2 = before at *
  have others_below : ∀ {v w : String}, v ∈ before →
      scope.Below (.interface v) (.interface w) → w ∈ before := by
    refine fun hv hw => hclosed.mem_of_below ?_ hw
    rintro u ⟨⟩
    exact hv
  have hahead : ∀ places, Ahead (· ∈ before) places before [] := fun _ name _ => by simp
  rw [htype]
  constructor
  · have hcompare : Comparison scope (· ∈ before) (fun _ => True) List.Sublist
        ResolvedType.Fewer := comparison_fewer others_below
    have hwithin := hcompare.within hk (Nat.le_refl _) (List.nil_subset path)
    exact (hwithin.node trivial hcompletes [] (hahead _)).1
  · intro hapart
    have hcompare : Comparison scope (· ∈ before) (scope.Below (.expression c)) (· = ·)
        (· = ·) := by
      refine comparison_eq (fun hp hq => hp.tail hq) others_below fun name hname => ?_
      obtain ⟨b, hb, hbelow⟩ := hbefore name hname
      exact hapart b hb name hbelow
    have hwithin := hcompare.within hk (Nat.le_refl _) (List.nil_subset path)
    exact (hwithin.node .refl hcompletes [] (hahead _)).1

/-- Children with no interface in common all have the types that they have alone. -/
theorem resolveAll_eq_map (hapart : ns.Pairwise scope.Apart) :
    scope.resolveAll ns = ns.map scope.resolve := by
  refine List.ext_getElem (by rw [length_resolveAll, List.length_map]) fun i hi hi' => ?_
  rw [List.length_map] at hi'
  rw [List.getElem_map]
  refine (fewer_of_getElem?_resolveAll h hk (List.getElem?_eq_getElem hi')
    (List.getElem?_eq_getElem hi)).2 fun b hb => ?_
  obtain ⟨j, hj, rfl⟩ := List.mem_take_iff_getElem.mp hb
  exact List.pairwise_iff_getElem.mp hapart j i (by omega) hi' (by omega)

end Children

/-! ## Unions -/

/-- A resolution that completes comes to the named children of the union that its
node leads to, and joins their variants. -/
theorem Completes.exists_children {j : Nat} (hleads : scope.LeadsIn j n m)
    (kind : m.kind = .unionType)
    (h : scope.Completes (maxDepth + 1) [] (.expression n) []) :
    ∃ k path, k ≤ maxDepth + 1 ∧
      Along (scope.resolveWithin k path) (fun c => scope.Completes k path (.expression c))
        m.namedChildren [] ∧
      scope.resolve n =
        .union ((scope.resolveAll m.namedChildren).flatMap ResolvedType.variants) := by
  obtain ⟨k', path, hle, hunion, hresolve⟩ := h.of_leadsIn hleads
  cases k' with
  | zero => exact hunion.elim
  | succ k =>
      have hchildren := hunion.of_union kind
      refine ⟨k, path, by omega, hchildren, ?_⟩
      rw [← resolveAll_eq hchildren (by omega), resolve, hresolve, resolveWithin_union kind]
      rfl

/-- **Unions are flat and lose nothing.**  No union inside a resolved type has a union
among its own variants, and what resolves to a union leads to one.  If the
resolution completes, the variants are those of all named children, in source
order and as often as they come.  The children are resolved one after the other:
each has the type that it has alone, but for levels of interfaces that have
contributed to a child before it, so it has just this type if it has no interface
in common with these.  A union of children with no interface in common joins the
types that they have alone. -/
theorem resolve_union (scope : Scope) (n : Node) :
    (scope.resolve n).Flat ∧
    ((scope.resolve n).isUnion = true → ∃ j m, scope.LeadsIn j n m ∧ m.kind = .unionType) ∧
    ∀ j m, scope.LeadsIn j n m → m.kind = .unionType →
      scope.Completes (maxDepth + 1) [] (.expression n) [] →
      scope.resolve n =
        .union ((scope.resolveAll m.namedChildren).flatMap ResolvedType.variants) ∧
      (scope.resolveAll m.namedChildren).length = m.namedChildren.length ∧
      (∀ i c t, m.namedChildren[i]? = some c → (scope.resolveAll m.namedChildren)[i]? = some t →
        t.Fewer (scope.resolve c) ∧
          ((∀ b ∈ m.namedChildren.take i, scope.Apart b c) → t = scope.resolve c)) ∧
      (m.namedChildren.Pairwise scope.Apart →
        scope.resolve n = .union (m.namedChildren.flatMap fun c => (scope.resolve c).variants)) := by
  refine ⟨scope.flat_typeWithin _ _ _ _, exists_leadsIn_of_isUnion,
    fun j m hleads kind hcompletes => ?_⟩
  obtain ⟨k, path, hk, hchildren, hresolve⟩ := hcompletes.exists_children hleads kind
  refine ⟨hresolve, scope.length_resolveAll _,
    fun i c t hc ht => fewer_of_getElem?_resolveAll hchildren hk hc ht, fun hapart => ?_⟩
  rw [hresolve, resolveAll_eq_map hchildren hk hapart, List.flatMap_map]

/-- What stands below a place is among any places that lead to each other only. -/
theorem mem_of_below {ps : List Place} (hclosed : ∀ p ∈ ps, ∀ q ∈ scope.nexts p, q ∈ ps)
    {p q : Place} (hp : p ∈ ps) (hq : scope.Below p q) : q ∈ ps := by
  induction hq with
  | refl => exact hp
  | tail _ hnext ih => exact hclosed _ ih _ hnext

/-- A reference to a name. -/
def referenceNode (name : String) : Node := ⟨.typeIdentifier, none, name, ⟨4, 1⟩, []⟩

/-- The union of some references. -/
def unionNode (names : List String) : Node :=
  ⟨.unionType, some .value, "", ⟨4, 1⟩, names.map referenceNode⟩

/-- The alias `U` of such a union. -/
def unionAlias (names : List String) : Node :=
  ⟨.typeAliasDeclaration, none, "", ⟨4, 1⟩,
    [⟨.typeIdentifier, some .name, "U", ⟨4, 1⟩, []⟩, unionNode names]⟩

/-- The scope of `interface A { m(): void }`, `interface B extends A { n(): void }` and
`interface C { o(): void }`. -/
def threeInterfaces : Scope where
  declarations :=
    [interfaceNode 1 "A" [] ["m"], interfaceNode 2 "B" ["A"] ["n"], interfaceNode 3 "C" [] ["o"]]
  int32Names := []

/-- The references in `B | C` have no interface in common, so the union joins the types
that they have alone. -/
theorem resolve_union_threeInterfaces :
    threeInterfaces.Completes (maxDepth + 1) [] (.expression (unionAlias ["B", "C"])) [] ∧
    (threeInterfaces.resolveAll (["B", "C"].map referenceNode))[1]? =
      some (threeInterfaces.resolve (referenceNode "C")) ∧
    threeInterfaces.resolve (unionAlias ["B", "C"]) = .union
      ((["B", "C"].map referenceNode).flatMap fun c => (threeInterfaces.resolve c).variants) := by
  have hleads : threeInterfaces.LeadsIn 1 (unionAlias ["B", "C"]) (unionNode ["B", "C"]) :=
    .step (.aliased rfl rfl) (.refl _)
  have hcompletes : threeInterfaces.Completes (maxDepth + 1) []
      (.expression (unionAlias ["B", "C"])) [] := by
    decide +kernel
  -- what stands below the two references
  let left : List Place :=
    [.expression (referenceNode "B"), .expression (interfaceNode 2 "B" ["A"] ["n"]), .interface "B",
      .interface "A"]
  let right : List Place :=
    [.expression (referenceNode "C"), .expression (interfaceNode 3 "C" [] ["o"]), .interface "C"]
  have hapart : threeInterfaces.Apart (referenceNode "B") (referenceNode "C") := by
    intro name hB hC
    have hleft : Place.interface name ∈ left :=
      mem_of_below (by decide +kernel) List.mem_cons_self hB
    have hright : Place.interface name ∈ right :=
      mem_of_below (by decide +kernel) List.mem_cons_self hC
    have hnone : ∀ q ∈ left, q ∉ right := by decide +kernel
    exact hnone _ hleft hright
  obtain ⟨-, hlength, hchild, hjoins⟩ :=
    (resolve_union threeInterfaces (unionAlias ["B", "C"])).2.2 1 _ hleads rfl hcompletes
  obtain ⟨t, ht⟩ : ∃ t, (threeInterfaces.resolveAll (unionNode ["B", "C"]).namedChildren)[1]? =
      some t :=
    ⟨_, List.getElem?_eq_getElem (by rw [hlength]; decide)⟩
  have hsame := (hchild 1 (referenceNode "C") t rfl ht).2 fun b hb => by
    rw [List.mem_singleton.mp hb]
    exact hapart
  exact ⟨hcompletes, ht.trans (congrArg some hsame),
    hjoins (List.pairwise_pair.mpr hapart)⟩

/-- In `A | A` only the first variant has the members of `A`, so the variants are
not those that the two references have alone. -/
theorem resolve_ne_union_of_resolutions :
    threeInterfaces.Completes (maxDepth + 1) [] (.expression (unionAlias ["A", "A"])) [] ∧
    threeInterfaces.resolve (unionAlias ["A", "A"]) ≠ .union
      ((["A", "A"].map referenceNode).flatMap fun c => (threeInterfaces.resolve c).variants) := by
  refine ⟨by decide +kernel, fun h => ?_⟩
  have hlevels := congrArg (fun t => t.variants.map fun v => v.levels.length) h
  revert hlevels
  decide +kernel

end Scope

end CommandSchema
