import CommandSchema.Proofs.Syntax.Places
import CommandSchema.Proofs.Syntax.Preorder
import CommandSchema.Proofs.Typing.Copies
import Mathlib.Data.List.Destutter

/-!
# CommandSchema.Proofs.Typing.TopLevel

The declarations at the top level of a file.

A declaration counts when nothing but `export` and `declare` stands between it
and the root (`Node.TopLevel`).  The scope of a tree lists just these places, in
the order of the preorder (`Scope.exists_selects_declarationsNamed`).  So it does
not matter which statements are wrapped in `export` and `declare`, nor what
stands in any other statement (`Rewrapped.declarationsNamed`).

The names of a scope are those of its declarations, sorted
(`Scope.pairwise_declaredNames`, `Scope.mem_declaredNames_iff`).
-/

namespace CommandSchema

open Syntax

/-! ## Places at the top level -/

namespace Syntax.Node

/-- A statement in which declarations still stand at the top level. -/
def IsWrapper (n : Node) : Prop := n.kind = .exportStatement ∨ n.kind = .ambientDeclaration

/-- A node declares a type under a name. -/
def DeclaresType (n : Node) (name : String) : Prop :=
  (n.kind = .interfaceDeclaration ∨ n.kind = .typeAliasDeclaration) ∧
    ∃ label, n.child? .name = some label ∧ label.text = name

/-- Nothing but `export` and `declare` stands between a place and the root: every
node strictly above the place, the root apart, is one of these statements. -/
def TopLevel (root : Node) (place : List Nat) : Prop :=
  place ≠ [] ∧ ∀ above, above <+: place → above ≠ [] → above ≠ place →
    ∃ n, root.at? above = some n ∧ n.IsWrapper

/-- The nodes at the places with some property, in the order in which they
start. -/
structure Selects (root : Node) (P : List Nat → Prop) (places : List (List Nat))
    (ns : List Node) : Prop where
  order : places.Pairwise (· < ·)
  nodes : List.Forall₂ (fun place n => root.at? place = some n) places ns
  exact : ∀ place, place ∈ places ↔ P place

/-- Of the nodes at some places those with a further property are selected. -/
theorem Selects.filter {root : Node} {P : List Nat → Prop} {places : List (List Nat)}
    {ns : List Node} (h : root.Selects P places ns) (p : Node → Bool) :
    root.Selects (fun place => P place ∧ ∃ n, root.at? place = some n ∧ p n = true)
      (places.filter fun place => (root.at? place).any p) (ns.filter p) where
  order := h.order.filter _
  nodes := List.rel_filter (fun {place n} hn => by simp only [hn, Option.any_some]) h.nodes
  exact place := by rw [List.mem_filter, h.exact, Option.any_eq_true]

/-- What is selected below siblings, one after the other, is selected below their
parent, at places that start with the number of the sibling. -/
theorem exists_places_flatMap (parent : Node) {P : Node → List Nat → Prop}
    {f : Node → List Node} {ns : List Node}
    (h : ∀ n ∈ ns, ∃ places, n.Selects (P n) places (f n)) {i : Nat}
    (hns : ∀ j, parent.children[i + j]? = ns[j]?) :
    ∃ places, parent.Selects
      (fun place => ∃ j n below, place = (i + j) :: below ∧ ns[j]? = some n ∧ P n below)
      places (ns.flatMap f) := by
  induction ns generalizing i with
  | nil => exact ⟨[], .nil, .nil, by simp⟩
  | cons n ns ih =>
      obtain ⟨first, hfirst⟩ := h n (by simp)
      obtain ⟨rest, hrest⟩ := ih (fun m hm => h m (by simp [hm])) (i := i + 1) fun j => by
        rw [Nat.add_right_comm, Nat.add_assoc, hns]
        rfl
      have hn : parent.children[i]? = some n := hns 0
      refine ⟨first.map (i :: ·) ++ rest, ?_, ?_, fun place => ?_⟩
      · rw [List.pairwise_append, List.pairwise_map]
        refine ⟨hfirst.order.imp fun hlt => List.cons_lt_cons_iff.mpr (.inr ⟨rfl, hlt⟩),
          hrest.order, fun place hplace place' hplace' => ?_⟩
        obtain ⟨below, -, rfl⟩ := List.mem_map.mp hplace
        obtain ⟨j, m, below', rfl, -⟩ := (hrest.exact place').mp hplace'
        exact List.cons_lt_cons_iff.mpr (.inl (by omega))
      · rw [List.flatMap_cons]
        refine List.rel_append ?_ hrest.nodes
        rw [List.forall₂_map_left_iff]
        exact hfirst.nodes.imp fun place m hm => by rw [at?, hn, Option.bind_some, hm]
      · rw [List.mem_append, List.mem_map, hrest.exact]
        constructor
        · rintro (⟨below, hbelow, rfl⟩ | ⟨j, m, below, rfl, hm, hP⟩)
          · exact ⟨0, n, below, rfl, rfl, (hfirst.exact below).mp hbelow⟩
          · exact ⟨j + 1, m, below, by rw [Nat.add_right_comm, Nat.add_assoc], hm, hP⟩
        · rintro ⟨_ | j, m, below, rfl, hm, hP⟩
          · obtain rfl : n = m := Option.some.inj hm
            exact .inl ⟨below, (hfirst.exact below).mpr hP, rfl⟩
          · exact .inr ⟨j, m, below, by rw [Nat.add_right_comm, Nat.add_assoc], hm, hP⟩

end Syntax.Node

/-! ## The declarations of a scope -/

namespace Scope

open Syntax.Node

/-- A node declares a type at a place below it, with nothing but `export` and
`declare` on the way. -/
def DeclaresAt (n : Node) : (place : List Nat) → Prop
  | [] => isTypeDeclaration n = true
  | i :: place => n.IsWrapper ∧ ∃ c, n.children[i]? = some c ∧ DeclaresAt c place

theorem isTransparent_iff {n : Node} : isTransparent n = true ↔ n.IsWrapper := by
  simp [isTransparent, IsWrapper]

theorem not_isWrapper {n : Node}
    (h : n.kind = .interfaceDeclaration ∨ n.kind = .typeAliasDeclaration) : ¬ n.IsWrapper := by
  rcases h with h | h <;> simp [IsWrapper, h]

/-- A type declaration declares some name, which is the one it is recorded
under. -/
theorem declaresType_iff {n : Node} {name : String} :
    n.DeclaresType name ↔ isTypeDeclaration n = true ∧ declaredName n = name := by
  rw [DeclaresType, isTypeDeclaration, declaredName]
  cases n.child? .name <;> simp

/-- The declarations of a statement are those at places that lead through wrappers
only. -/
theorem exists_selects_declarationsOf (n : Node) :
    ∃ places, n.Selects (DeclaresAt n) places (declarationsOf n) := by
  rw [declarationsOf_eq]
  split
  · next hkind =>
      have hbelow : ∀ i place, ¬ DeclaresAt n (i :: place) := fun i place h =>
        not_isWrapper hkind h.1
      split
      · next hdeclares =>
          refine ⟨[[]], List.pairwise_singleton _ _, .cons rfl .nil, fun place => ?_⟩
          cases place with
          | nil => simp [DeclaresAt, hdeclares]
          | cons i place => simp [hbelow]
      · next hdeclares =>
          refine ⟨[], .nil, .nil, fun place => ?_⟩
          cases place with
          | nil => simp [DeclaresAt, hdeclares]
          | cons i place => simp [hbelow]
  · next hkind =>
      have hown : ¬ DeclaresAt n [] := by
        intro h
        simp only [DeclaresAt, isTypeDeclaration, Bool.and_eq_true, Bool.or_eq_true,
          decide_eq_true_eq] at h
        exact hkind h.1
      split
      · next htransparent =>
          have hwrapper := isTransparent_iff.mp htransparent
          obtain ⟨places, hplaces⟩ := exists_places_flatMap n (i := 0)
            (fun c hc => exists_selects_declarationsOf c) fun j => by rw [Nat.zero_add]
          refine ⟨places, hplaces.order, hplaces.nodes, fun place => ?_⟩
          rw [hplaces.exact]
          cases place with
          | nil => simp [hown]
          | cons i place => simp [DeclaresAt, hwrapper]
      · next htransparent =>
          refine ⟨[], .nil, .nil, fun place => ?_⟩
          cases place with
          | nil => simp [hown]
          | cons i place => simp [DeclaresAt, ← isTransparent_iff, htransparent]
termination_by sizeOf n
decreasing_by exact sizeOf_lt_of_mem_children hc

/-- On the way to a declaration all nodes above it are wrappers. -/
theorem declaresAt_iff {n : Node} {place : List Nat} :
    DeclaresAt n place ↔
      (∀ above, above <+: place → above ≠ place → ∃ m, n.at? above = some m ∧ m.IsWrapper) ∧
        ∃ d, n.at? place = some d ∧ isTypeDeclaration d = true := by
  induction place generalizing n with
  | nil => simp [DeclaresAt, at?]
  | cons i place ih =>
      rw [DeclaresAt, at?]
      constructor
      · rintro ⟨hwrapper, c, hc, hdeclares⟩
        obtain ⟨habove, hd⟩ := ih.mp hdeclares
        refine ⟨fun above hprefix hne => ?_, by rwa [hc]⟩
        cases above with
        | nil => exact ⟨n, rfl, hwrapper⟩
        | cons j above =>
            obtain ⟨rfl, hrest⟩ := List.cons_prefix_cons.mp hprefix
            obtain ⟨m, hm, hmwrapper⟩ := habove above hrest (by simpa using hne)
            exact ⟨m, by rw [at?, hc, Option.bind_some, hm], hmwrapper⟩
      · rintro ⟨habove, d, hd, hdeclares⟩
        obtain ⟨c, hc, hd⟩ := Option.bind_eq_some_iff.mp hd
        obtain ⟨m, hm, hwrapper⟩ := habove [] List.nil_prefix (by simp)
        obtain rfl : n = m := Option.some.inj hm
        refine ⟨hwrapper, c, hc, ih.mpr ⟨fun above hprefix hne => ?_, d, hd, hdeclares⟩⟩
        obtain ⟨m, hm, hmwrapper⟩ := habove (i :: above) (List.cons_prefix_cons.mpr ⟨rfl, hprefix⟩)
          (by simpa using hne)
        rw [at?, hc, Option.bind_some] at hm
        exact ⟨m, hm, hmwrapper⟩

/-- The declarations of a tree are those at its top level. -/
theorem exists_selects_declarations (root : Node) (int32Names : List String) :
    ∃ places, root.Selects
      (fun place => root.TopLevel place ∧
        ∃ d, root.at? place = some d ∧ isTypeDeclaration d = true)
      places (ofTree root int32Names).declarations := by
  obtain ⟨places, hplaces⟩ := exists_places_flatMap root (i := 0)
    (fun c _ => exists_selects_declarationsOf c) fun j => by rw [Nat.zero_add]
  rw [← declarationsOfAll_eq_flatMap] at hplaces
  refine ⟨places, hplaces.order, hplaces.nodes, fun place => ?_⟩
  rw [hplaces.exact, TopLevel]
  constructor
  · rintro ⟨i, c, below, rfl, hc, hdeclares⟩
    rw [Nat.zero_add]
    obtain ⟨habove, d, hd, hdecl⟩ := declaresAt_iff.mp hdeclares
    refine ⟨⟨by simp, fun above hprefix hne hother => ?_⟩, d, ?_, hdecl⟩
    · cases above with
      | nil => exact absurd rfl hne
      | cons j above =>
          obtain ⟨rfl, hrest⟩ := List.cons_prefix_cons.mp hprefix
          obtain ⟨m, hm, hwrapper⟩ := habove above hrest (by simpa using hother)
          exact ⟨m, by rw [at?, hc, Option.bind_some, hm], hwrapper⟩
    · rw [at?, hc, Option.bind_some, hd]
  · rintro ⟨⟨hne, habove⟩, d, hd, hdecl⟩
    cases place with
    | nil => exact absurd rfl hne
    | cons i below =>
        rw [at?] at hd
        obtain ⟨c, hc, hd⟩ := Option.bind_eq_some_iff.mp hd
        refine ⟨i, c, below, by rw [Nat.zero_add], hc, declaresAt_iff.mpr ⟨?_, d, hd, hdecl⟩⟩
        intro above hprefix hother
        obtain ⟨m, hm, hwrapper⟩ := habove (i :: above) (List.cons_prefix_cons.mpr ⟨rfl, hprefix⟩)
          (by simp) (by simpa using hother)
        rw [at?, hc, Option.bind_some] at hm
        exact ⟨m, hm, hwrapper⟩

/-- The declarations of a name are those at the top level that declare it. -/
theorem exists_selects_declarationsNamed (root : Node) (int32Names : List String)
    (name : String) :
    ∃ places, root.Selects
      (fun place => root.TopLevel place ∧ ∃ d, root.at? place = some d ∧ d.DeclaresType name)
      places ((ofTree root int32Names).declarationsNamed name) := by
  obtain ⟨places, hplaces⟩ := exists_selects_declarations root int32Names
  have hnamed := hplaces.filter (declaredName · = name)
  refine ⟨_, hnamed.order, hnamed.nodes, fun place => ?_⟩
  rw [hnamed.exact]
  simp only [declaresType_iff, decide_eq_true_eq]
  constructor
  · rintro ⟨⟨htop, d, hd, hdecl⟩, d', hd', hname⟩
    obtain rfl : d = d' := Option.some.inj (hd.symm.trans hd')
    exact ⟨htop, d, hd, hdecl, hname⟩
  · rintro ⟨htop, d, hd, hdecl, hname⟩
    exact ⟨⟨htop, d, hd, hdecl⟩, d, hd, hname⟩

/-! ## Wrapping and unwrapping -/

/-- The second list of statements is the first one with `export` and `declare` put
around statements or taken off, and with any other statements that declare no type
themselves put in the places of such statements. -/
inductive Rewrapped : List Node → List Node → Prop
  | nil : Rewrapped [] []
  | copy {n n' : Node} {ns ns' : List Node} (copied : Copy n n') (rest : Rewrapped ns ns') :
      Rewrapped (n :: ns) (n' :: ns')
  | unwrap {w : Node} {ns ns' : List Node} (wrapper : w.IsWrapper)
      (rest : Rewrapped (w.children ++ ns) ns') : Rewrapped (w :: ns) ns'
  | wrap {w : Node} {ns ns' : List Node} (wrapper : w.IsWrapper)
      (rest : Rewrapped ns (w.children ++ ns')) : Rewrapped ns (w :: ns')
  | drop {n : Node} {ns ns' : List Node} (idle : ¬ n.IsWrapper ∧ n.kind.declaresType = false)
      (rest : Rewrapped ns ns') : Rewrapped (n :: ns) ns'
  | add {n : Node} {ns ns' : List Node} (idle : ¬ n.IsWrapper ∧ n.kind.declaresType = false)
      (rest : Rewrapped ns ns') : Rewrapped ns (n :: ns')

/-- A wrapper has the declarations of the statements in it. -/
theorem declarationsOf_of_isWrapper {w : Node} (h : w.IsWrapper) :
    declarationsOf w = w.children.flatMap declarationsOf := by
  have hkind : ¬ (w.kind = .interfaceDeclaration ∨ w.kind = .typeAliasDeclaration) :=
    fun hkind => not_isWrapper hkind h
  rw [declarationsOf_eq, if_neg hkind, if_pos (isTransparent_iff.mpr h)]

/-- What is neither a wrapper nor a declaration has no declarations. -/
theorem declarationsOf_of_idle {n : Node} (h : ¬ n.IsWrapper ∧ n.kind.declaresType = false) :
    declarationsOf n = [] := by
  have hkind : ¬ (n.kind = .interfaceDeclaration ∨ n.kind = .typeAliasDeclaration) := by
    rintro (hkind | hkind) <;> simp [hkind] at h
  rw [declarationsOf_eq, if_neg hkind, if_neg (fun ht => h.1 (isTransparent_iff.mp ht))]

/-- The declarations of copies are copies. -/
theorem declarationsOf_copy {n n' : Node} (h : Copy n n') :
    List.Forall₂ Copy (declarationsOf n) (declarationsOf n') := by
  have hbelow : List.Forall₂ Copy (n.children.flatMap declarationsOf)
      (n'.children.flatMap declarationsOf) :=
    List.rel_flatMap
      (forall₂_imp_of_mem (copying_copy.children h) fun c hc c' _ hchild =>
        declarationsOf_copy hchild)
      fun _ _ hc => hc
  rw [declarationsOf_eq, declarationsOf_eq, copying_copy.isTypeDeclaration_eq h, isTransparent,
    isTransparent, copying_copy.kind h]
  split
  · split
    · exact .cons h .nil
    · exact .nil
  · split
    · exact hbelow
    · exact .nil
termination_by sizeOf n
decreasing_by exact sizeOf_lt_of_mem_children hc

/-- Rewrapped statements have the same declarations. -/
theorem Rewrapped.flatMap_declarationsOf {ns ns' : List Node} (h : Rewrapped ns ns') :
    List.Forall₂ Copy (ns.flatMap declarationsOf) (ns'.flatMap declarationsOf) := by
  -- a wrapper has the declarations of its children, so both lists stay the same at every step
  induction h with
  | nil => exact .nil
  | copy copied _ ih => exact List.rel_append (declarationsOf_copy copied) ih
  | unwrap wrapper _ ih =>
      rwa [List.flatMap_append, ← declarationsOf_of_isWrapper wrapper] at ih
  | wrap wrapper _ ih =>
      rwa [List.flatMap_append, ← declarationsOf_of_isWrapper wrapper] at ih
  | drop idle _ ih => rwa [List.flatMap_cons, declarationsOf_of_idle idle]
  | add idle _ ih => rwa [List.flatMap_cons, declarationsOf_of_idle idle]

section Rewrapped

variable {root root' : Node} (h : Rewrapped root.children root'.children)
  (int32Names : List String)

include h

theorem Rewrapped.declarations : List.Forall₂ Copy (ofTree root int32Names).declarations
    (ofTree root' int32Names).declarations := by
  rw [ofTree, ofTree, declarationsOfAll_eq_flatMap, declarationsOfAll_eq_flatMap]
  exact h.flatMap_declarationsOf

theorem Rewrapped.declarationsNamed (name : String) :
    List.Forall₂ Copy ((ofTree root int32Names).declarationsNamed name)
      ((ofTree root' int32Names).declarationsNamed name) :=
  List.rel_filter (fun {d d'} hd => by simp only [copying_copy.declaredName_eq hd])
    (h.declarations int32Names)

theorem Rewrapped.declaredNames :
    (ofTree root' int32Names).declaredNames = (ofTree root int32Names).declaredNames := by
  rw [Scope.declaredNames, Scope.declaredNames,
    map_eq_of_forall₂ (h.declarations int32Names) fun _ _ hd => copying_copy.declaredName_eq hd]

end Rewrapped

/-! ## The names of a scope -/

section Names

variable {α : Type} [DecidableEq α]

/-- The loop that leaves out repeated elements keeps one of each run. -/
theorem eraseRepsBy_loop_eq (a : α) (as acc : List α) :
    List.eraseRepsBy.loop (· == ·) a as acc = acc.reverse ++ as.destutter' (· ≠ ·) a := by
  induction as generalizing a acc with
  | nil => simp [List.eraseRepsBy.loop]
  | cons b as ih =>
      rw [List.eraseRepsBy.loop]
      by_cases hab : a = b
      · rw [beq_iff_eq.mpr hab, List.destutter'_cons_neg _ (not_not.mpr hab)]
        exact ih a acc
      · rw [beq_eq_false_iff_ne.mpr hab, List.destutter'_cons_pos _ hab]
        simp [ih]

theorem eraseReps_eq_destutter (as : List α) : as.eraseReps = as.destutter (· ≠ ·) := by
  cases as with
  | nil => rfl
  | cons a as => exact eraseRepsBy_loop_eq a as []

end Names

variable (scope : Scope)

/-- The names of all declarations, sorted, repeated names next to each other. -/
theorem pairwise_mergeSort_declaredName :
    ((scope.declarations.map declaredName).mergeSort fun a b => decide (a ≤ b)).Pairwise
      (· ≤ ·) := by
  have htrans : ∀ a b c : String, decide (a ≤ b) = true → decide (b ≤ c) = true →
      decide (a ≤ c) = true := by
    simpa using fun a b c => @String.le_trans a b c
  have htotal : ∀ a b : String, (decide (a ≤ b) || decide (b ≤ a)) = true := by
    simpa using String.le_total
  exact (List.pairwise_mergeSort htrans htotal _).imp of_decide_eq_true

/-- The names are those of the sorted list without repetitions. -/
theorem declaredNames_eq_dedup : scope.declaredNames =
    ((scope.declarations.map declaredName).mergeSort fun a b => decide (a ≤ b)).dedup := by
  have : Std.Antisymm (α := String) (· ≤ ·) := ⟨fun _ _ => String.le_antisymm⟩
  rw [declaredNames, eraseReps_eq_destutter,
    scope.pairwise_mergeSort_declaredName.destutter_eq_dedup]

theorem pairwise_declaredNames : scope.declaredNames.Pairwise (· < ·) := by
  rw [declaredNames_eq_dedup]
  have hle := scope.pairwise_mergeSort_declaredName.sublist (List.dedup_sublist _)
  refine (hle.and (List.nodup_dedup _)).imp fun {a b} h => ?_
  exact String.not_le.mp fun hge => h.2 (String.le_antisymm h.1 hge)

theorem mem_declaredNames_iff {name : String} :
    name ∈ scope.declaredNames ↔ scope.declarationsNamed name ≠ [] := by
  rw [declaredNames_eq_dedup, List.mem_dedup, List.mem_mergeSort, List.mem_map,
    declarationsNamed, ne_eq, List.filter_eq_nil_iff]
  simp

/-- **The table of declarations holds the top level**: under each name stand, in
the order of the preorder, exactly the interfaces and aliases of this name with
nothing but `export` and `declare` above them.  Wrapping statements in these, or
unwrapping them, and changing other statements change nothing about it.  The
names listed are those with at least one declaration, strictly increasing in the
order of code points. -/
theorem declarations_topLevel (root : Node) (int32Names : List String) :
    (∀ name, ∃ places, root.Selects
      (fun place => root.TopLevel place ∧ ∃ d, root.at? place = some d ∧ d.DeclaresType name)
      places ((ofTree root int32Names).declarationsNamed name)) ∧
    (∀ root' : Node, Rewrapped root.children root'.children →
      (∀ name, List.Forall₂ Copy ((ofTree root int32Names).declarationsNamed name)
        ((ofTree root' int32Names).declarationsNamed name)) ∧
      (ofTree root' int32Names).declaredNames = (ofTree root int32Names).declaredNames) ∧
    (ofTree root int32Names).declaredNames.Pairwise (· < ·) ∧
    ∀ name, name ∈ (ofTree root int32Names).declaredNames ↔
      (ofTree root int32Names).declarationsNamed name ≠ [] :=
  ⟨exists_selects_declarationsNamed root int32Names,
    fun _ h => ⟨h.declarationsNamed int32Names, h.declaredNames int32Names⟩,
    pairwise_declaredNames _, fun _ => mem_declaredNames_iff _⟩

/-- A statement of some kind around other statements. -/
def statementNode (kind : Kind) (children : List Node) : Node :=
  ⟨kind, none, "", ⟨1, 1⟩, children⟩

/-- A declaration of a name with nothing else in it. -/
def declarationNode (kind : Kind) (name : String) : Node :=
  statementNode kind [⟨.typeIdentifier, some .name, name, ⟨1, 1⟩, []⟩]

/-- An alias `B`, an interface `A`, and one more interface `A` in a module. -/
def plainFile : Node :=
  statementNode .program [declarationNode .typeAliasDeclaration "B",
    statementNode .otherStatement [declarationNode .interfaceDeclaration "A"],
    declarationNode .interfaceDeclaration "A"]

/-- The same alias and interface behind `export` and `declare`. -/
def wrappedFile : Node :=
  statementNode .program [declarationNode .typeAliasDeclaration "B",
    statementNode .exportStatement
      [statementNode .ambientDeclaration [declarationNode .interfaceDeclaration "A"]]]

/-- Both files have the same table, in which the interface in the module does not
stand. -/
theorem declarations_topLevel_wrappedFile :
    Rewrapped plainFile.children wrappedFile.children ∧
    (∀ name, List.Forall₂ Copy ((ofTree plainFile []).declarationsNamed name)
      ((ofTree wrappedFile []).declarationsNamed name)) ∧
    (ofTree wrappedFile []).declaredNames = (ofTree plainFile []).declaredNames ∧
    (ofTree plainFile []).declarationsNamed "A" =
      [declarationNode .interfaceDeclaration "A"] := by
  have hrewrapped : Rewrapped plainFile.children wrappedFile.children :=
    .copy (by decide) (.drop (by simp [statementNode, IsWrapper])
      (.wrap (.inl rfl) (.wrap (.inr rfl) (.copy (by decide) .nil))))
  obtain ⟨hnamed, hnames⟩ := (declarations_topLevel plainFile []).2.1 wrappedFile hrewrapped
  exact ⟨hrewrapped, hnamed, hnames, by decide⟩

end Scope
end CommandSchema
