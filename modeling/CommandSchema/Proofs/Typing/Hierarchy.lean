import CommandSchema.Proofs.Syntax.Preorder
import CommandSchema.Proofs.Typing.Resolution
import CommandSchema.Typing.FileModel
import Mathlib.Logic.Relation

/-!
# CommandSchema.Proofs.Typing.Hierarchy

The hierarchy that a member is looked up in.

The places of a hierarchy are the interfaces, by name, and the type
expressions between them: `Scope.nexts` lists where each place leads, in source
order.  On this graph the module says what a look-up ought to find, with no
word on how it goes about it:

* `Scope.Lacks` — nothing at or below a place declares the member;
* `Scope.Finds` — the declaration that a search in source order comes to first;
* `Scope.WithinReach` — no declaration that the search could come to lies
  beyond a number of steps;
* `Scope.HidesBases` — a redeclared member hides every base declaration.
-/

namespace CommandSchema

open Syntax Syntax.Node

namespace Scope

/-! ## Places -/

/-- A place of a hierarchy: the interfaces with one name, or a type
expression. -/
inductive Place where
  | interface (name : String)
  | expression (n : Node)
deriving DecidableEq

/-- Whether a place is a union. -/
def Place.isUnion : Place → Bool
  | .interface _ => false
  | .expression n => n.kind = .unionType

variable (scope : Scope)

/-- The place that a type in an `extends` clause leads to. -/
def basePlace (base : Node) : Place :=
  if scope.namesInterface (baseName base) then .interface (baseName base) else .expression base

/-- The places that a place leads to, in source order: the bases of an
interface, the interface that a declaration belongs to, the children of a
union, and the node that any other expression stands for. -/
def nexts : Place → List Place
  | .interface name => ((scope.interfaces name).flatMap bases).map scope.basePlace
  | .expression n =>
    if n.kind = .interfaceDeclaration then [.interface (declaredName n)]
    else if n.kind = .unionType then n.namedChildren.map .expression
    else (scope.target? n).toList.map .expression

/-- The member lists of a place itself: those of all declarations of an
interface, or that of an object type. -/
def ownLevels : Place → List (List Node)
  | .interface name => [(scope.interfaces name).filterMap (·.child? .body)]
  | .expression n => if n.kind = .objectType then [[n]] else []

/-- The declarations of a member in the member lists of a place. -/
def ownSites (m : String) (p : Place) : List Node :=
  (scope.ownLevels p).flatten.flatMap (·.membersNamed m)

/-- A place extends each place that it leads to, unless it is a union. -/
def Extends (p q : Place) : Prop := p.isUnion = false ∧ q ∈ scope.nexts p

/-- The second place stands at or below the first one. -/
def Below : Place → Place → Prop := Relation.ReflTransGen fun p q => q ∈ scope.nexts p

/-! ## What a look-up ought to find -/

/-- Neither a place nor anything below it declares the member. -/
def Lacks (m : String) (p : Place) : Prop := ∀ q, scope.Below p q → scope.ownSites m q = []

/-- A place passes the search for a member on to the places it leads to when it
does not declare the member itself. -/
def Passes (m : String) (p q : Place) : Prop := scope.ownSites m p = [] ∧ q ∈ scope.nexts p

/-- The declarations that a search in source order finds: those of the place
itself if it has any, and otherwise those behind the first of its bases that
does not lack the member. -/
inductive Finds (m : String) : Place → List Node → Prop
  | own {p : Place} (own : scope.ownSites m p ≠ []) : Finds m p (scope.ownSites m p)
  | next {p q : Place} {before after : List Place} {sites : List Node}
      (none : scope.ownSites m p = []) (order : scope.nexts p = before ++ q :: after)
      (lack : ∀ b ∈ before, scope.Lacks m b) (rest : Finds m q sites) : Finds m p sites

/-- The search for a member needs no more than the given number of steps: on
every way down it comes in time to a place that declares the member, or to one
that lacks it.  Unions pass nothing on, so they have to lack it. -/
inductive WithinReach (m : String) : Nat → Place → Prop
  | declared {k : Nat} {p : Place} (own : scope.ownSites m p ≠ []) : WithinReach m (k + 1) p
  | absent {k : Nat} {p : Place} (lack : scope.Lacks m p) : WithinReach m k p
  | next {k : Nat} {p : Place} (single : p.isUnion = false)
      (all : ∀ q ∈ scope.nexts p, WithinReach m k q) : WithinReach m (k + 1) p

/-- A redeclared member hides every base declaration: of an interface `derived`
in the hierarchy of the owner and one that it extends, both of which declare
the member, the look-up does not return the declarations of the latter. -/
def HidesBases (owner : Node) (m : String) : Prop :=
  ∀ derived base, Relation.ReflTransGen scope.Extends (.expression owner) (.interface derived) →
    Relation.TransGen scope.Extends (.interface derived) (.interface base) →
    scope.ownSites m (.interface derived) ≠ [] → scope.ownSites m (.interface base) ≠ [] →
    (scope.resolve owner).memberSites? m ≠ some (scope.ownSites m (.interface base))

variable {scope} {m : String} {p q : Place}

/-- A node that stands for another one has no member list of its own. -/
theorem Leads.ownLevels_eq_nil {n q : Node} (h : scope.Leads n q) :
    scope.ownLevels (.expression n) = [] := by
  have hkind : n.kind ≠ .objectType := by
    cases h with
    | wrapper kind => rcases kind with kind | kind | kind <;> simp [kind]
    | reference kind => rcases kind with kind | kind <;> simp [kind]
    | generic kind | aliased kind => simp [kind]
  rw [ownLevels, if_neg hkind]

/-- A union declares nothing itself. -/
theorem isUnion_eq_false_of_ownSites (h : scope.ownSites m p ≠ []) : p.isUnion = false := by
  cases hunion : p.isUnion with
  | false => rfl
  | true =>
      cases p with
      | interface name => cases hunion
      | expression n =>
          have kind : n.kind = .unionType := by simpa [Place.isUnion] using hunion
          exact absurd (by simp [ownSites, ownLevels, kind]) h

/-- What an interface extends stands in its `extends` clause. -/
theorem exists_clause_of_mem_bases {d base : Node} (h : base ∈ bases d) :
    ∃ clause ∈ d.children, clause.kind = .extendsTypeClause ∧ base ∈ clause.children := by
  rw [bases] at h
  split at h
  · next clause hclause =>
      exact ⟨clause, mem_children_of_mem_namedChildren (List.mem_of_find?_eq_some hclause),
        by simpa using List.find?_some hclause, mem_children_of_mem_namedChildren h⟩
  · cases h

/-! ## Lacking a member -/

theorem Lacks.ownSites_eq_nil (h : scope.Lacks m p) : scope.ownSites m p = [] :=
  h p .refl

theorem Lacks.of_below (h : scope.Lacks m p) (hq : scope.Below p q) : scope.Lacks m q :=
  fun r hr => h r (hq.trans hr)

/-- A place lacks a member when it does not declare it and all its bases lack
it. -/
theorem Lacks.of_nexts (hown : scope.ownSites m p = [])
    (h : ∀ q ∈ scope.nexts p, scope.Lacks m q) : scope.Lacks m p := by
  intro r hr
  rcases hr.cases_head with rfl | ⟨q, hq, hr⟩
  · exact hown
  · exact h q hq r hr

theorem below_of_passes (h : Relation.ReflTransGen (scope.Passes m) p q) : scope.Below p q :=
  Relation.ReflTransGen.mono (fun _ _ hstep => hstep.2) _ _ h

/-- Where a search finds something, the member is not lacking. -/
theorem Finds.not_lacks {sites : List Node} (h : scope.Finds m p sites) :
    ¬ scope.Lacks m p := by
  induction h with
  | own own => exact fun hlack => own hlack.ownSites_eq_nil
  | next none order lack rest ih =>
      intro hlack
      refine ih (hlack.of_below (.single ?_))
      rw [order]
      simp

/-! ## Searching within reach -/

/-- A search that comes back to where it began finds nothing there. -/
theorem WithinReach.lacks_of_cycle {k : Nat} (h : scope.WithinReach m k p)
    (hcycle : Relation.TransGen (scope.Passes m) p p) : scope.Lacks m p := by
  induction h with
  | declared own =>
      obtain ⟨q, hstep, -⟩ := Relation.TransGen.head'_iff.mp hcycle
      exact absurd hstep.1 own
  | absent lack => exact lack
  | @next k p single all ih =>
      obtain ⟨q, hstep, hback⟩ := Relation.TransGen.head'_iff.mp hcycle
      have hq : scope.Lacks m q := ih q hstep.2 (.tail' hback hstep)
      exact hq.of_below (below_of_passes hback)

/-- Within reach, a search finds the member unless it is lacking. -/
theorem WithinReach.lacks_or_finds {k : Nat} (h : scope.WithinReach m k p) :
    scope.Lacks m p ∨ ∃ sites, scope.Finds m p sites := by
  induction h with
  | declared own => exact .inr ⟨_, .own own⟩
  | absent lack => exact .inl lack
  | @next k p single all ih =>
      by_cases hown : scope.ownSites m p = []
      · rcases forall_or_leftmost (p := scope.Lacks m) (scope.nexts p) with
          hall | ⟨before, q, after, order, lack, hq⟩
        · exact .inl (.of_nexts hown hall)
        · rcases ih q (by rw [order]; simp) with hlack | ⟨sites, hfinds⟩
          · exact absurd hlack hq
          · exact .inr ⟨sites, .next hown order lack hfinds⟩
      · exact .inr ⟨_, .own hown⟩

end Scope

end CommandSchema
