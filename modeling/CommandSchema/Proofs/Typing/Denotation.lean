import CommandSchema.Proofs.Syntax.Statements
import CommandSchema.Proofs.Typing.Resolution
import Mathlib.Data.Nat.Find

/-!
# CommandSchema.Proofs.Typing.Denotation

What a type expression means, against what resolution finds.

`Scope.Denotes` gives the meaning of a type expression as a relation: a node
denotes a class by its own form, by a node that it leads to, or, for strings
and truth values, as a union whose named children all denote it.  The relation
knows nothing of cycles; it is the least one with these rules, and it counts
the steps down to the deepest node.

Resolution computes this relation up to its bound (`class_iff_denotes`).  The
aliases on the current path never stand in the way of a derivation, for a
derivation of least depth enters no node twice; and what resolution finds
behind them has a derivation, since every step it takes uses one up.

Unions without a named child are left out, for joining nothing leaves no trace
in a larger union.  The grammar has none (`SourceFile.noEmptyUnion_root`), so
the result holds of every file that can be parsed
(`isOf_resolve_iff_denotes_of_parse`).
-/

namespace CommandSchema

open Syntax

/-- The classes of types that the extraction tells apart. -/
inductive TypeClass where
  | string
  | boolean
  | int32
  | void
deriving DecidableEq, Repr

/-- Whether unions can be of the class. -/
def TypeClass.joins : TypeClass → Bool
  | .string | .boolean => true
  | .int32 | .void => false

/-! ## Unions -/

namespace ResolvedType

/-- Whether a type is of a class. -/
def isOf (c : TypeClass) (t : ResolvedType) : Bool :=
  match c with
  | .string => t.isString
  | .boolean => t.isBoolean
  | .int32 => t.isInt32
  | .void => t.isVoid

/-- Whether a type is a union. -/
def isUnion : ResolvedType → Bool
  | .union _ => true
  | _ => false

/-- The class of a type that is no union, if it has one. -/
def class? : ResolvedType → Option TypeClass
  | .string | .stringLiteral _ => some .string
  | .boolean | .booleanLiteral _ => some .boolean
  | .int32 => some .int32
  | .void => some .void
  | _ => none

/-- A type that is no union is of its own class only. -/
theorem isOf_iff_class? {c : TypeClass} {t : ResolvedType} (h : t.isUnion = false) :
    t.isOf c = true ↔ t.class? = some c := by
  cases t <;> cases c <;>
    simp_all [isUnion, class?, isOf, isString, isBoolean, isInt32, isVoid]

theorem variants_of_not_isUnion {t : ResolvedType} (h : t.isUnion = false) : t.variants = [t] := by
  cases t with
  | union ts => cases h
  | _ => rfl

theorem areStrings_eq_all (ts : List ResolvedType) : areStrings ts = ts.all isString := by
  induction ts with
  | nil => rfl
  | cons t ts ih => rw [areStrings, ih, List.all_cons]

theorem areBooleans_eq_all (ts : List ResolvedType) : areBooleans ts = ts.all isBoolean := by
  induction ts with
  | nil => rfl
  | cons t ts ih => rw [areBooleans, ih, List.all_cons]

/-- A union is of a class when unions can be, and all its variants are, of
which there is one at least. -/
theorem isOf_union_iff {c : TypeClass} {ts : List ResolvedType} :
    (union ts).isOf c = true ↔ c.joins = true ∧ ts ≠ [] ∧ ∀ t ∈ ts, t.isOf c = true := by
  cases c <;>
    simp [isOf, isString, isBoolean, isInt32, isVoid, areStrings_eq_all, areBooleans_eq_all,
      TypeClass.joins]

theorem isOf_variants {c : TypeClass} {t : ResolvedType} (h : t.isOf c = true) :
    t.variants ≠ [] ∧ ∀ v ∈ t.variants, v.isOf c = true := by
  cases t with
  | union ts => exact (isOf_union_iff.mp h).2
  | _ => simpa [variants] using h

/-- A type with a part of no class is of no class itself. -/
theorem not_isOf_of_other_mem_variants {t : ResolvedType} {text : String}
    (h : .other text ∈ t.variants) (c : TypeClass) : t.isOf c = false := by
  rw [Bool.eq_false_iff]
  intro hof
  have hother := (isOf_variants hof).2 _ h
  cases c <;> cases hother

theorem isOf_of_variants {c : TypeClass} {t : ResolvedType} (hjoins : c.joins = true)
    (hne : t.variants ≠ []) (h : ∀ v ∈ t.variants, v.isOf c = true) : t.isOf c = true := by
  cases t with
  | union ts => exact isOf_union_iff.mpr ⟨hjoins, hne, h⟩
  | _ => simpa [variants] using h

end ResolvedType

/-! ## The meaning of a type expression -/

namespace Scope

open Syntax.Node

/-- A node is of a class by its own form: a word of the language, a literal,
or a name of the 32-bit integer type. -/
inductive Names (scope : Scope) : TypeClass → Node → Prop
  | string {n : Node} (kind : n.kind = .predefinedType) (word : n.text = "string") :
      Names scope .string n
  | stringLiteral {n literal : Node} (kind : n.kind = .literalType)
      (first : n.firstNamed? = some literal) (quoted : literal.kind = .stringLiteral) :
      Names scope .string n
  | boolean {n : Node} (kind : n.kind = .predefinedType) (word : n.text = "boolean") :
      Names scope .boolean n
  | booleanLiteral {n literal : Node} (kind : n.kind = .literalType)
      (first : n.firstNamed? = some literal)
      (truth : literal.kind = .trueLiteral ∨ literal.kind = .falseLiteral) :
      Names scope .boolean n
  | int32 {n : Node} (kind : n.kind = .typeIdentifier ∨ n.kind = .nestedTypeIdentifier)
      (named : n.text ∈ scope.int32Names) : Names scope .int32 n
  | void {n : Node} (kind : n.kind = .predefinedType) (word : n.text = "void") :
      Names scope .void n

/-- `scope.Denotes c k n`: the node denotes the class by a derivation that
goes at most `k` steps down. -/
inductive Denotes (scope : Scope) (c : TypeClass) : Nat → Node → Prop
  | own {k : Nat} {n : Node} (own : scope.Names c n) : Denotes scope c k n
  | step {k : Nat} {n m : Node} (leads : scope.Leads n m) (rest : Denotes scope c k m) :
      Denotes scope c (k + 1) n
  | union {k : Nat} {n : Node} (kind : n.kind = .unionType) (joins : c.joins = true)
      (inhabited : n.namedChildren ≠ []) (all : ∀ m ∈ n.namedChildren, Denotes scope c k m) :
      Denotes scope c (k + 1) n

variable {scope : Scope} {c : TypeClass}

/-- A derivation may be given more steps than it needs. -/
theorem Denotes.mono {k l : Nat} {n : Node} (h : scope.Denotes c k n) (hkl : k ≤ l) :
    scope.Denotes c l n := by
  induction h generalizing l with
  | own own => exact .own own
  | step leads _ ih =>
      obtain ⟨l, rfl⟩ : ∃ j, l = j + 1 := ⟨l - 1, by omega⟩
      exact .step leads (ih (by omega))
  | union kind joins inhabited _ ih =>
      obtain ⟨l, rfl⟩ : ∃ j, l = j + 1 := ⟨l - 1, by omega⟩
      exact .union kind joins inhabited fun m hm => ih m hm (by omega)

/-- A node that denotes a class has a derivation of least depth. -/
theorem Denotes.exists_least {k : Nat} {n : Node} (h : scope.Denotes c k n) :
    ∃ j ≤ k, scope.Denotes c j n ∧ ∀ i < j, ¬ scope.Denotes c i n := by
  classical
  have hex : ∃ j, scope.Denotes c j n := ⟨k, h⟩
  exact ⟨Nat.find hex, Nat.find_min' hex h, Nat.find_spec hex, fun i hi => Nat.find_min hex hi⟩

/-! ## Every derivation is found -/

/-- Resolution finds the class of a node that is of it by its own form. -/
theorem isOf_typeWithin_of_names {n : Node} (h : scope.Names c n) (steps : Nat)
    (path : List Node) (seen : List String) :
    (scope.typeWithin (steps + 1) path n seen).isOf c = true := by
  cases h with
  | string kind word | boolean kind word | void kind word =>
      rw [typeWithin_predefined kind, word]
      rfl
  | stringLiteral kind first quoted =>
      rw [typeWithin_literal kind]
      simp [literalType, first, quoted, ResolvedType.isOf, ResolvedType.isString]
  | booleanLiteral kind first truth =>
      rw [typeWithin_literal kind]
      rcases truth with truth | truth <;>
        simp [literalType, first, truth, ResolvedType.isOf, ResolvedType.isBoolean]
  | int32 kind named =>
      rw [typeWithin_int32Name kind named]
      rfl

/-- Resolution finds every derivation for which it has the steps, as long as
no alias that is being resolved denotes the class within these steps. -/
theorem isOf_typeWithin_of_denotes {steps k : Nat} {path : List Node} {n : Node}
    (h : scope.Denotes c k n) (hsteps : k < steps)
    (hpath : ∀ a ∈ path, ¬ scope.Denotes c k a) (seen : List String) :
    (scope.typeWithin steps path n seen).isOf c = true := by
  induction steps generalizing k path n seen with
  | zero => omega
  | succ steps ih =>
      have hn : n ∉ path := fun hmem => hpath n hmem h
      -- in a derivation of least depth the node does not come up again
      obtain ⟨j, hjk, hleast, hmin⟩ := h.exists_least
      cases hleast with
      | own own => exact isOf_typeWithin_of_names own steps path seen
      | @step i _ m leads rest =>
          rw [typeWithin_of_leads leads steps fun _ => hn]
          refine ih rest (by omega) ?_ seen
          intro a ha hdenotes
          rcases mem_entered ha with rfl | ha
          · exact hmin i (by omega) hdenotes
          · exact hpath a ha (hdenotes.mono (by omega))
      | @union i _ kind joins inhabited all =>
          obtain ⟨types, htype, htypes⟩ := typeWithin_union scope kind steps path seen
          have hof : ∀ t ∈ types, t.isOf c = true := by
            intro t ht
            obtain ⟨m, hm, seen', rfl⟩ := exists_left_of_forall₂ htypes ht
            exact ih (all m hm) (by omega) (fun a ha hd => hpath a ha (hd.mono (by omega))) seen'
          obtain ⟨m, hm⟩ := List.exists_mem_of_ne_nil _ inhabited
          obtain ⟨t, ht, -⟩ := exists_right_of_forall₂ htypes hm
          obtain ⟨v, hv⟩ := List.exists_mem_of_ne_nil _ (ResolvedType.isOf_variants (hof t ht)).1
          rw [htype, ResolvedType.isOf_union_iff]
          refine ⟨joins, List.ne_nil_of_mem (List.mem_flatMap.mpr ⟨t, ht, hv⟩), ?_⟩
          intro v hv
          obtain ⟨t, ht, hv⟩ := List.mem_flatMap.mp hv
          exact (ResolvedType.isOf_variants (hof t ht)).2 v hv

/-! ## Nothing else is found -/

/-- A word names the class that its type is of. -/
theorem names_of_ofWord {n : Node} (kind : n.kind = .predefinedType)
    (h : (ResolvedType.ofWord n.text).class? = some c) : scope.Names c n := by
  unfold ResolvedType.ofWord at h
  split at h
  · next word => cases h; exact .void kind word
  · next word => cases h; exact .string kind word
  · next word => cases h; exact .boolean kind word
  · cases h
  · cases h
  · cases h

/-- A literal names the class that its type is of. -/
theorem names_of_literalType {n : Node} (kind : n.kind = .literalType)
    (h : (literalType n).class? = some c) : scope.Names c n := by
  unfold literalType at h
  split at h
  · next literal first =>
      split at h
      · next quoted => cases h; exact .stringLiteral kind first quoted
      · split at h
        · next truth => cases h; exact .booleanLiteral kind first (.inl truth)
        · split at h
          · next truth => cases h; exact .booleanLiteral kind first (.inr truth)
          · cases h
  · cases h

/-- A type that a node has by its own form is no union. -/
theorem isUnion_ownType (n : Node) : (scope.ownType n).isUnion = false := by
  unfold ownType
  split
  case h_5 =>
    unfold ResolvedType.ofWord
    split <;> rfl
  case h_6 => rcases literalType_cases n with ⟨_, h⟩ | ⟨_, h⟩ | h <;> rw [h] <;> rfl
  case h_7 | h_8 => split <;> rfl
  all_goals rfl

/-- A node names the class of the type that it has by its own form. -/
theorem names_of_ownType {n : Node} (h : (scope.ownType n).class? = some c) :
    scope.Names c n := by
  unfold ownType at h
  split at h
  case h_5 kind => exact names_of_ofWord kind h
  case h_6 kind => exact names_of_literalType kind h
  case h_7 kind | h_8 kind =>
    split at h
    · next named =>
        cases h
        exact .int32 (by simp [kind]) named
    · cases h
  all_goals cases h

/-- A step of resolution goes to a node that the first one leads to, joins the
named children of a union, or ends with a type of the class that the node is
of by its own form. -/
theorem typeWithin_succ_cases (scope : Scope) (steps : Nat) (path : List Node) (n : Node)
    (seen : List String) :
    (∃ m path', scope.Leads n m ∧
        scope.typeWithin (steps + 1) path n seen = scope.typeWithin steps path' m seen) ∨
      n.kind = .unionType ∨
      (scope.typeWithin (steps + 1) path n seen).isUnion = false ∧
        ∀ c, (scope.typeWithin (steps + 1) path n seen).class? = some c → scope.Names c n := by
  by_cases hpath : n.kind = .typeAliasDeclaration → n ∉ path
  · cases htarget : scope.target? n with
    | some m =>
        have hleads := target?_eq_some_iff.mp htarget
        exact .inl ⟨m, _, hleads, typeWithin_of_leads hleads steps hpath seen⟩
    | none =>
        by_cases hunion : n.kind = .unionType
        · exact .inr (.inl hunion)
        refine .inr (.inr ?_)
        by_cases hinterface : n.kind = .interfaceDeclaration
        · rw [typeWithin, resolveWithin_interface hinterface]
          exact ⟨rfl, by simp [ResolvedType.class?]⟩
        · rw [typeWithin, resolveWithin_of_target?_eq_none htarget hinterface hunion steps hpath]
          exact ⟨isUnion_ownType n, fun c hc => names_of_ownType hc⟩
  · obtain ⟨kind, hmem⟩ : n.kind = .typeAliasDeclaration ∧ n ∈ path := by simpa using hpath
    rw [typeWithin, resolveWithin_of_mem_path kind steps hmem]
    exact .inr (.inr ⟨rfl, by simp [ResolvedType.class?]⟩)

section NoEmptyUnion

variable (hscope : ∀ d ∈ scope.declarations, d.NoEmptyUnion)

include hscope

/-- The law on unions is handed on from node to node. -/
theorem Leads.noEmptyUnion {n m : Node} (h : scope.Leads n m) (hn : n.NoEmptyUnion) :
    m.NoEmptyUnion := by
  cases h with
  | wrapper kind first => exact hn.of_mem_children (mem_children_of_firstNamed? first)
  | reference kind other declared => exact hscope m (mem_declarations_of_declaration? declared)
  | generic kind named declared => exact hscope m (mem_declarations_of_declaration? declared)
  | aliased kind valued => exact hn.of_mem_children (mem_children_of_child? valued)

/-- No expression stands for a union of nothing. -/
theorem variants_typeWithin_ne_nil {steps : Nat} {path : List Node} {n : Node}
    {seen : List String} (hn : n.NoEmptyUnion) :
    (scope.typeWithin steps path n seen).variants ≠ [] := by
  induction steps generalizing path n seen with
  | zero =>
      rw [typeWithin_zero]
      exact List.cons_ne_nil _ _
  | succ steps ih =>
      rcases typeWithin_succ_cases scope steps path n seen with
        ⟨m, path', hleads, htype⟩ | kind | ⟨hunion, -⟩
      · rw [htype]
        exact ih (hleads.noEmptyUnion hscope hn)
      · obtain ⟨types, htype, htypes⟩ := typeWithin_union scope kind steps path seen
        obtain ⟨m, hm⟩ := List.exists_mem_of_ne_nil _ (hn n (self_mem_preorder n) kind)
        obtain ⟨t, ht, seen', rfl⟩ := exists_right_of_forall₂ htypes hm
        have hmchild := hn.of_mem_children (mem_children_of_mem_namedChildren hm)
        have hne : (scope.typeWithin steps path m seen').variants ≠ [] := ih hmchild
        obtain ⟨v, hv⟩ := List.exists_mem_of_ne_nil _ hne
        rw [htype]
        exact List.ne_nil_of_mem (List.mem_flatMap.mpr ⟨_, ht, hv⟩)
      · rw [ResolvedType.variants_of_not_isUnion hunion]
        exact List.cons_ne_nil _ _

/-- What resolution finds has a derivation, one step shorter than the steps it
may take. -/
theorem denotes_of_isOf_typeWithin {steps : Nat} {path : List Node} {n : Node}
    {seen : List String} (hn : n.NoEmptyUnion)
    (h : (scope.typeWithin steps path n seen).isOf c = true) :
    ∃ k, steps = k + 1 ∧ scope.Denotes c k n := by
  induction steps generalizing path n seen with
  | zero =>
      rw [typeWithin_zero, ResolvedType.isOf_iff_class? rfl] at h
      cases h
  | succ steps ih =>
      refine ⟨steps, rfl, ?_⟩
      rcases typeWithin_succ_cases scope steps path n seen with
        ⟨m, path', hleads, htype⟩ | kind | ⟨hunion, hnames⟩
      · rw [htype] at h
        obtain ⟨k, rfl, hrest⟩ := ih (hleads.noEmptyUnion hscope hn) h
        exact .step hleads hrest
      · obtain ⟨types, htype, htypes⟩ := typeWithin_union scope kind steps path seen
        rw [htype, ResolvedType.isOf_union_iff] at h
        obtain ⟨hjoins, -, hof⟩ := h
        have hinhabited := hn n (self_mem_preorder n) kind
        have hall : ∀ m ∈ n.namedChildren, ∃ k, steps = k + 1 ∧ scope.Denotes c k m := by
          intro m hm
          obtain ⟨t, ht, seen', rfl⟩ := exists_right_of_forall₂ htypes hm
          have hmchild := hn.of_mem_children (mem_children_of_mem_namedChildren hm)
          exact ih hmchild (ResolvedType.isOf_of_variants hjoins
            (variants_typeWithin_ne_nil hscope hmchild)
            fun v hv => hof v (List.mem_flatMap.mpr ⟨_, ht, hv⟩))
        obtain ⟨m, hm⟩ := List.exists_mem_of_ne_nil _ hinhabited
        obtain ⟨k, rfl, -⟩ := hall m hm
        refine .union kind hjoins hinhabited fun m hm => ?_
        obtain ⟨k', hk', hrest⟩ := hall m hm
        rwa [Nat.succ.inj hk']
      · exact .own (hnames c ((ResolvedType.isOf_iff_class? hunion).mp h))

/-- Resolution finds a class exactly when the node denotes it within the bound
on the steps. -/
theorem isOf_resolve_iff_denotes {n : Node} (hn : n.NoEmptyUnion) :
    (scope.resolve n).isOf c = true ↔ scope.Denotes c maxDepth n := by
  rw [resolve_eq_typeWithin]
  constructor
  · intro h
    obtain ⟨k, hk, hdenotes⟩ := denotes_of_isOf_typeWithin hscope hn h
    rwa [Nat.succ.inj hk]
  · intro h
    exact isOf_typeWithin_of_denotes h (Nat.lt_succ_self _) (by simp) []

end NoEmptyUnion

/-! ## Classification -/

/-- The law on unions is all that a tree needs for its nodes to be classified
by their meaning. -/
theorem isOf_resolve_iff_denotes_of_mem {root n : Node} (hroot : root.NoEmptyUnion)
    (hn : n ∈ root.preorder) (int32Names : List String) (c : TypeClass) :
    ((ofTree root int32Names).resolve n).isOf c = true ↔
      (ofTree root int32Names).Denotes c maxDepth n :=
  isOf_resolve_iff_denotes
    (fun _ hd => hroot.of_mem (mem_preorder_of_mem_declarations hd)) (hroot.of_mem hn)

/-- The nodes of every parsed file are classified by their meaning. -/
theorem isOf_resolve_iff_denotes_of_parse {path source : String} {file : SourceFile}
    (h : SourceFile.parse path source = .ok file) {n : Node} (hn : n ∈ file.root.preorder)
    (int32Names : List String) (c : TypeClass) :
    ((ofTree file.root int32Names).resolve n).isOf c = true ↔
      (ofTree file.root int32Names).Denotes c maxDepth n :=
  isOf_resolve_iff_denotes_of_mem (SourceFile.noEmptyUnion_root h) hn int32Names c

/-- **Classification is the meaning of the expression, cut at the bound**: in
every tree of the grammar, with any names for the 32-bit integer type, each
predicate holds of the type of a node exactly when the node denotes its class
by a derivation that goes at most `maxDepth` steps down. -/
theorem class_iff_denotes (root : Node) (int32Names : List String) (hroot : root.NoEmptyUnion)
    (n : Node) (hn : n ∈ root.preorder) :
    let scope := Scope.ofTree root int32Names
    ((scope.resolve n).isString = true ↔ scope.Denotes .string maxDepth n) ∧
    ((scope.resolve n).isBoolean = true ↔ scope.Denotes .boolean maxDepth n) ∧
    ((scope.resolve n).isInt32 = true ↔ scope.Denotes .int32 maxDepth n) ∧
    ((scope.resolve n).isVoid = true ↔ scope.Denotes .void maxDepth n) := by
  have hclass := isOf_resolve_iff_denotes_of_mem hroot hn int32Names
  exact ⟨hclass .string, hclass .boolean, hclass .int32, hclass .void⟩

/-- The tree of `type A = B | 'x'; type B = string;`. -/
def unionAliasTree : Node :=
  let name (text : String) : Node := ⟨.typeIdentifier, some .name, text, ⟨1, 1⟩, []⟩
  let reference : Node := ⟨.typeIdentifier, none, "B", ⟨1, 10⟩, []⟩
  let literal : Node := ⟨.literalType, none, "'x'", ⟨1, 14⟩,
    [⟨.stringLiteral, none, "'x'", ⟨1, 14⟩, []⟩]⟩
  let union : Node := ⟨.unionType, some .value, "B | 'x'", ⟨1, 10⟩, [reference, literal]⟩
  let word : Node := ⟨.predefinedType, some .value, "string", ⟨1, 28⟩, []⟩
  ⟨.program, none, "type A = B | 'x'; type B = string;", ⟨1, 1⟩,
    [⟨.typeAliasDeclaration, none, "type A = B | 'x';", ⟨1, 1⟩, [name "A", union]⟩,
      ⟨.typeAliasDeclaration, none, "type B = string;", ⟨1, 19⟩, [name "B", word]⟩]⟩

/-- Every node of this tree is classified by its meaning. -/
theorem class_iff_denotes_unionAliasTree :
    unionAliasTree.NoEmptyUnion ∧ ∀ n ∈ unionAliasTree.preorder,
      let scope := Scope.ofTree unionAliasTree Scope.defaultInt32Names
      ((scope.resolve n).isString = true ↔ scope.Denotes .string maxDepth n) ∧
      ((scope.resolve n).isBoolean = true ↔ scope.Denotes .boolean maxDepth n) ∧
      ((scope.resolve n).isInt32 = true ↔ scope.Denotes .int32 maxDepth n) ∧
      ((scope.resolve n).isVoid = true ↔ scope.Denotes .void maxDepth n) := by
  have htree : unionAliasTree.NoEmptyUnion := by decide
  exact ⟨htree, fun n hn => class_iff_denotes unionAliasTree _ htree n hn⟩

end Scope

end CommandSchema
