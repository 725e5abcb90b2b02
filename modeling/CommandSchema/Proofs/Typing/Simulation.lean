import CommandSchema.Proofs.Typing.AlikeTypes

/-!
# CommandSchema.Proofs.Typing.Simulation

Two scopes in which resolution goes the same way.

A relation between the nodes of two scopes is a simulation (`Scope.Simulation`)
when related nodes stand for related nodes, join related nodes and have related
types by their own form, and when the interfaces with a name have related member
lists and bases.  Names of which nothing is known may be left out, as long as no
related node leads to them.

Related nodes are then resolved to related types (`Simulation.resolve`).  The
guards of the resolution play no part in this: both scopes take the same steps,
enter related aliases, and mark the same interfaces.
-/

namespace CommandSchema

open Syntax

/-! ## Relations on types -/

namespace ResolvedType

/-- A relation on types that goes along with one on the nodes that they lead
to. -/
structure Lifts (N : Node → Node → Prop) (T : ResolvedType → ResolvedType → Prop) : Prop where
  object : ∀ {text : String} {levels levels' : List (List Node)},
    List.Forall₂ (List.Forall₂ N) levels levels' → T (.object text levels) (.object text levels')
  union : ∀ {ts ts' : List ResolvedType}, List.Forall₂ T ts ts' → T (.union ts) (.union ts')
  variants : ∀ {t t' : ResolvedType}, T t t' → List.Forall₂ T t.variants t'.variants
  levels : ∀ {t t' : ResolvedType}, T t t' → List.Forall₂ (List.Forall₂ N) t.levels t'.levels

/-- Being alike goes along with any relation on nodes. -/
theorem Alike.lifts (N : Node → Node → Prop) : Lifts N (Alike N) where
  object := .object
  union := .union
  variants := Alike.variants
  levels := Alike.levels

end ResolvedType

namespace Scope

variable {scope scope' : Scope} {names : String → Prop} {N : Node → Node → Prop}
  {T : ResolvedType → ResolvedType → Prop} {k : Nat} {path path' : List Node} {n n' : Node}

/-- References with type arguments to the same name lead to related declarations,
when the name does. -/
theorem rel_declaration?_of_name
    (htext : (n'.child? .name).map Node.text = (n.child? .name).map Node.text)
    (hnames : ∀ name ∈ (n.child? .name).map Node.text,
      Option.Rel N (scope.declaration? name) (scope'.declaration? name)) :
    Option.Rel N ((n.child? .name).bind fun name => scope.declaration? name.text)
      ((n'.child? .name).bind fun name => scope'.declaration? name.text) := by
  have hbind (s : Scope) (m : Node) :
      ((m.child? .name).bind fun name => s.declaration? name.text) =
        ((m.child? .name).map Node.text).bind s.declaration? := by
    rw [Option.bind_map]
    rfl
  rw [hbind, hbind, htext]
  cases hname : (n.child? .name).map Node.text with
  | none => exact .none
  | some name => exact hnames name hname

/-! ## Simulations -/

/-- Two lists of aliases that are being resolved are related. -/
def SamePath (N : Node → Node → Prop) : List Node → List Node → Prop :=
  List.Forall₂ fun a a' => N a a' ∧ a.kind = .typeAliasDeclaration

/-- Places that are related: interfaces with the same name, if it counts, and
related expressions. -/
inductive Place.Related (names : String → Prop) (N : Node → Node → Prop) : Place → Place → Prop
  | interface {name : String} (counts : names name) :
      Related names N (.interface name) (.interface name)
  | expression {n n' : Node} (nodes : N n n') : Related names N (.expression n) (.expression n')

theorem Place.Related.isComment_eq (hkind : ∀ n n', N n n' → n'.kind = n.kind) {p p' : Place}
    (h : p.Related names N p') : p'.isComment = p.isComment := by
  cases h with
  | interface => rfl
  | expression nodes => rw [isComment, isComment, Node.isComment, Node.isComment, hkind _ _ nodes]

/-- What has to be known of related nodes, and of the interfaces whose names
count.  Comments among their bases may differ. -/
structure Simulation (scope scope' : Scope) (names : String → Prop) (N : Node → Node → Prop)
    (T : ResolvedType → ResolvedType → Prop) : Prop extends ResolvedType.Lifts N T where
  kind_eq : ∀ {n n' : Node}, N n n' → n'.kind = n.kind
  declaredName_eq : ∀ {n n' : Node}, N n n' → n.kind.declaresType = true →
    declaredName n' = declaredName n
  alias_iff : ∀ {m m' n n' : Node}, N m m' → N n n' → m.kind = .typeAliasDeclaration →
    n.kind = .typeAliasDeclaration → (m' = n' ↔ m = n)
  counts : ∀ {n n' : Node}, N n n' → n.kind = .interfaceDeclaration → names (declaredName n)
  target? : ∀ {n n' : Node}, N n n' → Option.Rel N (scope.target? n) (scope'.target? n')
  joined : ∀ {n n' : Node}, N n n' → n.kind = .unionType →
    List.Forall₂ N n.namedChildren n'.namedChildren
  other : ∀ {n n' : Node}, N n n' → T (.other n.text) (.other n'.text)
  own : ∀ {n n' : Node}, N n n' → scope.target? n = none →
    T (scope.ownType n) (scope'.ownType n')
  ownLevels : ∀ {name : String}, names name → List.Forall₂ (List.Forall₂ N)
    (scope.ownLevels (.interface name)) (scope'.ownLevels (.interface name))
  nexts : ∀ {name : String}, names name → List.Forall₂ (Place.Related names N)
    ((scope.nexts (.interface name)).filter (!·.isComment))
    ((scope'.nexts (.interface name)).filter (!·.isComment))

namespace Simulation

/-- Resolution and the walk over a hierarchy go the same way in both scopes, in
at most the given number of steps. -/
structure Within (scope scope' : Scope) (names : String → Prop) (N : Node → Node → Prop)
    (T : ResolvedType → ResolvedType → Prop) (k : Nat) : Prop where
  node : ∀ {path path' : List Node} {n n' : Node}, SamePath N path path' → N n n' →
    AlikeRuns T (scope.resolveWithin k path n) (scope'.resolveWithin k path' n')
  interface : ∀ {path path' : List Node}, SamePath N path path' →
    ∀ {name : String}, names name → AlikeRuns (List.Forall₂ (List.Forall₂ N))
      (scope.interfaceLevels k path name) (scope'.interfaceLevels k path' name)

variable (h : Simulation scope scope' names N T)

include h

/-- Related places contribute related levels. -/
theorem walk_of_within (hk : Within scope scope' names N T k)
    (hpath : SamePath N path path') {p p' : Place} (hp : p.Related names N p') :
    AlikeRuns (List.Forall₂ (List.Forall₂ N)) (scope.walk k path p) (scope'.walk k path' p') := by
  cases hp with
  | interface counts => exact hk.interface hpath counts
  | expression nodes => exact (hk.node hpath nodes).map fun _ _ ht => h.levels ht

theorem mem_path_iff (hpath : SamePath N path path') (hn : N n n')
    (kind : n.kind = .typeAliasDeclaration) : n' ∈ path' ↔ n ∈ path := by
  induction hpath with
  | nil => simp
  | cons ha _ ih => rw [List.mem_cons, List.mem_cons, ih, h.alias_iff hn ha.1 kind ha.2]

theorem samePath_entered (hpath : SamePath N path path') (hn : N n n') :
    SamePath N (entered path n) (entered path' n') := by
  rw [entered, entered, h.kind_eq hn]
  split
  · next kind => exact .cons ⟨hn, kind⟩ hpath
  · exact hpath

/-- A step from related nodes that are no interfaces and no unions goes the same
way: both are aliases that are being resolved already, have a type by their own
form, or lead to related nodes. -/
theorem resolveWithin_succ_cases (hpath : SamePath N path path') (hn : N n n')
    (hinterface : n.kind ≠ .interfaceDeclaration) (hunion : n.kind ≠ .unionType) (k : Nat) :
    (scope.resolveWithin (k + 1) path n = pure (.other n.text) ∧
      scope'.resolveWithin (k + 1) path' n' = pure (.other n'.text)) ∨
    (scope.target? n = none ∧ scope.resolveWithin (k + 1) path n = pure (scope.ownType n) ∧
      scope'.resolveWithin (k + 1) path' n' = pure (scope'.ownType n')) ∨
    ∃ m m', N m m' ∧ scope.Leads n m ∧ scope'.Leads n' m' ∧
      scope.resolveWithin (k + 1) path n = scope.resolveWithin k (entered path n) m ∧
      scope'.resolveWithin (k + 1) path' n' = scope'.resolveWithin k (entered path' n') m' := by
  have hkind := h.kind_eq hn
  by_cases hfresh : n.kind = .typeAliasDeclaration → n ∉ path
  · have hfresh' (halias : n'.kind = .typeAliasDeclaration) : n' ∉ path' := by
      have halias : n.kind = .typeAliasDeclaration := hkind ▸ halias
      rw [h.mem_path_iff hpath hn halias]
      exact hfresh halias
    match htarget : scope.target? n, htarget' : scope'.target? n', h.target? hn with
    | none, none, .none =>
        refine .inr (.inl ⟨rfl, resolveWithin_of_target?_eq_none htarget hinterface hunion k hfresh,
          resolveWithin_of_target?_eq_none htarget' ?_ ?_ k hfresh'⟩)
        · exact hkind ▸ hinterface
        · exact hkind ▸ hunion
    | some m, some m', .some hm =>
        have hleads := target?_eq_some_iff.mp htarget
        have hleads' := target?_eq_some_iff.mp htarget'
        exact .inr (.inr ⟨m, m', hm, hleads, hleads', resolveWithin_of_leads hleads k hfresh,
          resolveWithin_of_leads hleads' k hfresh'⟩)
  · obtain ⟨halias, hcycle⟩ : n.kind = .typeAliasDeclaration ∧ n ∈ path := by simpa using hfresh
    exact .inl ⟨resolveWithin_of_mem_path halias k hcycle, resolveWithin_of_mem_path
      (hkind.trans halias) k ((h.mem_path_iff hpath hn halias).mpr hcycle)⟩

/-- One step of resolution. -/
theorem resolveWithin_succ (hk : Within scope scope' names N T k)
    (hpath : SamePath N path path') (hn : N n n') :
    AlikeRuns T (scope.resolveWithin (k + 1) path n) (scope'.resolveWithin (k + 1) path' n') := by
  have hkind := h.kind_eq hn
  by_cases hinterface : n.kind = .interfaceDeclaration
  · rw [resolveWithin_interface hinterface, resolveWithin_interface (hkind.trans hinterface),
      h.declaredName_eq hn (by rw [hinterface])]
    exact (hk.interface hpath (h.counts hn hinterface)).map fun _ _ hall => h.object hall
  by_cases hunion : n.kind = .unionType
  · rw [resolveWithin_union hunion, resolveWithin_union (hkind.trans hunion)]
    exact (AlikeRuns.mapM (h.joined hn hunion) fun _ _ hm => hk.node hpath hm).map
      fun _ _ hts => h.union (List.rel_flatMap hts fun _ _ ht => h.variants ht)
  rcases h.resolveWithin_succ_cases hpath hn hinterface hunion k with
    ⟨hrun, hrun'⟩ | ⟨htarget, hrun, hrun'⟩ | ⟨m, m', hm, -, -, hrun, hrun'⟩
  · rw [hrun, hrun']
    exact .pure (h.other hn)
  · rw [hrun, hrun']
    exact .pure (h.own hn htarget)
  · rw [hrun, hrun']
    exact hk.node (h.samePath_entered hpath hn) hm

/-- One step of the walk from an interface. -/
theorem interfaceLevels_succ (hk : Within scope scope' names N T k)
    (hpath : SamePath N path path') {name : String} (hname : names name) :
    AlikeRuns (List.Forall₂ (List.Forall₂ N)) (scope.interfaceLevels (k + 1) path name)
      (scope'.interfaceLevels (k + 1) path' name) := by
  intro seen
  by_cases hseen : name ∈ seen
  · rw [run_interfaceLevels_of_mem hseen, run_interfaceLevels_of_mem hseen]
    exact ⟨.nil, rfl⟩
  · have hruns := AlikeRuns.mapM (h.nexts hname) (fun _ _ hp => h.walk_of_within hk hpath hp)
      (name :: seen)
    have hcode := scope.run_mapM_walk_filter k path (scope.nexts (.interface name)) (name :: seen)
    have hcode' :=
      scope'.run_mapM_walk_filter k path' (scope'.nexts (.interface name)) (name :: seen)
    rw [run_interfaceLevels_of_not_mem hseen, run_interfaceLevels_of_not_mem hseen]
    simp only [hcode, hcode']
    exact ⟨List.rel_append (h.ownLevels hname) (List.rel_flatten hruns.1), hruns.2⟩

/-- **Both scopes take the same steps**, however many they may take. -/
theorem within (k : Nat) : Within scope scope' names N T k := by
  induction k with
  | zero =>
      refine ⟨fun _ hn => ?_, fun _ _ _ => ?_⟩
      · rw [resolveWithin_zero, resolveWithin_zero]
        exact .pure (h.other hn)
      · rw [interfaceLevels, interfaceLevels]
        exact .pure .nil
  | succ k ih =>
      exact ⟨fun hpath hn => h.resolveWithin_succ ih hpath hn,
        fun hpath _ hname => h.interfaceLevels_succ ih hpath hname⟩

/-- Related places contribute related levels, however many steps the walk may
take. -/
theorem walk (k : Nat) {p p' : Place} (hp : p.Related names N p') :
    AlikeRuns (List.Forall₂ (List.Forall₂ N)) (scope.walk k [] p) (scope'.walk k [] p') :=
  h.walk_of_within (h.within k) .nil hp

/-- **Related nodes stand for related types.** -/
theorem resolve (hn : N n n') : T (scope.resolve n) (scope'.resolve n') :=
  ((h.within (maxDepth + 1)).node .nil hn []).1

end Simulation

end Scope

end CommandSchema
