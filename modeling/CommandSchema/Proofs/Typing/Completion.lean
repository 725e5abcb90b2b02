import CommandSchema.Proofs.Typing.Contributions

/-!
# CommandSchema.Proofs.Typing.Completion

Resolutions that are not cut short.

A resolution completes (`Scope.Completes`) when it does not run out of steps and
comes to no alias that it is in already.  The third guard remains: an interface
that has contributed is passed over.  So what a resolution returns depends on
where it starts in one way only.  With more steps, fewer aliases entered and
fewer interfaces marked it goes the same way, but for the interfaces that were
marked: there it also takes what they contribute (`Comparison.within`).

That works because a completed resolution leaves nothing open.  Whatever stands
below an interface that has contributed has contributed as well
(`Completes.closedBut`), so behind a marked interface nothing new is found.
-/

namespace CommandSchema

open Syntax

namespace Scope

variable {scope : Scope} {k k' : Nat} {path path' : List Node} {p : Place}
  {seen seen' : List String}

/-! ## Completed resolutions -/

/-- From a place the walk does not run out of steps and comes to no alias that is
being resolved.  What it passes over are interfaces that have contributed. -/
def Completes (scope : Scope) : Nat → List Node → Place → List String → Prop
  | 0, _, _, _ => False
  | k + 1, path, .interface name, seen =>
    name ∈ seen ∨
      Along (scope.walk k path) (scope.Completes k path) (scope.nexts (.interface name))
        (name :: seen)
  | k + 1, path, .expression n, seen =>
    (n.kind = .typeAliasDeclaration → n ∉ path) ∧
      Along (scope.walk k (entered path n)) (scope.Completes k (entered path n))
        (scope.nexts (.expression n)) seen

instance Completes.decidable (scope : Scope) :
    (k : Nat) → (path : List Node) → (p : Place) → (seen : List String) →
      Decidable (scope.Completes k path p seen)
  | 0, _, _, _ => .isFalse id
  | k + 1, path, .interface name, seen =>
    have := Completes.decidable scope k path
    inferInstanceAs (Decidable (name ∈ seen ∨ Along (scope.walk k path) (scope.Completes k path)
      (scope.nexts (.interface name)) (name :: seen)))
  | k + 1, path, .expression n, seen =>
    have := Completes.decidable scope k (entered path n)
    inferInstanceAs (Decidable ((n.kind = .typeAliasDeclaration → n ∉ path) ∧
      Along (scope.walk k (entered path n)) (scope.Completes k (entered path n))
        (scope.nexts (.expression n)) seen))

/-- A completed resolution goes on to what a node stands for. -/
theorem Completes.of_leads {n m : Node} (h : scope.Completes (k + 1) path (.expression n) seen)
    (hleads : scope.Leads n m) :
    scope.Completes k (entered path n) (.expression m) seen ∧
      scope.resolveWithin (k + 1) path n = scope.resolveWithin k (entered path n) m := by
  obtain ⟨hpath, hbelow⟩ := h
  rw [hleads.nexts_eq] at hbelow
  exact ⟨hbelow.1, resolveWithin_of_leads hleads k hpath⟩

/-- A completed resolution goes on to the end of a chain of steps. -/
theorem Completes.of_leadsIn {j : Nat} {n m : Node} (hleads : scope.LeadsIn j n m)
    (h : scope.Completes k path (.expression n) seen) :
    ∃ k' path', k' ≤ k ∧ scope.Completes k' path' (.expression m) seen ∧
      scope.resolveWithin k path n = scope.resolveWithin k' path' m := by
  induction hleads generalizing k path with
  | refl n => exact ⟨k, path, Nat.le_refl k, h, rfl⟩
  | step leads _ ih =>
      cases k with
      | zero => exact h.elim
      | succ k =>
          obtain ⟨hm, hstep⟩ := h.of_leads leads
          obtain ⟨k', path', hle, hlast, hrest⟩ := ih hm
          exact ⟨k', path', Nat.le_succ_of_le hle, hlast, hstep.trans hrest⟩

/-- In a completed resolution the named children of a union are resolved one after
the other, and each of these resolutions completes. -/
theorem Completes.of_union {n : Node} (h : scope.Completes (k + 1) path (.expression n) seen)
    (kind : n.kind = .unionType) :
    Along (scope.resolveWithin k path) (fun c => scope.Completes k path (.expression c))
      n.namedChildren seen := by
  have hbelow := h.2
  have hentered : entered path n = path := by simp [entered, kind]
  have hnexts : scope.nexts (.expression n) = n.namedChildren.map .expression := by
    simp [nexts, kind]
  rw [hentered, hnexts] at hbelow
  have hstate : ∀ c s, ((scope.resolveWithin k path c).run s).2 =
      ((scope.walk k path (.expression c)).run s).2 := fun _ _ => rfl
  exact hbelow.of_map hstate

/-! ## What has contributed in the end -/

/-- The interfaces that the walk comes to from a place before it has been to
another one. -/
inductive Meets (scope : Scope) : Place → String → Prop
  | interface (name : String) : Meets scope (.interface name) name
  | expression {n : Node} {q : Place} {name : String} (next : q ∈ scope.nexts (.expression n))
      (rest : Meets scope q name) : Meets scope (.expression n) name

/-- What has contributed has done so with the interfaces that it comes to next.
Those that are open may still be on their way. -/
def ClosedBut (scope : Scope) (opened seen : List String) : Prop :=
  ∀ v ∈ seen, v ∈ opened ∨ ∀ q ∈ scope.nexts (.interface v), ∀ w, scope.Meets q w → w ∈ seen

/-- With nothing open, all that stands below a place has contributed if what the
place comes to has. -/
theorem ClosedBut.mem_of_below (h : scope.ClosedBut [] seen)
    (hp : ∀ u, scope.Meets p u → u ∈ seen) {w : String} (hw : scope.Below p (.interface w)) :
    w ∈ seen := by
  induction hw using Relation.ReflTransGen.head_induction_on with
  | refl => exact hp w (.interface w)
  | @head p q hq _ ih =>
      refine ih fun u hu => ?_
      cases p with
      | expression n => exact hp u (.expression hq hu)
      | interface name =>
          have hclosed := (h name (hp name (.interface name))).resolve_left List.not_mem_nil
          exact hclosed q hq u hu

/-- The states behind a place that the walk goes into. -/
theorem run_walk_of_fresh_snd (h : p.Fresh path seen) :
    ((scope.walk (k + 1) path p).run seen).2 =
      (((scope.nexts p).mapM (scope.walk k (p.entered path))).run (p.marked seen)).2 := by
  rw [run_walk_of_fresh h]

/-- Several walks leave nothing open that was not open before, if each of them
does not. -/
theorem closedBut_run_mapM (hk : k ≤ maxDepth + 1) {opened : List String}
    (hwalk : ∀ p seen, scope.Completes k path p seen → scope.ClosedBut opened seen →
      scope.ClosedBut opened ((scope.walk k path p).run seen).2 ∧
        ∀ w, scope.Meets p w → w ∈ ((scope.walk k path p).run seen).2)
    {ps : List Place} (h : Along (scope.walk k path) (scope.Completes k path) ps seen)
    (hclosed : scope.ClosedBut opened seen) :
    scope.ClosedBut opened ((ps.mapM (scope.walk k path)).run seen).2 ∧
      ∀ p ∈ ps, ∀ w, scope.Meets p w → w ∈ ((ps.mapM (scope.walk k path)).run seen).2 :=
  h.establishes (Q := fun p seen => ∀ w, scope.Meets p w → w ∈ seen)
    (fun p _ seen hp hclosed => hwalk p seen hp hclosed)
    (fun _ _ q _ seen hmem w hw => subset_run_walk hk path q seen (hmem w hw)) hclosed

/-- **A completed walk leaves nothing open** that was not open before, and the
interfaces that its place comes to have contributed. -/
theorem Completes.closedBut (hk : k ≤ maxDepth + 1) {opened : List String}
    (h : scope.Completes k path p seen) (hclosed : scope.ClosedBut opened seen) :
    scope.ClosedBut opened ((scope.walk k path p).run seen).2 ∧
      ∀ w, scope.Meets p w → w ∈ ((scope.walk k path p).run seen).2 := by
  induction k generalizing path p seen opened with
  | zero => exact h.elim
  | succ k ih =>
      cases p with
      | expression n =>
          obtain ⟨hpath, hbelow⟩ := h
          rw [run_walk_of_fresh_snd (p := .expression n) hpath]
          obtain ⟨hafter, hmet⟩ := closedBut_run_mapM (by omega)
            (fun p seen hp => ih (by omega) hp) hbelow hclosed
          refine ⟨hafter, ?_⟩
          rintro w ⟨⟩
          next q hq hw => exact hmet q hq w hw
      | interface name =>
          by_cases hseen : name ∈ seen
          · rw [run_walk_of_not_fresh (p := .interface name) (not_not.mpr hseen)]
            refine ⟨hclosed, ?_⟩
            rintro w ⟨⟩
            exact hseen
          have hbelow := h.resolve_left hseen
          rw [run_walk_of_fresh_snd (p := .interface name) hseen]
          -- the interface is open as long as its bases are gone through
          have hopen : scope.ClosedBut (name :: opened) (name :: seen) := by
            intro v hv
            rcases List.mem_cons.mp hv with rfl | hold
            · exact .inl List.mem_cons_self
            · exact (hclosed v hold).imp (List.mem_cons_of_mem _)
                fun hall q hq w hw => List.mem_cons_of_mem _ (hall q hq w hw)
          obtain ⟨hafter, hmet⟩ := closedBut_run_mapM (by omega)
            (fun p seen hp => ih (by omega) hp) hbelow hopen
          refine ⟨fun v hv => ?_, ?_⟩
          · rcases hafter v hv with hv | hall
            · rcases List.mem_cons.mp hv with rfl | hold
              · exact .inr hmet
              · exact .inl hold
            · exact .inr hall
          · rintro w ⟨⟩
            exact run_mapM_preserves (I := (name ∈ ·))
              (fun q _ s hs => subset_run_walk (by omega) _ q s hs) List.mem_cons_self

/-! ## A resolution beside one that has seen less -/

/-- Among the interfaces at some places, the first state holds those of the second
one and some others besides. -/
def Ahead (others : String → Prop) (places : Place → Prop) (seen seen' : List String) : Prop :=
  ∀ name, places (.interface name) → (name ∈ seen ↔ name ∈ seen' ∨ others name)

/-- From a state on, a computation has a result related to that of another one
which starts with less, and stays ahead of it. -/
def AheadRuns {A A' : Type} (others : String → Prop) (places : Place → Prop) (R : A → A' → Prop)
    (x : StateM (List String) A) (x' : StateM (List String) A') (seen : List String) : Prop :=
  ∀ seen', Ahead others places seen seen' →
    R (x.run seen).1 (x'.run seen').1 ∧ Ahead others places (x.run seen).2 (x'.run seen').2

/-- What is needed to compare a resolution that has been to some interfaces with one
that has not, at some places: relations on levels and on types that hold of the
same levels and types, and allow the levels of those interfaces to be missing. -/
structure Comparison (scope : Scope) (others : String → Prop) (places : Place → Prop)
    (L : List (List Node) → List (List Node) → Prop)
    (T : ResolvedType → ResolvedType → Prop) : Prop where
  places_next : ∀ {p q : Place}, places p → q ∈ scope.nexts p → places q
  others_below : ∀ {v w : String}, others v → scope.Below (.interface v) (.interface w) → others w
  missing : ∀ {name : String}, others name → places (.interface name) → ∀ levels, L [] levels
  append : ∀ {xs xs' ys ys' : List (List Node)}, L xs xs' → L ys ys' → L (xs ++ ys) (xs' ++ ys')
  refl : ∀ levels, L levels levels
  same : ∀ t, T t t
  object : ∀ {text : String} {levels levels' : List (List Node)},
    L levels levels' → T (.object text levels) (.object text levels')
  union : ∀ {ts ts' : List ResolvedType}, List.Forall₂ T ts ts' → T (.union ts) (.union ts')
  variants : ∀ {t t' : ResolvedType}, T t t' → List.Forall₂ T t.variants t'.variants
  levels : ∀ {t t' : ResolvedType}, T t t' → L t.levels t'.levels

namespace Comparison

variable {others : String → Prop} {places : Place → Prop}
  {L : List (List Node) → List (List Node) → Prop} {T : ResolvedType → ResolvedType → Prop}

/-- Related lists of levels make related levels. -/
theorem flatten (h : Comparison scope others places L T) {xs xs' : List (List (List Node))}
    (hall : List.Forall₂ L xs xs') : L xs.flatten xs'.flatten := by
  induction hall with
  | nil => exact h.refl []
  | cons hx _ ih => exact h.append hx ih

/-- Resolution and the walk over a hierarchy stay ahead where they complete. -/
structure Within (scope : Scope) (others : String → Prop) (places : Place → Prop)
    (L : List (List Node) → List (List Node) → Prop) (T : ResolvedType → ResolvedType → Prop)
    (k k' : Nat) (path path' : List Node) : Prop where
  node : ∀ {n : Node} {seen : List String}, places (.expression n) →
    scope.Completes k path (.expression n) seen →
      AheadRuns others places T (scope.resolveWithin k path n) (scope.resolveWithin k' path' n) seen
  interface : ∀ {name : String} {seen : List String}, places (.interface name) →
    scope.Completes k path (.interface name) seen →
      AheadRuns others places L (scope.interfaceLevels k path name)
        (scope.interfaceLevels k' path' name) seen

variable (h : Comparison scope others places L T)

include h

/-- A walk that passes over an interface stays ahead of one that goes into it. -/
theorem interface_of_others (hk' : k' + 1 ≤ maxDepth + 1) {name : String} (hname : name ∈ seen)
    (hplace : places (.interface name)) :
    AheadRuns others places L (scope.interfaceLevels (k + 1) path name)
      (scope.interfaceLevels (k' + 1) path' name) seen := by
  intro seen' hahead
  rw [run_interfaceLevels_of_mem hname]
  rcases (hahead name hplace).mp hname with hold | hother
  · rw [run_interfaceLevels_of_mem hold]
    exact ⟨h.refl [], hahead⟩
  -- the second walk goes in, but all that it marks is below, where the first one has been
  · refine ⟨h.missing hother hplace _, fun v hv => ?_⟩
    rw [hahead v hv]
    constructor
    · rintro (hv | hv)
      · exact .inl (subset_run_walk hk' path' (.interface name) seen' hv)
      · exact .inr hv
    · rintro (hv | hv)
      · exact (below_of_mem_run_walk (p := .interface name) v hv).imp_right
          fun hbelow => h.others_below hother hbelow
      · exact .inr hv

/-- Both walks from an expression go as its resolutions do. -/
theorem walk_of_within (hwithin : Within scope others places L T k k' path path') (hp : places p)
    (hcompletes : scope.Completes k path p seen) :
    AheadRuns others places L (scope.walk k path p) (scope.walk k' path' p) seen := by
  cases p with
  | interface name => exact hwithin.interface hp hcompletes
  | expression n =>
      exact fun seen' hahead =>
        (hwithin.node hp hcompletes seen' hahead).imp_left fun htypes => h.levels htypes

/-- One step of the walk from an interface. -/
theorem interfaceLevels_succ (hk' : k' + 1 ≤ maxDepth + 1)
    (hwithin : Within scope others places L T k k' path path') {name : String}
    (hname : places (.interface name))
    (hcompletes : scope.Completes (k + 1) path (.interface name) seen) :
    AheadRuns others places L (scope.interfaceLevels (k + 1) path name)
      (scope.interfaceLevels (k' + 1) path' name) seen := by
  by_cases hseen : name ∈ seen
  · exact h.interface_of_others hk' hseen hname
  intro seen' hahead
  have hseen' : name ∉ seen' := fun hmem => hseen ((hahead name hname).mpr (.inl hmem))
  have hmarked : Ahead others places (name :: seen) (name :: seen') := by
    intro v hv
    rw [List.mem_cons, List.mem_cons, hahead v hv, or_assoc]
  obtain ⟨hlevels, hstate⟩ := (hcompletes.resolve_left hseen).rel (S := Ahead others places)
    (fun q hq s s' hqs hs => h.walk_of_within hwithin (h.places_next hname hq) hqs s' hs) hmarked
  rw [run_interfaceLevels_of_not_mem hseen, run_interfaceLevels_of_not_mem hseen']
  exact ⟨h.append (h.refl _) (h.flatten hlevels), hstate⟩

/-- One step of resolution. -/
theorem resolveWithin_succ (hpath : path' ⊆ path)
    (hwithin : ∀ {path path' : List Node}, path' ⊆ path →
      Within scope others places L T k k' path path') {n : Node} (hn : places (.expression n))
    (hcompletes : scope.Completes (k + 1) path (.expression n) seen) :
    AheadRuns others places T (scope.resolveWithin (k + 1) path n)
      (scope.resolveWithin (k' + 1) path' n) seen := by
  intro seen' hahead
  obtain ⟨hfresh, hbelow⟩ := hcompletes
  have hfresh' : n.kind = .typeAliasDeclaration → n ∉ path' :=
    fun kind hmem => hfresh kind (hpath hmem)
  by_cases hinterface : n.kind = .interfaceDeclaration
  · have hentered : entered path n = path := by simp [entered, hinterface]
    have hnexts : scope.nexts (.expression n) = [.interface (declaredName n)] := by
      rw [nexts, if_pos hinterface]
    rw [hentered, hnexts] at hbelow
    have hplace : places (.interface (declaredName n)) := h.places_next hn (by rw [hnexts]; simp)
    rw [resolveWithin_interface hinterface, resolveWithin_interface hinterface]
    exact ((hwithin hpath).interface hplace hbelow.1 seen' hahead).imp_left
      fun hlevels => h.object hlevels
  by_cases hunion : n.kind = .unionType
  · have hchildren := Completes.of_union ⟨hfresh, hbelow⟩ hunion
    have hplaces : ∀ c ∈ n.namedChildren, places (.expression c) := fun c hc =>
      h.places_next hn (by simpa [nexts, hunion] using hc)
    obtain ⟨htypes, hstate⟩ := hchildren.rel (S := Ahead others places)
      (fun c hc s s' hcs hs => (hwithin hpath).node (hplaces c hc) hcs s' hs) hahead
    rw [resolveWithin_union hunion, resolveWithin_union hunion]
    exact ⟨h.union (List.rel_flatMap htypes fun _ _ ht => h.variants ht), hstate⟩
  cases htarget : scope.target? n with
  | none =>
      rw [resolveWithin_of_target?_eq_none htarget hinterface hunion k hfresh,
        resolveWithin_of_target?_eq_none htarget hinterface hunion k' hfresh']
      exact ⟨h.same _, hahead⟩
  | some m =>
      have hleads := target?_eq_some_iff.mp htarget
      have hm : places (.expression m) := h.places_next hn (by rw [hleads.nexts_eq]; simp)
      have hentered : entered path' n ⊆ entered path n := by
        rw [entered, entered]
        split
        · exact List.cons_subset_cons n hpath
        · exact hpath
      rw [hleads.nexts_eq] at hbelow
      rw [resolveWithin_of_leads hleads k hfresh, resolveWithin_of_leads hleads k' hfresh']
      exact (hwithin hentered).node hm hbelow.1 seen' hahead

/-- **A completed resolution stays ahead** of one that starts with as many steps or
more, no more aliases entered, and without the other interfaces. -/
theorem within (hk : k ≤ k') (hk' : k' ≤ maxDepth + 1) (hpath : path' ⊆ path) :
    Within scope others places L T k k' path path' := by
  induction k generalizing k' path path' with
  | zero => exact ⟨fun _ hcompletes => hcompletes.elim, fun _ hcompletes => hcompletes.elim⟩
  | succ k ih =>
      obtain ⟨k', rfl⟩ : ∃ i, k' = i + 1 := ⟨k' - 1, by omega⟩
      have hbelow : ∀ {path path' : List Node}, path' ⊆ path →
          Within scope others places L T k k' path path' :=
        fun hpath => ih (by omega) (by omega) hpath
      exact ⟨h.resolveWithin_succ hpath hbelow, h.interfaceLevels_succ hk' (hbelow hpath)⟩

end Comparison

end Scope

end CommandSchema
