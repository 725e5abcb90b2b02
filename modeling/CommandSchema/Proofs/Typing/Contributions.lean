import CommandSchema.Proofs.Typing.Inheritance
import Mathlib.Algebra.Order.BigOperators.Group.List
import Mathlib.Algebra.Order.Group.Nat

/-!
# CommandSchema.Proofs.Typing.Contributions

How often each member list gets into a resolved type.

The walk over a hierarchy enters an interface once, so its member lists are
contributed once, however many ways lead to it.  Object types are not
remembered: a base that is an alias of one contributes its member list every
time the walk comes by.  `Scope.Accounted` keeps these accounts for the pieces
of a walk, and `accounted_walk` for all of it: a member list is there at most as
often as the interfaces that were entered and the bases that lead to it say,
and exactly that often in a hierarchy that ends within the steps
(`Scope.EndsWithin`), where all interfaces at or below the start are entered
(`EndsWithin.mem_run_walk`).  For the type of a node this is `exists_account`.
-/

namespace CommandSchema

open Syntax

namespace Scope

/-! ## What is contributed -/

/-- The object type that an expression stands for, by no more than the given
number of steps. -/
def objectWithin (scope : Scope) : Nat → Node → Option Node
  | 0, _ => none
  | k + 1, n =>
    if n.kind = .objectType then some n else (scope.target? n).bind (objectWithin scope k)

/-- The object type that a place stands for by itself, if it does. -/
def objects (scope : Scope) (k : Nat) : Place → List Node
  | .interface _ => []
  | .expression n => (scope.objectWithin k n).toList

/-- The object types that the bases of an interface stand for, once for every
base that stands for one. -/
def baseObjects (scope : Scope) (name : String) : List Node :=
  (scope.nexts (.interface name)).flatMap (scope.objects maxDepth)

/-- The member lists that an interface contributes, with those that come through
its bases without being those of an interface. -/
def contributed (scope : Scope) (name : String) : List Node :=
  scope.memberLists name ++ scope.baseObjects name

variable {scope : Scope}

/-- A node that leads to another one leads there only. -/
theorem Leads.nexts_eq {n m : Node} (h : scope.Leads n m) :
    scope.nexts (.expression n) = [.expression m] := by
  have hkind : n.kind ≠ .interfaceDeclaration ∧ n.kind ≠ .unionType := by
    cases h with
    | wrapper kind => rcases kind with kind | kind | kind <;> simp [kind]
    | reference kind => rcases kind with kind | kind <;> simp [kind]
    | generic kind | aliased kind => simp [kind]
  rw [nexts, if_neg hkind.1, if_neg hkind.2, target?_eq_some_iff.mpr h]
  rfl

theorem nexts_of_objectType {n : Node} (kind : n.kind = .objectType) :
    scope.nexts (.expression n) = [] := by
  simp [nexts, target?, kind]

/-- An object type is found in more steps as well. -/
theorem objectWithin_mono {k l : Nat} {n o : Node} (h : scope.objectWithin k n = some o)
    (hkl : k ≤ l) : scope.objectWithin l n = some o := by
  induction k generalizing l n with
  | zero => cases h
  | succ k ih =>
      obtain ⟨l, rfl⟩ : ∃ i, l = i + 1 := ⟨l - 1, by omega⟩
      rw [objectWithin] at h ⊢
      split at h
      · next kind => rwa [if_pos kind]
      · next kind =>
          obtain ⟨m, htarget, hrest⟩ := Option.bind_eq_some_iff.mp h
          rw [if_neg kind, htarget]
          exact ih hrest (by omega)

/-- With more steps a place stands for nothing less. -/
theorem count_objects_le {k l : Nat} (hkl : k ≤ l) (p : Place) (body : Node) :
    (scope.objects k p).count body ≤ (scope.objects l p).count body := by
  cases p with
  | interface name => exact Nat.le_refl _
  | expression n =>
      rw [objects, objects]
      cases h : scope.objectWithin k n with
      | none => simp
      | some o => exact Nat.le_of_eq (by rw [objectWithin_mono h hkl])

/-- What is found is an object type at the end of a chain of steps. -/
theorem exists_leadsIn_of_objectWithin {k : Nat} {n o : Node}
    (h : scope.objectWithin k n = some o) :
    o.kind = .objectType ∧ ∃ j < k, scope.LeadsIn j n o := by
  induction k generalizing n with
  | zero => cases h
  | succ k ih =>
      rw [objectWithin] at h
      split at h
      · next kind =>
          cases h
          exact ⟨kind, 0, by omega, .refl _⟩
      · obtain ⟨m, htarget, hrest⟩ := Option.bind_eq_some_iff.mp h
        obtain ⟨kind, j, hj, hleads⟩ := ih hrest
        exact ⟨kind, j + 1, by omega, .step (target?_eq_some_iff.mp htarget) hleads⟩

/-- What a place that is no interface and no object type stands for is found
behind it. -/
theorem objects_succ {k : Nat} {n : Node} (hobject : n.kind ≠ .objectType)
    (hunion : n.kind ≠ .unionType) :
    scope.objects (k + 1) (.expression n) =
      (scope.nexts (.expression n)).flatMap (scope.objects k) := by
  rw [objects, objectWithin, if_neg hobject, nexts]
  by_cases hinterface : n.kind = .interfaceDeclaration
  · rw [if_pos hinterface, target?]
    simp [hinterface, objects]
  · rw [if_neg hinterface, if_neg hunion]
    cases scope.target? n <;> simp [objects]

/-! ## Hierarchies that end -/

/-- Every way down from a place ends within a number of steps, and passes through
no union. -/
inductive EndsWithin (scope : Scope) : Nat → Place → Prop
  | mk {k : Nat} {p : Place} (single : p.isUnion = false)
      (all : ∀ q ∈ scope.nexts p, EndsWithin scope k q) : EndsWithin scope (k + 1) p

/-- No way down from such a place comes back to it. -/
theorem EndsWithin.not_cycle {k : Nat} {p : Place} (h : scope.EndsWithin k p) :
    ¬ Relation.TransGen (fun p q => q ∈ scope.nexts p) p p := by
  induction h with
  | @mk k p single all ih =>
      intro hcycle
      obtain ⟨q, hstep, hback⟩ := Relation.TransGen.head'_iff.mp hcycle
      exact ih q hstep (.tail' hback hstep)

/-- In such a hierarchy the steps do not matter to what a place stands for. -/
theorem EndsWithin.objects_eq {k l : Nat} {p : Place} (h : scope.EndsWithin k p) (hkl : k ≤ l) :
    scope.objects l p = scope.objects k p := by
  induction h generalizing l with
  | @mk k p single all ih =>
      obtain ⟨l, rfl⟩ : ∃ i, l = i + 1 := ⟨l - 1, by omega⟩
      cases p with
      | interface name => rfl
      | expression n =>
          by_cases hobject : n.kind = .objectType
          · simp [objects, objectWithin, hobject]
          · have hunion : n.kind ≠ .unionType := by simpa [Place.isUnion] using single
            rw [objects_succ hobject hunion, objects_succ hobject hunion]
            exact List.flatMap_congr fun q hq => ih q hq (by omega)

/-- The aliases that are being resolved stand above a place. -/
def Above (scope : Scope) (path : List Node) (p : Place) : Prop :=
  ∀ a ∈ path, Relation.TransGen (fun p q => q ∈ scope.nexts p) (.expression a) p

/-- They still do when the walk goes on. -/
theorem Above.next {path : List Node} {p q : Place} (h : scope.Above path p)
    (hq : q ∈ scope.nexts p) : scope.Above (p.entered path) q := by
  have hold : ∀ a ∈ path,
      Relation.TransGen (fun p q => q ∈ scope.nexts p) (.expression a) q :=
    fun a ha => (h a ha).tail hq
  cases p with
  | interface name => exact hold
  | expression n =>
      intro a ha
      rcases mem_entered ha with rfl | ha
      · exact .single hq
      · exact hold a ha

/-- In a hierarchy that ends, the walk passes over nothing but interfaces that
have contributed. -/
theorem EndsWithin.exists_mem_of_not_fresh {k : Nat} {path : List Node} {seen : List String}
    {p : Place} (h : scope.EndsWithin k p) (hpath : scope.Above path p)
    (hold : ¬ p.Fresh path seen) : ∃ name ∈ seen, p = .interface name := by
  cases p with
  | interface name => exact ⟨name, not_not.mp hold, rfl⟩
  | expression n =>
      have hn : n ∈ path := by
        by_contra hn
        exact hold fun _ => hn
      exact absurd (hpath n hn) h.not_cycle

/-! ## Keeping accounts -/

/-- The levels of a piece of the walk are accounted for by the member lists that
it comes to itself and those that the interfaces which it enters contribute,
each interface once: no list is there more often than that, and where the
account is exact it is there just so often. -/
def Accounted (scope : Scope) (seen : List String) (own : List Node) (exact : Prop)
    (run : List (List Node) × List String) : Prop :=
  ∃ new, run.2 = new ++ seen ∧ new.Nodup ∧ (∀ name ∈ new, name ∉ seen) ∧
    ∀ body, (run.1.flatten.count body ≤
        own.count body + (new.flatMap scope.contributed).count body) ∧
      (exact → run.1.flatten.count body =
        own.count body + (new.flatMap scope.contributed).count body)

namespace Accounted

variable {seen : List String} {own own' : List Node} {exact exact' : Prop}
  {run run' : List (List Node) × List String}

/-- Nothing is accounted for by nothing. -/
theorem nothing (h : exact → own = []) : scope.Accounted seen own exact ([], seen) :=
  ⟨[], rfl, .nil, by simp, fun body => ⟨by simp, fun hexact => by simp [h hexact]⟩⟩

/-- A piece that comes to more accounts for what it comes to. -/
theorem mono (h : scope.Accounted seen own exact run)
    (hle : ∀ body, own.count body ≤ own'.count body)
    (hexact : exact' → exact ∧ own' = own) : scope.Accounted seen own' exact' run := by
  obtain ⟨new, hstate, hnodup, hfresh, hcount⟩ := h
  refine ⟨new, hstate, hnodup, hfresh, fun body => ⟨?_, fun h' => ?_⟩⟩
  · have := (hcount body).1
    have := hle body
    omega
  · obtain ⟨h, rfl⟩ := hexact h'
    exact (hcount body).2 h

/-- The accounts of two pieces in a row are put together. -/
theorem append (h : scope.Accounted seen own exact run)
    (h' : scope.Accounted run.2 own' exact' run') :
    scope.Accounted seen (own ++ own') (exact ∧ exact') (run.1 ++ run'.1, run'.2) := by
  obtain ⟨new, hstate, hnodup, hfresh, hcount⟩ := h
  obtain ⟨new', hstate', hnodup', hfresh', hcount'⟩ := h'
  refine ⟨new' ++ new, ?_, ?_, ?_, fun body => ?_⟩
  · rw [hstate', hstate, List.append_assoc]
  · refine List.nodup_append.mpr ⟨hnodup', hnodup, fun a ha b hb hab => ?_⟩
    exact hfresh' a ha (by rw [hstate, hab]; exact List.mem_append_left _ hb)
  · intro name hname
    rcases List.mem_append.mp hname with hname | hname
    · exact fun hseen => hfresh' name hname (by rw [hstate]; exact List.mem_append_right _ hseen)
    · exact hfresh name hname
  · simp only [List.flatten_append, List.flatMap_append, List.count_append]
    refine ⟨?_, fun hexact => ?_⟩
    · have hle := (hcount body).1
      have hle' := (hcount' body).1
      omega
    · rw [(hcount body).2 hexact.1, (hcount' body).2 hexact.2]
      omega

/-- Entering an interface takes its member lists and settles the account of its
bases. -/
theorem enter {name : String} (hname : name ∉ seen)
    (h : scope.Accounted (name :: seen) (scope.baseObjects name) exact run) :
    scope.Accounted seen [] exact (scope.memberLists name :: run.1, run.2) := by
  obtain ⟨new, hstate, hnodup, hfresh, hcount⟩ := h
  refine ⟨new ++ [name], ?_, ?_, ?_, fun body => ?_⟩
  · rw [hstate, List.append_assoc, List.singleton_append]
  · refine List.nodup_append.mpr ⟨hnodup, by simp, fun a ha b hb hab => ?_⟩
    exact hfresh a ha (by rw [hab, List.mem_singleton.mp hb]; exact List.mem_cons_self)
  · intro other hother
    rcases List.mem_append.mp hother with hother | hother
    · exact fun hseen => hfresh other hother (List.mem_cons_of_mem _ hseen)
    · rwa [List.mem_singleton.mp hother]
  · simp only [List.flatten_cons, List.flatMap_append, List.flatMap_singleton, List.count_append,
      List.count_nil]
    rw [show (scope.contributed name).count body =
      (scope.memberLists name).count body + (scope.baseObjects name).count body by
        rw [contributed, List.count_append]]
    refine ⟨?_, fun hexact => ?_⟩
    · have hle := (hcount body).1
      omega
    · rw [(hcount body).2 hexact]
      omega

/-- What a piece comes to may be thrown away. -/
theorem drop (h : scope.Accounted seen own exact run) (hexact : ¬ exact') :
    scope.Accounted seen own' exact' ([], run.2) := by
  obtain ⟨new, hstate, hnodup, hfresh, -⟩ := h
  exact ⟨new, hstate, hnodup, hfresh, fun body => ⟨by simp, fun h => absurd h hexact⟩⟩

/-- The account of a traversal is that of its steps. -/
theorem mapM {f : Place → StateM (List String) (List (List Node))} {ps : List Place}
    {own : Place → List Node} {exact : Place → Prop}
    (h : ∀ p ∈ ps, ∀ seen, scope.Accounted seen (own p) (exact p) ((f p).run seen))
    (seen : List String) :
    scope.Accounted seen (ps.flatMap own) (∀ p ∈ ps, exact p)
      (((ps.mapM f).run seen).1.flatten, ((ps.mapM f).run seen).2) := by
  induction ps generalizing seen with
  | nil => exact nothing fun _ => rfl
  | cons p ps ih =>
      have hfirst := h p (by simp) seen
      have hrest := ih (fun q hq => h q (by simp [hq])) ((f p).run seen).2
      rw [run_mapM_cons, List.flatMap_cons, List.flatten_cons]
      exact (hfirst.append hrest).mono (fun _ => Nat.le_refl _)
        fun hexact => ⟨⟨hexact p (by simp), fun q hq => hexact q (by simp [hq])⟩, rfl⟩

end Accounted

/-! ## The account of the walk -/

/-- **The account of the walk**: what it contributes is accounted for by the
interfaces that it enters, and the account is exact in a hierarchy that ends
within the steps. -/
theorem accounted_walk (scope : Scope) {k : Nat} (hk : k ≤ maxDepth + 1) (path : List Node)
    (p : Place) (seen : List String) :
    scope.Accounted seen (scope.objects k p) (scope.EndsWithin k p ∧ scope.Above path p)
      ((scope.walk k path p).run seen) := by
  induction k generalizing path p seen with
  | zero =>
      rw [run_walk_zero]
      exact .nothing fun h => by cases h.1
  | succ k ih =>
      by_cases hfresh : p.Fresh path seen
      swap
      · rw [run_walk_of_not_fresh hfresh]
        refine .nothing fun h => ?_
        obtain ⟨name, -, rfl⟩ := h.1.exists_mem_of_not_fresh h.2 hfresh
        rfl
      rw [run_walk_of_fresh hfresh]
      have hstep : ∀ q ∈ scope.nexts p, ∀ seen, scope.Accounted seen (scope.objects k q)
          (scope.EndsWithin k q ∧ scope.Above (p.entered path) q)
          ((scope.walk k (p.entered path) q).run seen) :=
        fun q _ seen => ih (by omega) (p.entered path) q seen
      have hbelow := Accounted.mapM hstep (p.marked seen)
      have hnext : scope.EndsWithin (k + 1) p ∧ scope.Above path p →
          ∀ q ∈ scope.nexts p, scope.EndsWithin k q ∧ scope.Above (p.entered path) q := by
        rintro ⟨⟨-, hall⟩, hpath⟩ q hq
        exact ⟨hall q hq, hpath.next hq⟩
      cases p with
      | interface name =>
          refine Accounted.enter hfresh (hbelow.mono (fun body => ?_) fun h => ⟨hnext h, ?_⟩)
          · rw [baseObjects, List.count_flatMap, List.count_flatMap]
            exact List.sum_le_sum fun q _ => count_objects_le (by omega) q body
          · exact List.flatMap_congr fun q hq => ((hnext h q hq).1.objects_eq (by omega))
      | expression n =>
          by_cases hunion : n.kind = .unionType
          · simp only [Place.isUnion, hunion, decide_true, if_true]
            refine hbelow.drop fun h => ?_
            obtain ⟨⟨hsingle, -⟩, -⟩ := h
            simp [Place.isUnion, hunion] at hsingle
          simp only [Place.isUnion, hunion, decide_false, Bool.false_eq_true, if_false]
          by_cases hobject : n.kind = .objectType
          · rw [nexts_of_objectType hobject, run_mapM_nil, ownLevels, if_pos hobject, objects,
              objectWithin, if_pos hobject]
            exact ⟨[], rfl, .nil, by simp, fun body => ⟨by simp, fun _ => by simp⟩⟩
          · rw [objects_succ hobject hunion, ownLevels, if_neg hobject, List.nil_append]
            exact hbelow.mono (fun _ => Nat.le_refl _) fun h => ⟨hnext h, rfl⟩

/-- What has contributed before still has. -/
theorem subset_run_walk {k : Nat} (hk : k ≤ maxDepth + 1) (path : List Node) (p : Place)
    (seen : List String) : seen ⊆ ((scope.walk k path p).run seen).2 := by
  obtain ⟨new, hstate, -⟩ := scope.accounted_walk hk path p seen
  rw [hstate]
  exact List.subset_append_right new seen

/-! ## Who contributes -/

/-- The interfaces below a place that have contributed have done so with all that
stands below them. -/
def Settled (scope : Scope) (seen : List String) (p : Place) : Prop :=
  ∀ v ∈ seen, scope.Below p (.interface v) →
    ∀ w, scope.Below (.interface v) (.interface w) → w ∈ seen

/-- A walk from which all below its start has contributed leaves the interfaces
below other places settled. -/
theorem Settled.walk {k : Nat} (hk : k ≤ maxDepth + 1) {path : List Node} {p q : Place}
    {seen : List String} (h : scope.Settled seen q)
    (hall : ∀ w, scope.Below p (.interface w) → w ∈ ((scope.walk k path p).run seen).2) :
    scope.Settled ((scope.walk k path p).run seen).2 q := by
  intro v hv hq w hw
  rcases below_of_mem_run_walk v hv with hold | hbelow
  · exact subset_run_walk hk path p seen (h v hold hq w hw)
  · exact hall w (hbelow.trans hw)

/-- Behind a traversal of settled places all that stands below them has
contributed, if this holds of each walk. -/
theorem mem_run_mapM_walk {k : Nat} (hk : k ≤ maxDepth + 1) {path : List Node} {ps : List Place}
    (hwalk : ∀ p ∈ ps, ∀ seen, scope.Settled seen p →
      ∀ w, scope.Below p (.interface w) → w ∈ ((scope.walk k path p).run seen).2)
    {seen : List String} (hsettled : ∀ p ∈ ps, scope.Settled seen p) {p : Place} (hp : p ∈ ps)
    {w : String} (hw : scope.Below p (.interface w)) :
    w ∈ ((ps.mapM (scope.walk k path)).run seen).2 := by
  induction ps generalizing seen with
  | nil => cases hp
  | cons q qs ih =>
      have hfirst := hwalk q (by simp) seen (hsettled q (by simp))
      rw [run_mapM_cons]
      rcases List.mem_cons.mp hp with rfl | hp
      · exact run_mapM_preserves (I := (w ∈ ·))
          (fun r _ s hs => subset_run_walk hk path r s hs) (hfirst w hw)
      · exact ih (fun r hr => hwalk r (by simp [hr]))
          (fun r hr => (hsettled r (by simp [hr])).walk hk hfirst) hp

/-- **Who contributes**: in a hierarchy that ends within the steps, all interfaces at
or below the start of the walk. -/
theorem EndsWithin.mem_run_walk {k : Nat} (hk : k ≤ maxDepth + 1) {path : List Node} {p : Place}
    (h : scope.EndsWithin k p) (hpath : scope.Above path p) {seen : List String}
    (hsettled : scope.Settled seen p) {w : String} (hw : scope.Below p (.interface w)) :
    w ∈ ((scope.walk k path p).run seen).2 := by
  induction h generalizing path seen w with
  | @mk k p single all ih =>
      by_cases hfresh : p.Fresh path seen
      swap
      · obtain ⟨v, hv, rfl⟩ := (EndsWithin.mk single all).exists_mem_of_not_fresh hpath hfresh
        rw [run_walk_of_not_fresh hfresh]
        exact hsettled v hv .refl w hw
      rw [run_walk_of_fresh hfresh]
      have hcycle := (EndsWithin.mk single all).not_cycle
      -- the place itself is marked now, but it does not stand below what it leads to
      have hnext : ∀ q ∈ scope.nexts p, scope.Settled (p.marked seen) q := by
        intro q hq v hv hbelow u hu
        have hold : v ∈ seen := by
          cases p with
          | expression n => exact hv
          | interface name =>
              rcases List.mem_cons.mp hv with rfl | hold
              · exact absurd (Relation.TransGen.head' hq hbelow) hcycle
              · exact hold
        have := hsettled v hold (.head hq hbelow) u hu
        cases p with
        | expression n => exact this
        | interface name => exact List.mem_cons_of_mem _ this
      have hwalk : ∀ q ∈ scope.nexts p, ∀ seen, scope.Settled seen q →
          ∀ w, scope.Below q (.interface w) →
            w ∈ ((scope.walk k (p.entered path) q).run seen).2 :=
        fun q hq seen hs w hw => ih q hq (by omega) (hpath.next hq) hs hw
      rcases hw.cases_head with rfl | ⟨q, hq, hw⟩
      · exact run_mapM_preserves (I := (w ∈ ·))
          (fun r _ s hs => subset_run_walk (by omega) _ r s hs) List.mem_cons_self
      · exact mem_run_mapM_walk (by omega) hwalk hnext hq hw

/-- In a hierarchy that ends within the steps, an object type below a place is what the
place itself stands for or what a base of an interface does. -/
theorem EndsWithin.mem_objects_or_baseObjects {k : Nat} (hk : k ≤ maxDepth + 1) {p : Place}
    (h : scope.EndsWithin k p) {o : Node} (kind : o.kind = .objectType)
    (ho : scope.Below p (.expression o)) :
    o ∈ scope.objects k p ∨
      ∃ v, scope.Below p (.interface v) ∧ o ∈ scope.baseObjects v := by
  induction h with
  | @mk k p single all ih =>
      rcases ho.cases_head with rfl | ⟨q, hq, ho⟩
      · exact .inl (by simp [objects, objectWithin, kind])
      rcases ih q hq (by omega) ho with hobject | ⟨v, hv, hobject⟩
      · cases p with
        | interface name =>
            have hmore : (scope.objects k q).count o ≤ (scope.objects maxDepth q).count o :=
              count_objects_le (by omega) q o
            have hpos : 0 < (scope.objects maxDepth q).count o :=
              Nat.lt_of_lt_of_le (List.count_pos_iff.mpr hobject) hmore
            exact .inr ⟨name, .refl, List.mem_flatMap.mpr ⟨q, hq, List.count_pos_iff.mp hpos⟩⟩
        | expression n =>
            have hunion : n.kind ≠ .unionType := by simpa [Place.isUnion] using single
            have hn : n.kind ≠ .objectType := fun hkind => by
              rw [nexts_of_objectType hkind] at hq
              cases hq
            rw [objects_succ hn hunion]
            exact .inl (List.mem_flatMap.mpr ⟨q, hq, hobject⟩)
      · exact .inr ⟨v, .head hq hv, hobject⟩

/-! ## The member lists of a type -/

/-- The object type that an expression stands for is all that has members below
it. -/
theorem below_of_objectWithin {k : Nat} {n o : Node} (h : scope.objectWithin k n = some o) :
    scope.Below (.expression n) (.expression o) ∧
      ∀ v, ¬ scope.Below (.expression n) (.interface v) := by
  induction k generalizing n with
  | zero => cases h
  | succ k ih =>
      rw [objectWithin] at h
      split at h
      · next kind =>
          cases h
          refine ⟨.refl, fun v hbelow => ?_⟩
          obtain ⟨q, hq, -⟩ := hbelow.cases_head.resolve_left (by simp)
          rw [nexts_of_objectType kind] at hq
          cases hq
      · obtain ⟨m, htarget, hrest⟩ := Option.bind_eq_some_iff.mp h
        have hnexts := (target?_eq_some_iff.mp htarget).nexts_eq
        obtain ⟨hbelow, hnone⟩ := ih hrest
        refine ⟨.head (by rw [hnexts]; exact List.mem_singleton_self _) hbelow, fun v hv => ?_⟩
        obtain ⟨q, hq, hv⟩ := hv.cases_head.resolve_left (by simp)
        rw [hnexts, List.mem_singleton] at hq
        exact hnone v (hq ▸ hv)

/-- What a place stands for is the member list of an object type below it. -/
theorem exists_place_of_mem_objects {k : Nat} {p : Place} {o : Node}
    (h : o ∈ scope.objects k p) : ∃ q, scope.Below p q ∧ o ∈ (scope.ownLevels q).flatten := by
  cases p with
  | interface name => cases h
  | expression n =>
      have hwithin := Option.mem_toList.mp h
      have kind := (exists_leadsIn_of_objectWithin hwithin).1
      exact ⟨.expression o, (below_of_objectWithin hwithin).1, by simp [ownLevels, kind]⟩

/-- What an interface contributes are member lists of places at or below it. -/
theorem exists_place_of_mem_contributed {v : String} {body : Node}
    (h : body ∈ scope.contributed v) :
    ∃ q, scope.Below (.interface v) q ∧ body ∈ (scope.ownLevels q).flatten := by
  rcases List.mem_append.mp h with hown | hbase
  · exact ⟨.interface v, .refl, by simpa [ownLevels, memberLists] using hown⟩
  · obtain ⟨p, hp, hbase⟩ := List.mem_flatMap.mp hbase
    obtain ⟨q, hq, hbody⟩ := exists_place_of_mem_objects hbase
    exact ⟨q, .head hp hq, hbody⟩

/-- The member lists of a resolved type. -/
def lists (scope : Scope) (n : Node) : List Node := (scope.resolve n).levels.flatten

/-- The account of a resolved type: its member lists are those of the object type that
the node stands for, or what the interfaces below it contribute, each once. -/
theorem exists_account (scope : Scope) (n : Node) :
    ∃ new : List String, new.Nodup ∧
      (∀ v ∈ new, scope.Below (.expression n) (.interface v)) ∧
      (∀ body, (scope.lists n).count body ≤
        (scope.objects (maxDepth + 1) (.expression n)).count body +
          (new.flatMap scope.contributed).count body) ∧
      (scope.EndsWithin (maxDepth + 1) (.expression n) →
        (∀ v, scope.Below (.expression n) (.interface v) → v ∈ new) ∧
        ∀ body, (scope.lists n).count body =
          (scope.objects (maxDepth + 1) (.expression n)).count body +
            (new.flatMap scope.contributed).count body) := by
  obtain ⟨new, hstate, hnodup, -, hcount⟩ :=
    scope.accounted_walk (Nat.le_refl _) [] (.expression n) []
  rw [List.append_nil] at hstate
  have hpath : scope.Above [] (.expression n) := by simp [Above]
  refine ⟨new, hnodup, fun v hv => ?_, fun body => (hcount body).1, fun hends => ⟨?_, ?_⟩⟩
  · rcases below_of_mem_run_walk v (hstate ▸ hv) with hold | hbelow
    · cases hold
    · exact hbelow
  · intro v hv
    rw [← hstate]
    exact hends.mem_run_walk (Nat.le_refl _) hpath (by simp [Settled]) hv
  · exact fun body => (hcount body).2 ⟨hends, hpath⟩

/-- The member lists of a resolved type are those of places at or below the node. -/
theorem exists_place_of_mem_lists {n body : Node} (h : body ∈ scope.lists n) :
    ∃ q, scope.Below (.expression n) q ∧ body ∈ (scope.ownLevels q).flatten := by
  obtain ⟨new, -, hbelow, hcount, -⟩ := scope.exists_account n
  have hpos := Nat.lt_of_lt_of_le (List.count_pos_iff.mpr h) (hcount body)
  rcases Nat.eq_zero_or_pos ((scope.objects (maxDepth + 1) (.expression n)).count body) with
    hzero | hobject
  · rw [hzero, Nat.zero_add] at hpos
    obtain ⟨v, hv, hbody⟩ := List.mem_flatMap.mp (List.count_pos_iff.mp hpos)
    obtain ⟨q, hq, hown⟩ := exists_place_of_mem_contributed hbody
    exact ⟨q, (hbelow v hv).trans hq, hown⟩
  · exact exists_place_of_mem_objects (List.count_pos_iff.mp hobject)

/-- In a hierarchy that ends within the steps, the member lists of all places at or
below the node are there. -/
theorem EndsWithin.mem_lists {n body : Node} (h : scope.EndsWithin (maxDepth + 1) (.expression n))
    {q : Place} (hq : scope.Below (.expression n) q)
    (hbody : body ∈ (scope.ownLevels q).flatten) : body ∈ scope.lists n := by
  obtain ⟨new, -, -, -, hexact⟩ := scope.exists_account n
  obtain ⟨hall, hcount⟩ := hexact h
  suffices 0 < (scope.objects (maxDepth + 1) (.expression n)).count body +
      (new.flatMap scope.contributed).count body by
    rw [← hcount] at this
    exact List.count_pos_iff.mp this
  have hcontributed : ∀ v, scope.Below (.expression n) (.interface v) →
      body ∈ scope.contributed v → 0 < (new.flatMap scope.contributed).count body :=
    fun v hv hbody => List.count_pos_iff.mpr (List.mem_flatMap.mpr ⟨v, hall v hv, hbody⟩)
  cases q with
  | interface v =>
      have hown : body ∈ scope.memberLists v := by simpa [ownLevels, memberLists] using hbody
      exact Nat.add_pos_right _ (hcontributed v hq (List.mem_append_left _ hown))
  | expression o =>
      rw [ownLevels] at hbody
      split at hbody
      · next kind =>
          obtain rfl : body = o := by simpa using hbody
          rcases h.mem_objects_or_baseObjects (Nat.le_refl _) kind hq with hobject | ⟨v, hv, hbase⟩
          · exact Nat.add_pos_left (List.count_pos_iff.mpr hobject) _
          · exact Nat.add_pos_right _ (hcontributed v hv (List.mem_append_right _ hbase))
      · cases hbody

end Scope

end CommandSchema
