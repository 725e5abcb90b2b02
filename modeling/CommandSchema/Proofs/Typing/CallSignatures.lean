import CommandSchema.Proofs.Syntax.Statements
import CommandSchema.Proofs.Typing.Contributions

/-!
# CommandSchema.Proofs.Typing.CallSignatures

How often a call signature counts.

In a tree of distinct nodes, such as that of any parsed file, a call signature
belongs to one member list, so it is counted as often as that list gets into the
resolved type (`count_signatures`).
The member list of an interface gets there once at most.  That of an object type
gets there once for every base that stands for it, for only interfaces are
remembered during a resolution.  So the call signatures of a type are told apart
just where no object type that has any is what two bases stand for
(`nodup_signatureNodes_iff`), and a hierarchy with a single call signature can still
come to several.
-/

namespace CommandSchema

open Syntax

/-! ## Counting -/

section Counting

variable {α β : Type} [DecidableEq β]

/-- Something is listed twice behind distinct elements when one of them lists it
twice, or two of them list it. -/
theorem two_le_count_flatMap_iff {xs : List α} {f : α → List β} {b : β} (h : xs.Nodup) :
    2 ≤ (xs.flatMap f).count b ↔
      (∃ x ∈ xs, 2 ≤ (f x).count b) ∨ ∃ x ∈ xs, ∃ y ∈ xs, x ≠ y ∧ b ∈ f x ∧ b ∈ f y := by
  induction xs with
  | nil => simp
  | cons x xs ih =>
      obtain ⟨hx, hxs⟩ := List.nodup_cons.mp h
      rw [List.flatMap_cons, List.count_append]
      constructor
      · intro htwo
        by_cases hfirst : 2 ≤ (f x).count b
        · exact .inl ⟨x, by simp, hfirst⟩
        by_cases hrest : 2 ≤ (xs.flatMap f).count b
        · rcases (ih hxs).mp hrest with ⟨y, hy, hcount⟩ | ⟨y, hy, z, hz, hne, hb⟩
          · exact .inl ⟨y, by simp [hy], hcount⟩
          · exact .inr ⟨y, by simp [hy], z, by simp [hz], hne, hb⟩
        · have hbx : b ∈ f x := List.count_pos_iff.mp (by omega)
          have hbxs : b ∈ xs.flatMap f := List.count_pos_iff.mp (by omega)
          obtain ⟨y, hy, hby⟩ := List.mem_flatMap.mp hbxs
          exact .inr ⟨x, by simp, y, by simp [hy], fun heq => hx (heq ▸ hy), hbx, hby⟩
      · have hmem : ∀ y ∈ xs, b ∈ f y → 0 < (xs.flatMap f).count b := fun y hy hby =>
          List.count_pos_iff.mpr (List.mem_flatMap.mpr ⟨y, hy, hby⟩)
        have hpos : ∀ y, b ∈ f y → 0 < (f y).count b := fun y => List.count_pos_iff.mpr
        rintro (⟨y, hy, hcount⟩ | ⟨y, hy, z, hz, hne, hby, hbz⟩)
        · rcases List.mem_cons.mp hy with rfl | hy
          · omega
          · have := (ih hxs).mpr (.inl ⟨y, hy, hcount⟩)
            omega
        · rcases List.mem_cons.mp hy with heq | hy <;> rcases List.mem_cons.mp hz with heq' | hz
          · exact absurd (heq.trans heq'.symm) hne
          · have := hpos x (heq ▸ hby)
            have := hmem z hz hbz
            omega
          · have := hpos x (heq' ▸ hbz)
            have := hmem y hy hby
            omega
          · have := (ih hxs).mpr (.inr ⟨y, hy, z, hz, hne, hby, hbz⟩)
            omega

/-- What a single element lists, and just once, is listed as often as this element
is there. -/
theorem count_flatMap_of_unique [DecidableEq α] {xs : List α} {f : α → List β} {x : α} {b : β}
    (hb : (f x).count b = 1) (h : ∀ y ∈ xs, b ∈ f y → y = x) :
    (xs.flatMap f).count b = xs.count x := by
  induction xs with
  | nil => rfl
  | cons y xs ih =>
      have hrest := ih fun z hz => h z (by simp [hz])
      rw [List.flatMap_cons, List.count_append, hrest, List.count_cons]
      by_cases heq : y = x
      · rw [heq, hb, if_pos (by simp), Nat.add_comm]
      · have hnot : b ∉ f y := fun hby => heq (h y (by simp) hby)
        rw [List.count_eq_zero_of_not_mem hnot, if_neg (by simpa using heq), Nat.zero_add,
          Nat.add_zero]

end Counting

namespace Syntax.Node

/-- The call signatures of a member list. -/
def callSignatures (body : Node) : List Node :=
  body.namedChildren.filter (·.kind = .callSignature)

theorem mem_children_of_mem_callSignatures {body s : Node} (h : s ∈ body.callSignatures) :
    s ∈ body.children :=
  mem_children_of_mem_namedChildren (List.mem_filter.mp h).1

/-- A call signature of a tree of distinct nodes is listed once in its member list. -/
theorem Distinct.count_callSignatures {root body s : Node} (h : root.Distinct)
    (hbody : body ∈ root.preorder) (hs : s ∈ body.callSignatures) :
    body.callSignatures.count s = 1 :=
  List.count_eq_one_of_mem (((h.nodup_children hbody).filter _).filter _) hs

end Syntax.Node

namespace Scope

open Syntax.Node

/-! ## Places in a tree -/

/-- A place is one of a tree: an expression of it, or any interface. -/
def Place.Within (root : Node) : Place → Prop
  | .interface _ => True
  | .expression n => n ∈ root.preorder

section Tree

variable {root : Node} {int32Names : List String}

theorem mem_preorder_of_child {n child : Node} (hn : n ∈ root.preorder)
    (hchild : child ∈ n.children) : child ∈ root.preorder :=
  preorder_trans hn (mem_preorder_of_mem_children hchild (self_mem_preorder child))

/-- A node that another one leads to is a child of it or a declaration. -/
theorem Leads.mem_children_or_declarations {scope : Scope} {n m : Node} (h : scope.Leads n m) :
    (m ∈ n.children ∧ n.kind ≠ .interfaceDeclaration) ∨ m ∈ scope.declarations := by
  cases h with
  | wrapper kind first =>
      refine .inl ⟨mem_children_of_firstNamed? first, ?_⟩
      rcases kind with kind | kind | kind <;> simp [kind]
  | reference _ _ declared | generic _ _ declared =>
      exact .inr (mem_declarations_of_declaration? declared)
  | aliased kind valued => exact .inl ⟨mem_children_of_child? valued, by simp [kind]⟩

/-- The ways down do not leave the tree. -/
theorem Place.Within.next {p q : Place} (h : p.Within root)
    (hq : q ∈ (ofTree root int32Names).nexts p) : q.Within root := by
  cases p with
  | interface name =>
      obtain ⟨base, hbase, rfl⟩ := List.mem_map.mp hq
      obtain ⟨d, hd, hbase⟩ := List.mem_flatMap.mp hbase
      obtain ⟨clause, hclause, -, hbase⟩ := exists_clause_of_mem_bases hbase
      have hdeclared := mem_preorder_of_mem_declarations (mem_interfaces_iff.mp hd).1
      rw [basePlace]
      split
      · trivial
      · exact mem_preorder_of_child (mem_preorder_of_child hdeclared hclause) hbase
  | expression n =>
      rw [nexts] at hq
      split at hq
      · rw [List.mem_singleton.mp hq]
        trivial
      split at hq
      · obtain ⟨m, hm, rfl⟩ := List.mem_map.mp hq
        exact mem_preorder_of_child h (mem_children_of_mem_namedChildren hm)
      · obtain ⟨m, hm, rfl⟩ := List.mem_map.mp hq
        have hleads := target?_eq_some_iff.mp (Option.mem_toList.mp hm)
        rcases hleads.mem_children_or_declarations with ⟨hchild, -⟩ | hdeclared
        · exact mem_preorder_of_child h hchild
        · exact mem_preorder_of_mem_declarations hdeclared

theorem Place.Within.below {p q : Place} (h : p.Within root)
    (hq : (ofTree root int32Names).Below p q) : q.Within root := by
  induction hq with
  | refl => exact h
  | tail _ hstep ih => exact ih.next hstep

/-- The member lists of a place of the tree are nodes of it. -/
theorem Place.Within.mem_preorder {p : Place} {body : Node} (h : p.Within root)
    (hbody : body ∈ ((ofTree root int32Names).ownLevels p).flatten) : body ∈ root.preorder := by
  cases p with
  | interface name =>
      obtain ⟨d, hd, hbody⟩ : ∃ d ∈ (ofTree root int32Names).interfaces name,
          d.child? .body = some body := by
        simpa [ownLevels] using hbody
      exact mem_preorder_of_child (mem_preorder_of_mem_declarations (mem_interfaces_iff.mp hd).1)
        (mem_children_of_child? hbody)
  | expression n =>
      have hn : body = n := by
        rw [ownLevels] at hbody
        split at hbody
        · simpa using hbody
        · cases hbody
      rw [hn]
      exact h

/-! ## Interfaces and object types -/

/-- A node of the tree has a parent that is no interface. -/
def OutsideInterfaces (root n : Node) : Prop :=
  ∃ parent ∈ root.preorder, parent.kind ≠ .interfaceDeclaration ∧ n ∈ parent.children

/-- The object type that an expression outside interfaces stands for is outside
interfaces. -/
theorem outsideInterfaces_of_objectWithin {k : Nat} {n o : Node} (hn : n ∈ root.preorder)
    (hout : n.kind = .objectType → OutsideInterfaces root n)
    (h : (ofTree root int32Names).objectWithin k n = some o) : OutsideInterfaces root o := by
  induction k generalizing n with
  | zero => cases h
  | succ k ih =>
      rw [objectWithin] at h
      split at h
      · next kind =>
          cases h
          exact hout kind
      · obtain ⟨m, htarget, hrest⟩ := Option.bind_eq_some_iff.mp h
        rcases (target?_eq_some_iff.mp htarget).mem_children_or_declarations with
          ⟨hchild, hkind⟩ | hdeclared
        · exact ih (mem_preorder_of_child hn hchild) (fun _ => ⟨n, hn, hkind, hchild⟩) hrest
        · have hdeclares := declaresType_of_mem_declarationsOfAll root.children m hdeclared
          exact ih (mem_preorder_of_mem_declarations hdeclared)
            (fun kind => absurd hdeclares (by simp [kind])) hrest

/-- The object types that bases stand for are outside interfaces. -/
theorem outsideInterfaces_of_mem_baseObjects {v : String} {o : Node}
    (h : o ∈ (ofTree root int32Names).baseObjects v) : OutsideInterfaces root o := by
  obtain ⟨q, hq, ho⟩ := List.mem_flatMap.mp h
  obtain ⟨base, hbase, rfl⟩ := List.mem_map.mp hq
  obtain ⟨d, hd, hbase⟩ := List.mem_flatMap.mp hbase
  obtain ⟨clause, hclause, kind, hbase⟩ := exists_clause_of_mem_bases hbase
  have hclause := mem_preorder_of_child
    (mem_preorder_of_mem_declarations (mem_interfaces_iff.mp hd).1) hclause
  rw [basePlace] at ho
  split at ho
  · cases ho
  · exact outsideInterfaces_of_objectWithin (mem_preorder_of_child hclause hbase)
      (fun _ => ⟨clause, hclause, by simp [kind], hbase⟩) (Option.mem_toList.mp ho)

end Tree

/-! ## Call signatures of a hierarchy -/

variable {scope : Scope}

/-- More than one base in a hierarchy stands for the object type: two bases of one
interface, or those of two interfaces. -/
def NamedTwice (scope : Scope) (p : Place) (o : Node) : Prop :=
  (∃ v, scope.Below p (.interface v) ∧ 2 ≤ (scope.baseObjects v).count o) ∨
    ∃ v v', v ≠ v' ∧ scope.Below p (.interface v) ∧ scope.Below p (.interface v') ∧
      o ∈ scope.baseObjects v ∧ o ∈ scope.baseObjects v'

/-- The call signature is one of those that a place or something below it
declares. -/
def InHierarchy (scope : Scope) (p : Place) (s : Node) : Prop :=
  ∃ q, scope.Below p q ∧ s ∈ (scope.ownLevels q).flatten.flatMap Node.callSignatures

/-! ## How often a member list is there -/

section Counts

variable {root : Node} {int32Names : List String} (hroot : root.Distinct)

include hroot

/-- The member list of an interface is not what a base stands for. -/
theorem not_mem_baseObjects {v v' : String} {body : Node}
    (hbody : body ∈ (ofTree root int32Names).memberLists v) :
    body ∉ (ofTree root int32Names).baseObjects v' := by
  intro hbase
  obtain ⟨d, hd, hchild⟩ := List.mem_filterMap.mp hbody
  obtain ⟨hdeclared, -, kind⟩ := mem_interfaces_iff.mp hd
  obtain ⟨parent, hparent, hkind, hchild'⟩ := outsideInterfaces_of_mem_baseObjects hbase
  have heq := hroot.parent_eq hparent (mem_preorder_of_mem_declarations hdeclared) hchild'
    (mem_children_of_child? hchild)
  exact hkind (heq ▸ kind)

/-- The member lists of distinct interfaces are distinct. -/
theorem nodup_flatMap_memberLists {vs : List String} (hvs : vs.Nodup) :
    (vs.flatMap (ofTree root int32Names).memberLists).Nodup := by
  rw [List.nodup_flatMap]
  constructor
  · intro v _
    rw [memberLists, List.Nodup, List.pairwise_filterMap]
    have hinterfaces : ((ofTree root int32Names).interfaces v).Nodup :=
      ((nodup_declarations hroot int32Names).filter _).filter _
    refine hinterfaces.imp_of_mem fun {d d'} hd hd' hne body hbody body' hbody' heq => hne ?_
    subst heq
    exact hroot.parent_eq (mem_preorder_of_mem_declarations (mem_interfaces_iff.mp hd).1)
      (mem_preorder_of_mem_declarations (mem_interfaces_iff.mp hd').1)
      (mem_children_of_child? hbody) (mem_children_of_child? hbody')
  · refine hvs.imp fun {v v'} hne => List.disjoint_left.mpr fun body hbody hbody' => hne ?_
    obtain ⟨d, hd, hchild⟩ := List.mem_filterMap.mp hbody
    obtain ⟨d', hd', hchild'⟩ := List.mem_filterMap.mp hbody'
    obtain ⟨hdeclared, hname, -⟩ := mem_interfaces_iff.mp hd
    obtain ⟨hdeclared', hname', -⟩ := mem_interfaces_iff.mp hd'
    have heq := hroot.parent_eq (mem_preorder_of_mem_declarations hdeclared)
      (mem_preorder_of_mem_declarations hdeclared') (mem_children_of_child? hchild)
      (mem_children_of_child? hchild')
    rw [← hname, heq, hname']

/-- What distinct interfaces contribute twice comes through their bases. -/
theorem two_le_count_baseObjects {vs : List String} (hvs : vs.Nodup) {body : Node}
    (h : 2 ≤ (vs.flatMap (ofTree root int32Names).contributed).count body) :
    2 ≤ (vs.flatMap (ofTree root int32Names).baseObjects).count body := by
  have hsplit : (vs.flatMap (ofTree root int32Names).contributed).count body =
      (vs.flatMap (ofTree root int32Names).memberLists).count body +
        (vs.flatMap (ofTree root int32Names).baseObjects).count body := by
    rw [← List.count_append]
    exact (List.flatMap_append_perm vs _ _).symm.count_eq body
  by_cases hown : body ∈ vs.flatMap (ofTree root int32Names).memberLists
  · have hone := List.count_eq_one_of_mem (nodup_flatMap_memberLists hroot hvs) hown
    have hnone : body ∉ vs.flatMap (ofTree root int32Names).baseObjects := by
      intro hbase
      obtain ⟨v, -, hbody⟩ := List.mem_flatMap.mp hown
      obtain ⟨v', -, hbody'⟩ := List.mem_flatMap.mp hbase
      exact not_mem_baseObjects hroot hbody hbody'
    rw [hsplit, hone, List.count_eq_zero_of_not_mem hnone] at h
    omega
  · rw [hsplit, List.count_eq_zero_of_not_mem hown] at h
    omega

/-- A member list that no two bases lead to is there once at most. -/
theorem count_lists_le_one {n body : Node}
    (h : ¬ (ofTree root int32Names).NamedTwice (.expression n) body) :
    ((ofTree root int32Names).lists n).count body ≤ 1 := by
  obtain ⟨new, hnodup, hbelow, hcount, -⟩ := (ofTree root int32Names).exists_account n
  have hle := hcount body
  cases hwithin : (ofTree root int32Names).objectWithin (maxDepth + 1) n with
  | some o =>
      have hnone : new = [] := List.eq_nil_iff_forall_not_mem.mpr fun v hv =>
        (below_of_objectWithin hwithin).2 v (hbelow v hv)
      rw [hnone, objects, hwithin] at hle
      exact hle.trans (by simp [List.count_singleton]; split <;> omega)
  | none =>
      rw [objects, hwithin, Option.toList_none, List.count_nil, Nat.zero_add] at hle
      by_contra hmany
      have htwo : 2 ≤ (new.flatMap (ofTree root int32Names).contributed).count body := by omega
      apply h
      rcases (two_le_count_flatMap_iff hnodup).mp (two_le_count_baseObjects hroot hnodup htwo) with
        ⟨v, hv, hcount⟩ | ⟨v, hv, v', hv', hne, hbody, hbody'⟩
      · exact .inl ⟨v, hbelow v hv, hcount⟩
      · exact .inr ⟨v, v', hne, hbelow v hv, hbelow v' hv', hbody, hbody'⟩

omit hroot in
/-- In a hierarchy that ends within the steps, a member list that two bases lead to is
there twice. -/
theorem NamedTwice.two_le_count_lists {n o : Node}
    (h : scope.NamedTwice (.expression n) o)
    (hends : scope.EndsWithin (maxDepth + 1) (.expression n)) :
    2 ≤ (scope.lists n).count o := by
  obtain ⟨new, hnodup, -, -, hexact⟩ := scope.exists_account n
  obtain ⟨hall, hcount⟩ := hexact hends
  have htwo : 2 ≤ (new.flatMap scope.baseObjects).count o := by
    rw [two_le_count_flatMap_iff hnodup]
    rcases h with ⟨v, hv, hcount⟩ | ⟨v, v', hne, hv, hv', ho, ho'⟩
    · exact .inl ⟨v, hall v hv, hcount⟩
    · exact .inr ⟨v, hall v hv, v', hall v' hv', hne, ho, ho'⟩
  have hmore : (new.flatMap scope.baseObjects).count o ≤
      (new.flatMap scope.contributed).count o := by
    have hperm := List.flatMap_append_perm new scope.memberLists scope.baseObjects
    rw [show scope.contributed = fun v => scope.memberLists v ++ scope.baseObjects v from rfl,
      ← hperm.count_eq o, List.count_append]
    omega
  rw [hcount]
  omega

end Counts

/-! ## How often a call signature is there -/

/-- The call signatures of a type are those of its member lists, unless it is a function
type. -/
theorem signatureNodes_cases (scope : Scope) (n : Node) :
    ((scope.resolve n).signatureNodes = (scope.lists n).flatMap Node.callSignatures) ∨
      (∃ f, (scope.resolve n).signatureNodes = [f]) ∧ scope.lists n = [] := by
  rw [lists]
  cases scope.resolve n with
  | object text levels => exact .inl rfl
  | function f => exact .inr ⟨⟨f, rfl⟩, rfl⟩
  | _ => exact .inl rfl

section Signatures

variable {root n : Node} {int32Names : List String} (hroot : root.Distinct)
  (hn : n ∈ root.preorder)

include hn

theorem mem_preorder_of_mem_lists {body : Node}
    (h : body ∈ (ofTree root int32Names).lists n) : body ∈ root.preorder := by
  obtain ⟨q, hq, hbody⟩ := exists_place_of_mem_lists h
  have hwithin : (Place.expression n).Within root := hn
  exact (hwithin.below hq).mem_preorder hbody

include hroot

/-- A call signature is counted as often as its member list is there. -/
theorem count_signatures {body s : Node} (hbody : body ∈ root.preorder)
    (hs : s ∈ body.callSignatures) :
    (((ofTree root int32Names).lists n).flatMap Node.callSignatures).count s =
      ((ofTree root int32Names).lists n).count body := by
  refine count_flatMap_of_unique (hroot.count_callSignatures hbody hs) fun other hother hs' => ?_
  exact hroot.parent_eq (mem_preorder_of_mem_lists hn hother) hbody
    (mem_children_of_mem_callSignatures hs') (mem_children_of_mem_callSignatures hs)

/-- A call signature whose member list no two bases lead to is counted once at most. -/
theorem count_signatureNodes_le_one {body s : Node} (hbody : body ∈ root.preorder)
    (hs : s ∈ body.callSignatures)
    (h : ¬ (ofTree root int32Names).NamedTwice (.expression n) body) :
    ((ofTree root int32Names).resolve n).signatureNodes.count s ≤ 1 := by
  rcases (ofTree root int32Names).signatureNodes_cases n with heq | ⟨⟨f, heq⟩, -⟩
  · rw [heq, count_signatures hroot hn hbody hs]
    exact count_lists_le_one hroot h
  · rw [heq, List.count_singleton]
    split <;> omega

/-- A call signature that two bases lead to is counted twice, in a hierarchy that ends
within the steps. -/
theorem two_le_count_signatureNodes {o s : Node}
    (hends : (ofTree root int32Names).EndsWithin (maxDepth + 1) (.expression n))
    (ho : (ofTree root int32Names).NamedTwice (.expression n) o) (hs : s ∈ o.callSignatures) :
    2 ≤ ((ofTree root int32Names).resolve n).signatureNodes.count s := by
  have htwo := ho.two_le_count_lists hends
  have hmem : o ∈ (ofTree root int32Names).lists n := List.count_pos_iff.mp (by omega)
  rcases (ofTree root int32Names).signatureNodes_cases n with heq | ⟨-, hnone⟩
  · rwa [heq, count_signatures hroot hn (mem_preorder_of_mem_lists hn hmem) hs]
  · rw [hnone] at hmem
    cases hmem

/-- The call signatures of a type are told apart when no two bases lead to any. -/
theorem nodup_signatureNodes
    (h : ∀ o, (ofTree root int32Names).NamedTwice (.expression n) o → o.callSignatures = []) :
    ((ofTree root int32Names).resolve n).signatureNodes.Nodup := by
  rcases (ofTree root int32Names).signatureNodes_cases n with heq | ⟨⟨f, heq⟩, -⟩
  · refine List.nodup_iff_count_le_one.mpr fun s => ?_
    by_cases hs : s ∈ ((ofTree root int32Names).resolve n).signatureNodes
    · rw [heq] at hs
      obtain ⟨body, hbody, hs⟩ := List.mem_flatMap.mp hs
      exact count_signatureNodes_le_one hroot hn (mem_preorder_of_mem_lists hn hbody) hs
        fun htwice => List.ne_nil_of_mem hs (h body htwice)
    · rw [List.count_eq_zero_of_not_mem hs]
      exact Nat.zero_le 1
  · rw [heq]
    exact List.nodup_singleton f

/-- A call signature that an interface declares is counted once at most. -/
theorem count_signatureNodes_of_interface_le_one {v : String} {body s : Node}
    (hbody : body ∈ (ofTree root int32Names).memberLists v) (hs : s ∈ body.callSignatures) :
    ((ofTree root int32Names).resolve n).signatureNodes.count s ≤ 1 := by
  obtain ⟨d, hd, hchild⟩ := List.mem_filterMap.mp hbody
  have hdeclared := mem_preorder_of_mem_declarations (mem_interfaces_iff.mp hd).1
  refine count_signatureNodes_le_one hroot hn
    (mem_preorder_of_child hdeclared (mem_children_of_child? hchild)) hs ?_
  -- no base stands for the member list of an interface
  rintro (⟨v', -, htwo⟩ | ⟨v', -, -, -, -, hbase, -⟩)
  · have hpos : 0 < ((ofTree root int32Names).baseObjects v').count body := by omega
    exact not_mem_baseObjects hroot hbody (List.count_pos_iff.mp hpos)
  · exact not_mem_baseObjects hroot hbody hbase

/-- In a hierarchy that ends within the steps, the call signatures are told apart only
when no two bases lead to any. -/
theorem EndsWithin.nodup_iff (hends : (ofTree root int32Names).EndsWithin (maxDepth + 1)
    (.expression n)) : ((ofTree root int32Names).resolve n).signatureNodes.Nodup ↔
      ∀ o, (ofTree root int32Names).NamedTwice (.expression n) o → o.callSignatures = [] := by
  refine ⟨fun hnodup o ho => ?_, nodup_signatureNodes hroot hn⟩
  refine List.eq_nil_iff_forall_not_mem.mpr fun s hs => ?_
  have := two_le_count_signatureNodes hroot hn hends ho hs
  have := List.nodup_iff_count_le_one.mp hnodup s
  omega

omit hroot hn in
/-- In a hierarchy that ends within the steps and holds a call signature, the call
signatures of the type are those of the hierarchy. -/
theorem EndsWithin.mem_signatureNodes_iff {s : Node}
    (hends : scope.EndsWithin (maxDepth + 1) (.expression n))
    (hs : scope.InHierarchy (.expression n) s) (s' : Node) :
    s' ∈ (scope.resolve n).signatureNodes ↔ scope.InHierarchy (.expression n) s' := by
  have hiff : ∀ s', s' ∈ (scope.lists n).flatMap Node.callSignatures ↔
      scope.InHierarchy (.expression n) s' := by
    intro s'
    rw [List.mem_flatMap]
    constructor
    · rintro ⟨body, hbody, hs'⟩
      obtain ⟨q, hq, hown⟩ := exists_place_of_mem_lists hbody
      exact ⟨q, hq, List.mem_flatMap.mpr ⟨body, hown, hs'⟩⟩
    · rintro ⟨q, hq, hs'⟩
      obtain ⟨body, hown, hs'⟩ := List.mem_flatMap.mp hs'
      exact ⟨body, hends.mem_lists hq hown, hs'⟩
  rcases scope.signatureNodes_cases n with heq | ⟨-, hnone⟩
  · rw [heq, hiff]
  · have := (hiff s).mpr hs
    rw [hnone] at this
    cases this

omit hroot hn in
/-- Where a hierarchy that ends within the steps holds a single call signature, the type
has this one, as often as it is counted. -/
theorem EndsWithin.signatureNodes_eq_replicate {s : Node}
    (hends : scope.EndsWithin (maxDepth + 1) (.expression n))
    (hsingle : ∀ s', scope.InHierarchy (.expression n) s' ↔ s' = s) :
    (scope.resolve n).signatureNodes ≠ [] ∧ (scope.resolve n).signatureNodes =
      List.replicate ((scope.resolve n).signatureNodes.count s) s := by
  have hmem : ∀ s', s' ∈ (scope.resolve n).signatureNodes ↔ s' = s := fun s' =>
    (hends.mem_signatureNodes_iff ((hsingle s).mpr rfl) s').trans (hsingle s')
  refine ⟨List.ne_nil_of_mem ((hmem s).mpr rfl), ?_⟩
  exact (List.replicate_count_eq_of_count_eq_length (List.count_eq_length.mpr fun s' hs' =>
    ((hmem s').mp hs').symm)).symm

/-- A call signature that is the only one of its hierarchy and that two bases lead to
counts twice at least. -/
theorem EndsWithin.two_le_length {o s : Node}
    (hends : (ofTree root int32Names).EndsWithin (maxDepth + 1) (.expression n))
    (ho : (ofTree root int32Names).NamedTwice (.expression n) o) (hs : s ∈ o.callSignatures) :
    2 ≤ ((ofTree root int32Names).model.callSignatures
      ((ofTree root int32Names).resolve n)).length := by
  have htwo := two_le_count_signatureNodes hroot hn hends ho hs
  have hle := (List.count_le_length :
    ((ofTree root int32Names).resolve n).signatureNodes.count s ≤ _)
  exact (htwo.trans hle).trans_eq (List.length_map _).symm

/-- A type whose hierarchy holds a single call signature can be called in a single way
unless two bases lead to it. -/
theorem EndsWithin.callSignatures_eq_singleton_iff {s : Node}
    (hends : (ofTree root int32Names).EndsWithin (maxDepth + 1) (.expression n))
    (hsingle : ∀ s', (ofTree root int32Names).InHierarchy (.expression n) s' ↔ s' = s) :
    (ofTree root int32Names).model.callSignatures ((ofTree root int32Names).resolve n) =
        [(ofTree root int32Names).callSignature s] ↔
      ∀ o, (ofTree root int32Names).NamedTwice (.expression n) o → s ∉ o.callSignatures := by
  obtain ⟨hne, heq⟩ := hends.signatureNodes_eq_replicate hsingle
  constructor
  · intro hone o ho hs
    have htwo := hends.two_le_length hroot hn ho hs
    rw [hone] at htwo
    simp at htwo
  · intro hnone
    -- every signature that two bases lead to is this one
    have hnodup : ((ofTree root int32Names).resolve n).signatureNodes.Nodup := by
      refine nodup_signatureNodes hroot hn fun o ho => ?_
      refine List.eq_nil_iff_forall_not_mem.mpr fun s' hs' => hnone o ho ?_
      have htwo := two_le_count_signatureNodes hroot hn hends ho hs'
      have hmem := List.count_pos_iff.mp (Nat.zero_lt_two.trans_le htwo)
      rw [heq] at hmem
      rwa [← List.eq_of_mem_replicate hmem]
    have hone : ((ofTree root int32Names).resolve n).signatureNodes.count s = 1 := by
      have hle := List.nodup_iff_count_le_one.mp hnodup s
      have hpos : ((ofTree root int32Names).resolve n).signatureNodes.count s ≠ 0 := by
        intro hzero
        rw [hzero] at heq
        exact hne heq
      omega
    rw [hone] at heq
    exact congrArg (List.map (ofTree root int32Names).callSignature) heq

end Signatures

/-- **How often a call signature counts**, for any node of a parsed file.  One that an
interface declares counts once at most, however many ways lead to the interface.  All
of them are told apart when none stands in an object type that two bases stand for,
and in a hierarchy that ends within the steps only then.  So where the hierarchy holds
a single call signature, the type can be called in a single way unless two bases lead
to it: then it counts twice at least. -/
theorem nodup_signatureNodes_iff {path source : String} {file : SourceFile}
    (h : SourceFile.parse path source = .ok file) (int32Names : List String) {n : Node}
    (hn : n ∈ file.root.preorder) :
    let scope := ofTree file.root int32Names
    let signatures := (scope.resolve n).signatureNodes
    (∀ v, ∀ body ∈ scope.memberLists v, ∀ s ∈ body.callSignatures, signatures.count s ≤ 1) ∧
    ((∀ o, scope.NamedTwice (.expression n) o → o.callSignatures = []) → signatures.Nodup) ∧
    (scope.EndsWithin (maxDepth + 1) (.expression n) →
      (signatures.Nodup ↔ ∀ o, scope.NamedTwice (.expression n) o → o.callSignatures = []) ∧
      ∀ s, (∀ s', scope.InHierarchy (.expression n) s' ↔ s' = s) →
        (scope.model.callSignatures (scope.resolve n) = [scope.callSignature s] ↔
          ∀ o, scope.NamedTwice (.expression n) o → s ∉ o.callSignatures) ∧
        ∀ o, scope.NamedTwice (.expression n) o → s ∈ o.callSignatures →
          2 ≤ (scope.model.callSignatures (scope.resolve n)).length) := by
  intro scope signatures
  have hroot := SourceFile.distinct_root h
  refine ⟨fun v body hbody s hs => ?_, nodup_signatureNodes hroot hn, fun hends => ⟨?_, ?_⟩⟩
  · exact count_signatureNodes_of_interface_le_one hroot hn hbody hs
  · exact hends.nodup_iff hroot hn
  · intro s hsingle
    exact ⟨hends.callSignatures_eq_singleton_iff hroot hn hsingle,
      fun o ho hs => hends.two_le_length hroot hn ho hs⟩

instance decidableEndsWithin (scope : Scope) :
    (k : Nat) → (p : Place) → Decidable (scope.EndsWithin k p)
  | 0, _ => isFalse (by rintro ⟨⟩)
  | k + 1, p =>
    have := decidableEndsWithin scope k
    decidable_of_iff (p.isUnion = false ∧ ∀ q ∈ scope.nexts p, scope.EndsWithin k q)
      ⟨fun h => .mk h.1 h.2, fun ⟨single, all⟩ => ⟨single, all⟩⟩

/-- A text where both bases of `P` lead to the object type that `T` stands for. -/
def twoWaysText : String :=
  "type T = \x7b (): void \x7d\ninterface A extends T \x7b\x7d\n" ++
    "interface B extends T \x7b\x7d\ninterface P extends A, B \x7b\x7d\n"

/-- The file with this text. -/
def twoWays : SourceFile :=
  (SourceFile.parse "Native.ts" twoWaysText).toOption.getD default

/-- The declaration of `P`. -/
def twoWaysOwner : Node := twoWays.root.children.getD 3 default

/-- The object type that `T` stands for. -/
def twoWaysObject : Node := ((twoWays.root.children.getD 0 default).child? .value).getD default

/-- Its call signature. -/
def twoWaysSignature : Node := twoWaysObject.children.getD 0 default

/-- There is a single call signature below `P`, but two bases lead to it, and it is
counted twice. -/
theorem signatureNodes_twoWays :
    let scope := ofTree twoWays.root []
    SourceFile.parse "Native.ts" twoWaysText = .ok twoWays ∧
    twoWaysOwner ∈ twoWays.root.preorder ∧
    scope.EndsWithin (maxDepth + 1) (.expression twoWaysOwner) ∧
    (∀ s, scope.InHierarchy (.expression twoWaysOwner) s ↔ s = twoWaysSignature) ∧
    ¬ (scope.resolve twoWaysOwner).signatureNodes.Nodup ∧
    2 ≤ (scope.model.callSignatures (scope.resolve twoWaysOwner)).length := by
  intro scope
  obtain ⟨hsome, hn, hends, hP, hA, hB, hobjects, hobjects', hs, hsignatures⟩ :
      (SourceFile.parse "Native.ts" twoWaysText).toOption.isSome = true ∧
      twoWaysOwner ∈ twoWays.root.preorder ∧
      scope.EndsWithin (maxDepth + 1) (.expression twoWaysOwner) ∧
      .interface "P" ∈ scope.nexts (.expression twoWaysOwner) ∧
      .interface "A" ∈ scope.nexts (.interface "P") ∧
      .interface "B" ∈ scope.nexts (.interface "P") ∧
      twoWaysObject ∈ scope.baseObjects "A" ∧ twoWaysObject ∈ scope.baseObjects "B" ∧
      twoWaysSignature ∈ twoWaysObject.callSignatures ∧
      (scope.resolve twoWaysOwner).signatureNodes = [twoWaysSignature, twoWaysSignature] := by
    decide +kernel
  have hfile : SourceFile.parse "Native.ts" twoWaysText = .ok twoWays := by
    cases h : SourceFile.parse "Native.ts" twoWaysText with
    | error e =>
        rw [h] at hsome
        cases hsome
    | ok file =>
        rw [twoWays, h]
        rfl
  have hbelow : scope.Below (.expression twoWaysOwner) (.interface "A") := .head hP (.single hA)
  have htwice : scope.NamedTwice (.expression twoWaysOwner) twoWaysObject :=
    .inr ⟨"A", "B", by decide, hbelow, .head hP (.single hB), hobjects, hobjects'⟩
  have hsingle : ∀ s, scope.InHierarchy (.expression twoWaysOwner) s ↔ s = twoWaysSignature := by
    obtain ⟨q, hq, hown⟩ := exists_place_of_mem_contributed (List.mem_append_right _ hobjects)
    have hin : scope.InHierarchy (.expression twoWaysOwner) twoWaysSignature :=
      ⟨q, hbelow.trans hq, List.mem_flatMap.mpr ⟨twoWaysObject, hown, hs⟩⟩
    intro s
    rw [← hends.mem_signatureNodes_iff hin, hsignatures]
    simp
  obtain ⟨-, -, h⟩ := nodup_signatureNodes_iff hfile [] hn
  obtain ⟨hnodup, hmany⟩ := h hends
  refine ⟨hfile, hn, hends, hsingle, fun h => ?_, (hmany _ hsingle).2 twoWaysObject htwice hs⟩
  exact List.ne_nil_of_mem hs (hnodup.mp h twoWaysObject htwice)

end Scope

end CommandSchema
