import CommandSchema.Proofs.Syntax.Passage
import CommandSchema.Proofs.Syntax.StringLiteral

/-!
# CommandSchema.Proofs.Syntax.Lawful

Readers that keep the laws of the grammar.

A reader is lawful (`Reader.Lawful`) when it adds no node to those collected
that breaks a law of the grammar (`Node.Lawful`), and hands over none, and when
what it does with nodes is a passage: it uses each node that it is given once.  It
may be a reader of statements: these are the ones that may collect and hand over
type declarations.  Lawfulness is a class of its own, and there is an instance for
every operation that rules are made of, so that the law of a rule is found by
following its shape: instances for `>>=`, conditions and loops take a rule apart,
and the rules it calls have theirs.

Only where nodes are made is there something to prove.  A node that holds
statements may be read by a reader of statements.  A node of any other kind than
that of unions is lawful when its children are, and a union is when its reader has
collected a named child (`Reader.Collects`).  A node that nothing was collected for
is a leaf, and its reader has to have moved over some of the text
(`Reader.Moves`).  Whether a leaf does depends on the text in front of it, which a
reader may count on after it has looked (`Reader.LawfulAt`).
-/

namespace CommandSchema.Syntax

/-- The kinds of nodes that can stand anywhere; a union needs a named child,
the optional marker is punctuation, and type declarations are for readers of
statements. -/
@[reducible]
def Kind.isPlain (k : Kind) (statements : Bool := false) : Bool :=
  match k with
  | .unionType | .questionMark => false
  | .interfaceDeclaration | .typeAliasDeclaration => statements
  | _ => true

/-- Statements are the only part of the grammar that may be a type declaration. -/
@[reducible]
def Goal.readsStatements : Goal → Bool
  | .statement => true
  | _ => false

/-- A condition that instances can ask for. -/
class Holds (b : Bool) : Prop where
  holds : b = true

instance : Holds true := ⟨rfl⟩

theorem Kind.isPlain_iff {k : Kind} {statements : Bool} : k.isPlain statements = true ↔
    k ≠ .unionType ∧ k ≠ .questionMark ∧ (k.declaresType = true → statements = true) := by
  cases k <;> simp

/-- The tree of a node obeys the laws of the grammar. -/
structure Node.Lawful (n : Node) : Prop where
  noEmptyUnion : n.NoEmptyUnion
  declaresInStatements : n.DeclaresInStatements

/-- A node may stand among statements, or is no type declaration. -/
def Node.FitsAmong (n : Node) (statements : Bool) : Prop :=
  n.kind.declaresType = true → statements = true

theorem Node.FitsAmong.mono {n : Node} {a b : Bool} (h : n.FitsAmong a)
    (hab : a = true → b = true) : n.FitsAmong b :=
  fun hdeclares => hab (h hdeclares)

/-- A node obeys the laws when its children do, and it holds type declarations only
if it holds statements, and is no empty union. -/
theorem Node.lawful_iff {n : Node} : n.Lawful ↔
    (n.kind = .unionType → n.namedChildren ≠ []) ∧
      ∀ c ∈ n.children, c.Lawful ∧ c.FitsAmong n.kind.holdsStatements := by
  constructor
  · rintro ⟨hunions, hdeclarations⟩
    obtain ⟨hunion, hchildren⟩ := noEmptyUnion_iff.mp hunions
    obtain ⟨hown, hbelow⟩ := declaresInStatements_iff.mp hdeclarations
    exact ⟨hunion, fun c hc => ⟨⟨hchildren c hc, hbelow c hc⟩, hown c hc⟩⟩
  · rintro ⟨hunion, hchildren⟩
    exact ⟨noEmptyUnion_iff.mpr ⟨hunion, fun c hc => (hchildren c hc).1.noEmptyUnion⟩,
      declaresInStatements_iff.mpr ⟨fun c hc => (hchildren c hc).2,
        fun c hc => (hchildren c hc).1.declaresInStatements⟩⟩

/-- No node that has been collected breaks a law, and type declarations have been
collected only among statements. -/
def ReaderState.Lawful (s : ReaderState) (statements : Bool) : Prop :=
  ∀ n ∈ s.collected, n.Lawful ∧ n.FitsAmong statements

namespace Reader

variable {α β : Type} {d : Bool}

/-! ## What the law says -/

/-- The law on the results of readers, and of readers of statements, and the nodes that a
result holds. -/
class HasLaw (α : Type) where
  law : Bool → α → Prop
  mono : ∀ {a} d, law false a → law d a
  nodes : α → List Node

open HasLaw (nodes)

/-- A result obeys its law. -/
class Obeys [HasLaw α] (a : α) (statements : Bool := false) : Prop where
  law : HasLaw.law statements a

/-- There is no law on results that hold no node. -/
instance (priority := low) noLaw : HasLaw α := ⟨fun _ _ => True, fun _ => id, fun _ => []⟩

/-- The node that a reader hands over is named and obeys the laws. -/
instance : HasLaw Node where
  law d n := n.Lawful ∧ n.isNamed = true ∧ n.FitsAmong d
  mono _ h := ⟨h.1, h.2.1, h.2.2.mono (by simp)⟩
  nodes n := [n]

instance optionLaw [HasLaw α] : HasLaw (Option α) where
  law d o := ∀ a, o = some a → HasLaw.law d a
  mono d h a ha := HasLaw.mono d (h a ha)
  nodes o := o.elim [] nodes

/-- What a reader hands over, a reader of statements may hand over. -/
theorem Obeys.mono [HasLaw α] {a : α} (h : Obeys a) : Obeys a d := ⟨HasLaw.mono d h.law⟩

instance (a : Unit) : Obeys a d := ⟨trivial⟩

instance (a : Bool) : Obeys a d := ⟨trivial⟩

instance (step : ForInStep Unit) : Obeys step d := ⟨trivial⟩

instance [HasLaw α] : Obeys (none : Option α) d := ⟨by simp [HasLaw.law]⟩

instance [HasLaw α] (a : α) [h : Obeys a d] : Obeys (some a) d :=
  ⟨by simpa [HasLaw.law] using h.law⟩

instance [HasLaw α] (a : {a : α // Obeys a d}) : Obeys a.val d := a.property

instance [HasLaw α] (c : Prop) [Decidable c] (a b : α) [Obeys a d] [Obeys b d] :
    Obeys (if c then a else b) d := by
  split <;> infer_instance

/-- A result of a loop body that obeys its law. -/
theorem Obeys.of_some [HasLaw α] {a : α} (h : Obeys (some a) d) : Obeys a d := ⟨h.law a rfl⟩

/-! ## Nodes in hand -/

section Nodes

variable {ns : List Node}

instance (a : α) : Among (@nodes α noLaw a) ns := inferInstanceAs (Among [] ns)

instance (n : Node) : Among [n] (nodes n) := inferInstanceAs (Among [n] [n])

instance (n : Node) [h : Among [n] ns] : Among (nodes n) ns := h

instance [HasLaw α] : Among (nodes (none : Option α)) ns := inferInstanceAs (Among [] ns)

instance [HasLaw α] (a : α) [h : Among (nodes a) ns] : Among (nodes (some a)) ns := h

instance (o : Option α) : Among (@nodes (Option α) (@optionLaw α noLaw) o) ns := by
  cases o <;> exact inferInstanceAs (Among [] ns)

/-- A loop goes on with the result of its step, or with what it had when there is none. -/
def stepNodes [HasLaw α] (a : α) : Option α → List Node
  | none => nodes a
  | some b => nodes b

instance [HasLaw α] (a : α) [h : Among (nodes a) ns] : Among (stepNodes a none) ns := h

instance [HasLaw α] (a b : α) [h : Among (nodes b) ns] : Among (stepNodes a (some b)) ns := h

end Nodes

/-! ## Lawful readers -/

/-- A reader keeps the laws, and its result obeys them.  A reader that is not one
of statements keeps them wherever it reads.  The reader may use the given nodes, each of them
once, and holds those that it made in its result. -/
class Lawful [HasLaw α] (r : Reader α) (statements : Bool := false) (used : List Node := [])
    (made : α → List Node := nodes) : Prop where
  keeps : ∀ {ctx s a t top}, r ctx s = .ok (a, t) → (statements = true → top = true) →
    s.Lawful top → t.Lawful top ∧ Obeys a statements ∧ Passage used s (made a) t

/-- A reader may be used among statements. -/
instance (priority := low) [HasLaw α] (r : Reader α) [hr : Lawful r] : Lawful r d where
  keeps h _ hs := by
    obtain ⟨ht, ha, hpassage⟩ := hr.keeps h (by simp) hs
    exact ⟨ht, ha.mono, hpassage⟩

/-- A reader may leave nodes alone. -/
instance (priority := low) [HasLaw α] (r : Reader α) [hr : Lawful r d] (used : List Node) :
    Lawful r d used where
  keeps h htop hs := by
    obtain ⟨ht, ha, hpassage⟩ := hr.keeps h htop hs
    exact ⟨ht, ha, hpassage.given⟩

/-! ## Sequences and choices -/

section Control

variable [HasLaw α] [HasLaw β] {used : List Node} {mid made : α → List Node}
  {made' : β → List Node}

instance (a : α) [Obeys a d] [Among (made a) used] : Lawful (pure a : Reader α) d used made where
  keeps h _ hs := by
    cases h
    exact ⟨hs, inferInstance, .refl _⟩

omit [HasLaw α] [HasLaw β] in
/-- A sequence runs its first reader and goes on from there. -/
theorem bind_eq_ok {r : Reader α} {f : α → Reader β} {ctx : Context} {s u : ReaderState} {b : β}
    (h : (r >>= f) ctx s = .ok (b, u)) :
    ∃ a t, r ctx s = .ok (a, t) ∧ f a ctx t = .ok (b, u) := by
  change (r ctx s >>= fun p => f p.1 ctx p.2) = .ok (b, u) at h
  cases hr : r ctx s with
  | error e =>
      rw [hr] at h
      cases h
  | ok p =>
      rw [hr] at h
      exact ⟨p.1, p.2, rfl, h⟩

/-- A sequence is lawful when its first reader is, and what follows is for
every result that obeys its law.  The first reader may leave nodes to what follows. -/
theorem Lawful.bind {r : Reader α} {f : α → Reader β} (hr : Lawful r d)
    (hf : ∀ a, Obeys a d → Lawful (f a) d (nodes a ++ used) made') :
    Lawful (r >>= f) d used made' where
  keeps h htop hs := by
    obtain ⟨a, t, ha, hb⟩ := bind_eq_ok h
    obtain ⟨ht, hobeys, hpassage⟩ := hr.keeps ha htop hs
    obtain ⟨hu, hobeys', hpassage'⟩ := (hf a hobeys).keeps hb htop ht
    exact ⟨hu, hobeys', hpassage.trans_append hpassage'⟩

/-- The first reader of a sequence may use the nodes itself. -/
theorem Lawful.bind_using {r : Reader α} {f : α → Reader β} (hr : Lawful r d used mid)
    (hf : ∀ a, Obeys a d → Lawful (f a) d (mid a) made') : Lawful (r >>= f) d used made' where
  keeps h htop hs := by
    obtain ⟨a, t, ha, hb⟩ := bind_eq_ok h
    obtain ⟨ht, hobeys, hpassage⟩ := hr.keeps ha htop hs
    obtain ⟨hu, hobeys', hpassage'⟩ := (hf a hobeys).keeps hb htop ht
    exact ⟨hu, hobeys', hpassage.trans hpassage'⟩

instance (r : Reader α) (f : α → Reader β) [Lawful r d]
    [hf : ∀ a : {a : α // Obeys a d}, Lawful (f a) d (nodes a.val ++ used) made'] :
    Lawful (r >>= f) d used made' :=
  .bind inferInstance fun a ha => hf ⟨a, ha⟩

instance (priority := low) (r : Reader α) (f : α → Reader β) [Lawful r d used]
    [hf : ∀ a : {a : α // Obeys a d}, Lawful (f a) d (nodes a.val) made'] :
    Lawful (r >>= f) d used made' :=
  .bind_using inferInstance fun a ha => hf ⟨a, ha⟩

instance (c : Prop) [Decidable c] (p q : Reader α) [Lawful p d used made]
    [Lawful q d used made] : Lawful (if c then p else q) d used made := by
  split <;> infer_instance

instance : Lawful (fail : Reader α) d used made where
  keeps h := by cases h

instance (b : Bool) : Lawful (guard b) d := by
  unfold guard
  infer_instance

instance (p q : Reader α) [Lawful p d used made] [Lawful q d used made] :
    Lawful (orElse p q) d used made where
  keeps {ctx s a t top} h htop hs := by
    unfold orElse at h
    split at h
    · next r hp =>
        cases h
        exact Lawful.keeps hp htop hs
    · split at h
      · next r hq =>
          cases h
          exact Lawful.keeps hq htop hs
      · cases h

instance (p : Reader Bool) [Lawful p d] : Lawful (peek p) d where
  keeps {ctx s a t top} h htop hs := by
    unfold peek at h
    split at h
    · next b u hp =>
        cases h
        exact ⟨hs, inferInstance, .refl _⟩
    · cases h

instance (p : Reader Unit) [Lawful p d used] : Lawful (optional p) d used := by
  unfold optional
  infer_instance

instance (p : Reader Unit) [Lawful p d] : Lawful (succeeds p) d := by
  unfold succeeds
  infer_instance

instance (f : Context → Context) (p : Reader α) [Lawful p d used made] :
    Lawful (within f p) d used made where
  keeps h htop hs := Lawful.keeps (r := p) h htop hs

instance (p : Reader α) [Lawful p d used made] : Lawful (bracketed p) d used made := by
  unfold bracketed
  infer_instance

instance (step : α → Reader (Option α))
    [hstep : ∀ a : {a : α // Obeys a d}, Lawful (step a) d (nodes a.val) (stepNodes a.val)]
    (a : α) [Obeys a d] [Among (nodes a) used] : Lawful (loop step a) d used where
  keeps {ctx s b t top} h htop hs := by
    have hgo (n : Nat) : ∀ a, Obeys a d → Lawful (loop.go step n a) d (nodes a) := by
      induction n with
      | zero =>
          intro a ha
          unfold loop.go
          infer_instance
      | succ n ih =>
          intro a ha
          unfold loop.go
          refine .bind_using (hstep ⟨a, ha⟩) fun o ho => ?_
          cases o with
          | none => exact inferInstanceAs (Lawful (pure a) d (nodes a))
          | some b => exact ih b ho.of_some
    obtain ⟨ht, hobeys, hpassage⟩ := (hgo _ a inferInstance).keeps h htop hs
    exact ⟨ht, hobeys, hpassage.given⟩

theorem Lawful.repeatWhile {step : Reader Bool} (h : Lawful step d) :
    Lawful (repeatWhile step) d used := by
  unfold Reader.repeatWhile
  infer_instance

instance (step : Reader Bool) [Lawful step d] : Lawful (repeatWhile step) d :=
  .repeatWhile inferInstance

instance (xs : List α) (f : α → Unit → Reader (ForInStep Unit)) [∀ x u, Lawful (f x u) d] :
    Lawful (forIn xs () f) d := by
  induction xs with
  | nil =>
      rw [List.forIn_nil]
      infer_instance
  | cons x xs ih =>
      rw [List.forIn_cons]
      refine .bind inferInstance fun step _ => ?_
      cases step with
      | done u => infer_instance
      | yield u => infer_instance

instance (xs : List α) (f : α → Reader Bool) [∀ x, Lawful (f x) d] : Lawful (xs.anyM f) d := by
  induction xs with
  | nil =>
      unfold List.anyM
      infer_instance
  | cons x xs ih =>
      unfold List.anyM
      refine .bind inferInstance fun found _ => ?_
      cases found with
      | true => infer_instance
      | false => infer_instance

end Control

/-! ## Looking and moving -/

/-- A reader that only looks keeps the laws. -/
theorem lawful_of_look {f : Context → ReaderState → α} :
    @Lawful α noLaw (fun ctx s => .ok (f ctx s, s)) false [] (@nodes α noLaw) :=
  letI : HasLaw α := noLaw
  { keeps := fun hr _ hs => by
      cases hr
      exact ⟨hs, ⟨trivial⟩, .refl _⟩ }

instance : Lawful cursor := lawful_of_look

instance : Lawful rest := lawful_of_look

instance : Lawful (read : Reader Context) := lawful_of_look

instance (token : String) : Lawful (at? token) := lawful_of_look

instance : Lawful nextChar? where
  keeps hr _ hs := by
    cases hr
    exact ⟨hs, ⟨fun _ _ => trivial⟩, .refl _⟩

instance : Lawful nextWord := lawful_of_look

instance (n : Nat) : Lawful (advance n) where
  keeps {ctx s a t top} h _ hs := by
    cases h
    exact ⟨hs, inferInstance, .advance n s⟩

/-! ## Readers in front of a text -/

/-- A reader is lawful in front of a text. -/
class LawfulAt [HasLaw α] (text : List Char) (r : Reader α) (statements : Bool := false)
    (used : List Node := []) (made : α → List Node := nodes) : Prop where
  keeps : ∀ {ctx s a t top}, r ctx s = .ok (a, t) → s.cursor.rest = text →
    (statements = true → top = true) → s.Lawful top →
    t.Lawful top ∧ Obeys a statements ∧ Passage used s (made a) t

section Text

variable [HasLaw α] {text : List Char} {used : List Node} {made : α → List Node}

/-- A reader that looks at the text is lawful when it is in front of every text. -/
theorem Lawful.rest_bind {f : List Char → Reader α}
    (h : ∀ text, LawfulAt text (f text) d used made) : Lawful (rest >>= f) d used made where
  keeps {ctx s a t top} hr htop hs := by
    obtain ⟨text, u, hrest, hf⟩ := bind_eq_ok hr
    cases hrest
    exact (h _).keeps hf rfl htop hs

theorem Lawful.lawfulAt {r : Reader α} (h : Lawful r d used made) :
    LawfulAt text r d used made where
  keeps hr _ htop hs := h.keeps hr htop hs

instance (priority := low) (r : Reader α) [Lawful r d used made] : LawfulAt text r d used made :=
  Lawful.lawfulAt inferInstance

instance (c : Prop) [Decidable c] (p q : Reader α) [LawfulAt text p d used made]
    [LawfulAt text q d used made] : LawfulAt text (if c then p else q) d used made := by
  split <;> infer_instance

/-- What follows a condition may count on it. -/
theorem LawfulAt.guard_bind {b : Bool} {f : Unit → Reader α}
    (h : b = true → LawfulAt text (f ()) d used made) :
    LawfulAt text (guard b >>= f) d used made where
  keeps {ctx s a t top} hr htext htop hs := by
    obtain ⟨_, u, hguard, hf⟩ := bind_eq_ok hr
    unfold guard at hguard
    split at hguard
    · next hb =>
        cases hguard
        exact (h hb).keeps hf htext htop hs
    · cases hguard

instance (b : Bool) (f : Unit → Reader α) [LawfulAt text (f ()) d used made] :
    LawfulAt text (guard b >>= f) d used made :=
  .guard_bind fun _ => inferInstance

/-- What follows a move is in front of what is left. -/
instance (n : Nat) (f : Unit → Reader α) [h : LawfulAt (text.drop n) (f ()) d used made] :
    LawfulAt text (advance n >>= f) d used made where
  keeps {ctx s a t top} hr htext htop hs := by
    obtain ⟨_, u, hadvance, hf⟩ := bind_eq_ok hr
    cases hadvance
    obtain ⟨ht, hobeys, hpassage⟩ := h.keeps hf (by simp [htext]) htop hs
    exact ⟨ht, hobeys, (Passage.advance n s).trans_append hpassage⟩

/-- A sequence that is in front of a text when it begins. -/
instance (priority := low) [HasLaw β] (r : Reader β) (f : β → Reader α) [hr : LawfulAt text r d]
    [hf : ∀ b : {b : β // Obeys b d}, Lawful (f b) d (nodes b.val ++ used) made] :
    LawfulAt text (r >>= f) d used made where
  keeps {ctx s a t top} h htext htop hs := by
    obtain ⟨b, u, hb, ha⟩ := bind_eq_ok h
    obtain ⟨hu, hobeys, hpassage⟩ := hr.keeps hb htext htop hs
    obtain ⟨ht, hobeys', hpassage'⟩ := (hf ⟨b, hobeys⟩).keeps ha htop hu
    exact ⟨ht, hobeys', hpassage.trans_append hpassage'⟩

instance (f : Context → Reader α) [h : ∀ ctx, LawfulAt text (f ctx) d used made] :
    LawfulAt text (read >>= f) d used made where
  keeps {ctx s a t top} hr htext htop hs := by
    obtain ⟨_, u, hread, hf⟩ := bind_eq_ok hr
    cases hread
    exact (h ctx).keeps hf htext htop hs

end Text

/-! ## Nodes -/

/-- The law on a node with the given children. -/
theorem obeys_mk {kind : Kind} {role : Option Role} {text : String} {start : Position}
    {children : List Node} (hkind : kind ≠ .questionMark)
    (hunion : kind = .unionType → ∃ m ∈ children, m.isNamed = true)
    (hdeclares : kind.declaresType = true → d = true)
    (h : ∀ m ∈ children, m.Lawful ∧ m.FitsAmong kind.holdsStatements) :
    Obeys (⟨kind, role, text, start, children⟩ : Node) d := by
  refine ⟨Node.lawful_iff.mpr ⟨fun heq => ?_, h⟩, by simpa [Node.isNamed] using hkind,
    hdeclares⟩
  obtain ⟨m, hm, hnamed⟩ := hunion heq
  exact List.ne_nil_of_mem (List.mem_filter.mpr ⟨hm, hnamed⟩)

instance (n : Node) (role : Role) [h : Obeys n d] : Obeys (n.withRole role) d :=
  obeys_mk (by simpa [Node.isNamed] using h.law.2.1)
    (fun hunion => by simpa [Node.namedChildren] using (Node.lawful_iff.mp h.law.1).1 hunion)
    h.law.2.2 (Node.lawful_iff.mp h.law.1).2

/-- A node may get another kind when it holds no statements. -/
theorem obeys_with_kind {n : Node} {kind : Kind} [Holds kind.isPlain] (h : Obeys n)
    (hholds : n.kind.holdsStatements = false) : Obeys ({ n with kind } : Node) := by
  obtain ⟨hunion, hmark, hdeclares⟩ := Kind.isPlain_iff.mp (Holds.holds (b := kind.isPlain))
  refine obeys_mk hmark (absurd · hunion) hdeclares fun m hm => ?_
  obtain ⟨hm, hfits⟩ := (Node.lawful_iff.mp h.law.1).2 m hm
  exact ⟨hm, hfits.mono (by simp [hholds])⟩

/-- A reader that collects a named child. -/
class Collects (p : Reader Unit) (statements : Bool := false) (used : List Node := []) : Prop
    extends Lawful p statements used where
  collects : ∀ {ctx s t top}, p ctx s = .ok ((), t) → (statements = true → top = true) →
    s.Lawful top → ∃ n ∈ t.collected, n.isNamed = true

instance [HasLaw α] (p : Reader α) (q : α → Reader Unit) (used : List Node)
    [hp : Lawful p d]
    [hq : ∀ a : {a : α // Obeys a d}, Collects (q a) d (nodes a.val ++ used)] :
    Collects (p >>= q) d used where
  keeps := Lawful.keeps
  collects h htop hs := by
    obtain ⟨a, t, hr, ha⟩ := bind_eq_ok h
    obtain ⟨ht, hobeys, -⟩ := hp.keeps hr htop hs
    exact (hq ⟨a, hobeys⟩).collects ha htop ht

/-- A reader that collects a child may leave nodes alone. -/
instance (priority := low) (p : Reader Unit) [hp : Collects p d] (used : List Node) :
    Collects p d used where
  keeps := Lawful.keeps
  collects := hp.collects

/-- A reader whose node is no empty one: it collects something, or moves on. -/
class Moves [HasLaw α] (r : Reader α) (statements : Bool := false) (used : List Node := [])
    (made : α → List Node := nodes) : Prop where
  lawful : Lawful r statements used made
  moves : ∀ {ctx s a t top}, r ctx s = .ok (a, t) → (statements = true → top = true) →
    s.Lawful top → s.Moved t

section Moves

variable [HasLaw α] [HasLaw β] {used : List Node} {made : α → List Node} {made' : β → List Node}

/-- A reader that moves may be used among statements. -/
instance (priority := low) (r : Reader α) [hr : Moves r] : Moves r d where
  lawful := have := hr.lawful; inferInstance
  moves h _ hs := hr.moves h (by simp) hs

/-- A reader that moves may leave nodes alone. -/
instance (priority := low) (r : Reader α) [hr : Moves r d] (used : List Node) :
    Moves r d used where
  lawful := have := hr.lawful; inferInstance
  moves h htop hs := hr.moves h htop hs

/-- The first reader of a sequence moves. -/
theorem Moves.bind {r : Reader α} {f : α → Reader β} (hr : Moves r d)
    (hf : ∀ a, Obeys a d → Lawful (f a) d (nodes a ++ used) made') :
    Moves (r >>= f) d used made' where
  lawful := hr.lawful.bind hf
  moves h htop hs := by
    obtain ⟨a, t, ha, hb⟩ := bind_eq_ok h
    obtain ⟨ht, hobeys, -⟩ := hr.lawful.keeps ha htop hs
    obtain ⟨-, -, hpassage⟩ := (hf a hobeys).keeps hb htop ht
    exact (hr.moves ha htop hs).passage hpassage

/-- What follows the first reader of a sequence moves. -/
theorem Moves.after {r : Reader α} {f : α → Reader β} (hr : Lawful r d)
    (hf : ∀ a, Obeys a d → Moves (f a) d (nodes a ++ used) made') :
    Moves (r >>= f) d used made' where
  lawful := hr.bind fun a ha => (hf a ha).lawful
  moves h htop hs := by
    obtain ⟨a, t, ha, hb⟩ := bind_eq_ok h
    obtain ⟨ht, hobeys, hpassage⟩ := hr.keeps ha htop hs
    exact ((hf a hobeys).moves hb htop ht).after hpassage

instance (r : Reader α) (f : α → Reader β) [Moves r d]
    [hf : ∀ a : {a : α // Obeys a d}, Lawful (f a) d (nodes a.val ++ used) made'] :
    Moves (r >>= f) d used made' :=
  .bind inferInstance fun a ha => hf ⟨a, ha⟩

instance (priority := low) (r : Reader α) (f : α → Reader β) [Lawful r d]
    [hf : ∀ a : {a : α // Obeys a d}, Moves (f a) d (nodes a.val ++ used) made'] :
    Moves (r >>= f) d used made' :=
  .after inferInstance fun a ha => hf ⟨a, ha⟩

instance (c : Prop) [Decidable c] (p q : Reader α) [Moves p d used made]
    [Moves q d used made] : Moves (if c then p else q) d used made := by
  split <;> infer_instance

instance (f : Context → Context) (p : Reader α) [hp : Moves p d used made] :
    Moves (within f p) d used made where
  lawful := have := hp.lawful; inferInstance
  moves {ctx s a t _} h htop hs :=
    hp.moves (show p (f ctx) s = .ok (a, t) from h) htop hs

instance (p : Reader α) [Moves p d used made] : Moves (bracketed p) d used made := by
  unfold bracketed
  infer_instance

end Moves

/-- The children that a node begins with obey the laws, and are no type
declarations. -/
class LawfulNodes (ns : List Node) : Prop where
  law : ∀ n ∈ ns, n.Lawful ∧ n.FitsAmong false

instance : LawfulNodes [] := ⟨by simp⟩

instance (n : Node) [h : Obeys n] : LawfulNodes [n] := ⟨by simpa using ⟨h.law.1, h.law.2.2⟩⟩

section Node

variable {start : Cursor} {kind : Kind} {first used : List Node} {p : Reader Unit}

/-- A node is what its reader has collected. -/
theorem nodeFrom_eq_ok {ctx : Context} {s t : ReaderState} {n : Node}
    (h : nodeFrom start kind first p ctx s = .ok (n, t)) :
    ∃ u, p ctx ⟨s.cursor, first.reverse⟩ = .ok ((), u) ∧ t = ⟨u.cursor, s.collected⟩ ∧
      n = ⟨kind, none, start.textTo u.cursor, start.position, u.collected.reverse⟩ := by
  unfold nodeFrom at h
  split at h
  · cases h
  · next u hp =>
      cases h
      exact ⟨u, hp, rfl, rfl⟩

/-- A node is lawful when it is no union, or its reader collects a named child.
Its reader may be one of statements when the node holds statements.  A node without children
starts where its reader did, and the reader has moved on. -/
theorem nodeFrom_keeps [hfirst : LawfulNodes first] [Among first used]
    [hp : Lawful p kind.holdsStatements] (hkind : kind ≠ .questionMark)
    (hunion : kind = .unionType → Collects p kind.holdsStatements)
    (hdeclares : kind.declaresType = true → d = true) {ctx : Context} {s t : ReaderState}
    {n : Node} {top : Bool} (h : nodeFrom start kind first p ctx s = .ok (n, t))
    (hleaf : ∀ {u}, p ctx ⟨s.cursor, first.reverse⟩ = .ok ((), u) →
      Passage [] ⟨s.cursor, first.reverse⟩ [] u → u.collected = [] →
      start = s.cursor ∧ s.cursor.position.key < u.cursor.position.key)
    (hs : s.Lawful top) :
    t.Lawful top ∧ Obeys n d ∧ Passage used s [n] t ∧ Among first [n] := by
  obtain ⟨u, hrun, rfl, rfl⟩ := nodeFrom_eq_ok h
  have hs' : ReaderState.Lawful ⟨s.cursor, first.reverse⟩ kind.holdsStatements := by
    intro m hm
    obtain ⟨hm, hfits⟩ := hfirst.law m (by simpa using hm)
    exact ⟨hm, hfits.mono (by simp)⟩
  obtain ⟨hu, -, hpassage⟩ := hp.keeps hrun id hs'
  refine ⟨hs, obeys_mk hkind (fun heq => ?_) hdeclares fun m hm => hu m (by simpa using hm),
    .node first hpassage rfl fun hempty => ?_, hpassage.among rfl⟩
  · obtain ⟨m, hm, hnamed⟩ := (hunion heq).collects hrun id hs'
    exact ⟨m, by simpa using hm, hnamed⟩
  · obtain ⟨rfl, hlt⟩ := hleaf hrun hpassage hempty
    exact ⟨rfl, hlt⟩

/-- What comes after a node that begins with a child may use the node, or instead the child. -/
theorem lawful_nodeFrom_bind [HasLaw α] {n : Node} {made : α → List Node} {f : Node → Reader α}
    [Obeys n] [Among [n] used] [Lawful p kind.holdsStatements] (hkind : kind ≠ .questionMark)
    (hunion : kind = .unionType → Collects p kind.holdsStatements)
    (hdeclares : kind.declaresType = true → d = true)
    (hf : ∀ m, Obeys m d → Among [n] [m] → Lawful (f m) d [m] made) :
    Lawful (nodeFrom start kind [n] p >>= f) d used made where
  keeps {ctx s a t top} h htop hs := by
    obtain ⟨m, u, hnode, hrest⟩ := bind_eq_ok h
    obtain ⟨hu, hobeys, hpassage, hamong⟩ :
        u.Lawful top ∧ Obeys m d ∧ Passage used s [m] u ∧ Among [n] [m] := by
      refine nodeFrom_keeps hkind hunion hdeclares hnode (fun {v} _ hpassage hempty => ?_) hs
      -- what the node begins with is still there
      have hkept := hpassage.length_le
      simp [hempty] at hkept
    obtain ⟨ht, hobeys', hpassage'⟩ := (hf m hobeys hamong).keeps hrest htop hu
    exact ⟨ht, hobeys', hpassage.trans hpassage'⟩

theorem lawful_nodeFrom {n : Node} [Obeys n] [Among [n] used] [Lawful p kind.holdsStatements]
    (hkind : kind ≠ .questionMark) (hunion : kind = .unionType → Collects p kind.holdsStatements)
    (hdeclares : kind.declaresType = true → d = true) :
    Lawful (nodeFrom start kind [n] p) d used := by
  rw [← bind_pure (nodeFrom start kind [n] p)]
  exact lawful_nodeFrom_bind hkind hunion hdeclares fun m _ _ => inferInstance

instance (start : Cursor) (kind : Kind) (n : Node) (p : Reader Unit)
    [Holds (kind.isPlain d)] [Obeys n] [Among [n] used] [Lawful p kind.holdsStatements] :
    Lawful (nodeFrom start kind [n] p) d used := by
  obtain ⟨hunion, hmark, hdeclares⟩ := Kind.isPlain_iff.mp (Holds.holds (b := kind.isPlain d))
  exact lawful_nodeFrom hmark (absurd · hunion) hdeclares

/-- A node that begins here. -/
theorem lawful_node (hp : Moves p kind.holdsStatements) (hkind : kind ≠ .questionMark)
    (hunion : kind = .unionType → Collects p kind.holdsStatements)
    (hdeclares : kind.declaresType = true → d = true) : Lawful (node kind p) d where
  keeps {ctx s n t top} h _ hs := by
    obtain ⟨start, u, hcursor, hnode⟩ := bind_eq_ok h
    cases hcursor
    have := hp.lawful
    obtain ⟨ht, hobeys, hpassage, -⟩ :
        t.Lawful top ∧ Obeys n d ∧ Passage [] s [n] t ∧ Among [] [n] := by
      refine nodeFrom_keeps hkind hunion hdeclares hnode (fun {v} hrun _ hempty => ⟨rfl, ?_⟩) hs
      have hmoved := hp.moves hrun id (by simp [ReaderState.Lawful])
      exact hmoved.resolve_left (by simp [hempty])
    exact ⟨ht, hobeys, hpassage⟩

/-- A tree whose root holds what a lawful reader collects. -/
theorem node_keeps [hp : Lawful p kind.holdsStatements] [Holds kind.isPlain] {ctx : Context}
    {c : Cursor} {n : Node} {t : ReaderState} (h : node kind p ctx ⟨c, []⟩ = .ok (n, t)) :
    n.Lawful ∧ n.Distinct := by
  obtain ⟨hunion, hmark, hdeclares⟩ := Kind.isPlain_iff.mp (Holds.holds (b := kind.isPlain))
  obtain ⟨start, s, hcursor, hnode⟩ := bind_eq_ok h
  cases hcursor
  obtain ⟨u, hrun, -, rfl⟩ := nodeFrom_eq_ok hnode
  obtain ⟨hu, -, hpassage⟩ := hp.keeps hrun id (by simp [ReaderState.Lawful])
  refine ⟨(obeys_mk hmark (absurd · hunion) hdeclares fun m hm => ?_).law.1,
    Node.distinct_of_leavesAt_le_one fun p => ?_⟩
  · exact hu m (by simpa using hm)
  · -- a root without children is the only leaf, and other leaves have been moved over
    have hle := hpassage.leaves p
    rw [leavesAt_singleton]
    simp only [leavesAt_append, leavesAt_reverse, List.reverse_nil, leavesAt_nil] at hle ⊢
    split_ifs at hle ⊢ <;> omega

theorem Lawful.node [Holds (kind.isPlain d)] (h : Moves p kind.holdsStatements) :
    Lawful (node kind p) d := by
  obtain ⟨hunion, hmark, hdeclares⟩ := Kind.isPlain_iff.mp (Holds.holds (b := kind.isPlain d))
  exact lawful_node h hmark (absurd · hunion) hdeclares

instance (kind : Kind) (p : Reader Unit) [Holds (kind.isPlain d)]
    [Moves p kind.holdsStatements] : Lawful (node kind p) d :=
  .node inferInstance

/-- Readers of nodes that begin at the same place read nodes that begin where they do. -/
theorem cursor_bind_orElse (k k' : Kind) (p q : Reader Unit) :
    (do let start ← cursor; orElse (nodeFrom start k [] p) (nodeFrom start k' [] q)) =
      orElse (Reader.node k p) (Reader.node k' q) :=
  rfl

/-- What comes after a node may count on its kind. -/
theorem Lawful.node_bind [HasLaw α] {made : α → List Node} {f : Node → Reader α}
    (hnode : Lawful (Reader.node kind p) d)
    (hf : ∀ n, Obeys n d → n.kind = kind → Lawful (f n) d (nodes n) made) :
    Lawful (Reader.node kind p >>= f) d [] made where
  keeps h htop hs := by
    obtain ⟨n, t, hn, hrest⟩ := bind_eq_ok h
    obtain ⟨ht, hobeys, hpassage⟩ := hnode.keeps hn htop hs
    have hkind : n.kind = kind := by
      obtain ⟨start, u, -, hn⟩ := bind_eq_ok hn
      obtain ⟨v, -, -, rfl⟩ := nodeFrom_eq_ok hn
      rfl
    obtain ⟨hu, hobeys', hpassage'⟩ := (hf n hobeys hkind).keeps hrest htop ht
    exact ⟨hu, hobeys', hpassage.trans hpassage'⟩

end Node

section Leaf

variable {kind : Kind} {text : List Char}

theorem leaf_eq (kind : Kind) (n : Nat) (ctx : Context) (s : ReaderState) : leaf kind n ctx s =
    .ok (⟨kind, none, s.cursor.textTo (s.cursor.advance n), s.cursor.position, []⟩,
      ⟨s.cursor.advance n, s.collected⟩) :=
  rfl

/-- A leaf over the next characters, if there are any. -/
theorem LawfulAt.leaf {n : Nat} [Holds (kind.isPlain d)] (hn : n ≠ 0) (htext : text ≠ []) :
    LawfulAt text (leaf kind n) d where
  keeps {ctx s m t top} h hrest htop hs := by
    obtain ⟨hunion, hmark, hdeclares⟩ := Kind.isPlain_iff.mp (Holds.holds (b := kind.isPlain d))
    rw [leaf_eq] at h
    cases h
    exact ⟨hs, obeys_mk hmark (absurd · hunion) hdeclares (by simp),
      .leaf hn (hrest ▸ htext) rfl rfl⟩

/-- A leaf of any kind but that of unions and type declarations can be collected,
the optional marker included. -/
theorem lawfulAt_collect_leaf {n : Nat} (hn : n ≠ 0) (htext : text ≠ []) (hkind : kind ≠ .unionType)
    (hdeclares : kind.declaresType = false) :
    LawfulAt text (do collect (← Reader.leaf kind n)) where
  keeps {ctx s a t top} h hrest _ hs := by
    obtain ⟨m, u, hleaf, hcollect⟩ := bind_eq_ok h
    rw [leaf_eq] at hleaf
    cases hleaf
    cases hcollect
    refine ⟨fun m hm => ?_, inferInstance, ?_⟩
    · rcases List.mem_cons.mp hm with rfl | hm
      · exact ⟨Node.lawful_iff.mpr ⟨(absurd · hkind), by simp⟩,
          by simp [Node.FitsAmong, hdeclares]⟩
      · exact hs m hm
    · have hleaf := Passage.leaf (s := s)
        (m := ⟨kind, none, s.cursor.textTo (s.cursor.advance n), s.cursor.position, []⟩)
        hn (hrest ▸ htext) rfl rfl
      exact hleaf.trans (.collect _ _)

end Leaf

end Reader

end CommandSchema.Syntax
