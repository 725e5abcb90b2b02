import Mathlib.Data.List.Forall2

/-!
# CommandSchema.Proofs.Traversal

Reading a list by a step that may fail, or by one that has a state.

`List.mapM` over `Except` either runs its step on every element, in order, or
stops at the first element on which the step fails:

* `mapM_eq_ok_iff` — success is success at every place, result by result;
* `mapM_eq_error_iff` — failure is the failure of one element behind a run of
  successes, whatever comes after it; `mapM_eq_error_iff_getElem` gives its
  place.

Over `StateM` it hands the state on from element to element
(`run_mapM_cons`).  What the steps need of the states that they start in is
said by `Along`.

Related steps on related elements have related outcomes, in either case
(`AlikeOutcomes.mapM`, `AlikeRuns.mapM`).
-/

namespace CommandSchema

variable {α β ε σ : Type}

/-! ## Steps that may fail -/

theorem mapM_cons_of_ok {f : α → Except ε β} {x : α} {y : β} (hx : f x = .ok y) (xs : List α) :
    (x :: xs).mapM f = (xs.mapM f).map (y :: ·) := by
  rw [List.mapM_cons, hx]
  cases xs.mapM f <;> rfl

theorem mapM_cons_of_error {f : α → Except ε β} {x : α} {e : ε} (hx : f x = .error e)
    (xs : List α) : (x :: xs).mapM f = .error e := by
  rw [List.mapM_cons, hx]
  rfl

/-- A traversal succeeds exactly when its step does at every place. -/
theorem mapM_eq_ok_iff {f : α → Except ε β} {xs : List α} {ys : List β} :
    xs.mapM f = .ok ys ↔ List.Forall₂ (fun x y => f x = .ok y) xs ys := by
  induction xs generalizing ys with
  | nil =>
      rw [List.mapM_nil, List.forall₂_nil_left_iff]
      exact ⟨fun h => (Except.ok.inj h).symm, fun h => by rw [h]; rfl⟩
  | cons x xs ih =>
      rw [List.forall₂_cons_left_iff]
      cases hx : f x with
      | error e => simp [mapM_cons_of_error hx]
      | ok y =>
          rw [mapM_cons_of_ok hx]
          cases hxs : xs.mapM f with
          | error e =>
              constructor
              · intro h
                cases h
              · rintro ⟨y', ys', -, hrest, -⟩
                rw [ih.mpr hrest] at hxs
                cases hxs
          | ok zs =>
              constructor
              · intro h
                exact ⟨y, zs, rfl, ih.mp hxs, (Except.ok.inj h).symm⟩
              · rintro ⟨y', ys', hy, hrest, rfl⟩
                rw [ih.mpr hrest] at hxs
                rw [← Except.ok.inj hxs, Except.ok.inj hy]
                rfl

/-- A traversal fails exactly when its step fails on some element behind
elements on which it succeeds.  What comes after plays no part. -/
theorem mapM_eq_error_iff {f : α → Except ε β} {xs : List α} {e : ε} :
    xs.mapM f = .error e ↔ ∃ before x after, xs = before ++ x :: after ∧
      (∀ b ∈ before, ∃ y, f b = .ok y) ∧ f x = .error e := by
  induction xs with
  | nil =>
      constructor
      · intro h
        cases h
      · rintro ⟨before, x, after, h, -⟩
        simp at h
  | cons x xs ih =>
      cases hx : f x with
      | error e' =>
          rw [mapM_cons_of_error hx]
          constructor
          · intro h
            exact ⟨[], x, xs, rfl, by simp, hx.trans (by rw [Except.error.inj h])⟩
          · rintro ⟨before, z, after, h, hbefore, hz⟩
            rcases List.cons_eq_append_iff.mp h with ⟨rfl, htail⟩ | ⟨tail, rfl, -⟩
            · obtain ⟨rfl, -⟩ := List.cons.inj htail
              rw [hx] at hz
              rw [Except.error.inj hz]
            · obtain ⟨y, hy⟩ := hbefore x (by simp)
              rw [hx] at hy
              cases hy
      | ok y =>
          rw [mapM_cons_of_ok hx]
          have hmap : (xs.mapM f).map (y :: ·) = .error e ↔ xs.mapM f = .error e := by
            cases xs.mapM f <;> simp [Except.map]
          rw [hmap, ih]
          constructor
          · rintro ⟨before, z, after, rfl, hbefore, hz⟩
            exact ⟨x :: before, z, after, rfl, by simpa [hx] using hbefore, hz⟩
          · rintro ⟨before, z, after, h, hbefore, hz⟩
            rcases List.cons_eq_append_iff.mp h with ⟨rfl, htail⟩ | ⟨tail, rfl, rfl⟩
            · obtain ⟨rfl, -⟩ := List.cons.inj htail
              rw [hx] at hz
              cases hz
            · exact ⟨tail, z, after, rfl, fun b hb => hbefore b (by simp [hb]), hz⟩

/-- The element on which a traversal fails, by its place in the list. -/
theorem mapM_eq_error_iff_getElem {f : α → Except ε β} {xs : List α} {e : ε} :
    xs.mapM f = .error e ↔ ∃ i, ∃ hi : i < xs.length,
      (∀ j (hj : j < i), ∃ y, f xs[j] = .ok y) ∧ f xs[i] = .error e := by
  rw [mapM_eq_error_iff]
  constructor
  · rintro ⟨before, x, after, rfl, hbefore, hx⟩
    refine ⟨before.length, by simp, ?_, by simpa using hx⟩
    intro j hj
    rw [List.getElem_append_left hj]
    exact hbefore _ (List.getElem_mem hj)
  · rintro ⟨i, hi, hbefore, hx⟩
    refine ⟨xs.take i, xs[i], xs.drop (i + 1), by simp, ?_, hx⟩
    intro b hb
    obtain ⟨j, hj, rfl⟩ := List.getElem_of_mem hb
    have hji : j < i := by
      rw [List.length_take] at hj
      omega
    rw [List.getElem_take]
    exact hbefore j hji

/-- A traversal of the elements that satisfy a condition, where the condition can
be read off the results. -/
theorem mapM_filter_eq_ok {f : α → Except ε β} {p : α → Bool} {q : β → Bool} {xs : List α}
    {ys : List β} (h : xs.mapM f = .ok ys) (hpq : ∀ x y, f x = .ok y → q y = p x) :
    (xs.filter p).mapM f = .ok (ys.filter q) := by
  rw [mapM_eq_ok_iff] at h ⊢
  induction h with
  | nil => exact .nil
  | @cons x y xs ys hxy _ ih =>
      rw [List.filter_cons, List.filter_cons, hpq x y hxy]
      split
      · exact .cons hxy ih
      · exact ih

/-- Steps that wrap their result in a list, run one after the other, give the
results of the plain steps. -/
theorem mapM_singleton_flatten (f : α → Except ε β) (xs : List α) :
    (xs.mapM fun x => (f x).map ([·])).map List.flatten = xs.mapM f := by
  induction xs with
  | nil => rfl
  | cons x xs ih =>
      cases hx : f x with
      | error e =>
          rw [mapM_cons_of_error hx, mapM_cons_of_error (by rw [hx]; rfl)]
          rfl
      | ok y =>
          rw [mapM_cons_of_ok hx, mapM_cons_of_ok (by rw [hx]; rfl), ← ih]
          cases xs.mapM fun x => (f x).map ([·]) <;> rfl

/-- Whatever stands behind the element on which a traversal fails can be
replaced. -/
theorem mapM_take_append_eq_error {f : α → Except ε β} {xs : List α} {e : ε} {i : Nat}
    (hi : i < xs.length) (hbefore : ∀ j (hj : j < i), ∃ y, f xs[j] = .ok y)
    (hx : f xs[i] = .error e) (rest : List α) :
    (xs.take (i + 1) ++ rest).mapM f = .error e := by
  have hlength : i < (xs.take (i + 1) ++ rest).length := by
    rw [List.length_append, List.length_take]
    omega
  have hsame : ∀ j (hj : j ≤ i), (xs.take (i + 1) ++ rest)[j] = xs[j] := by
    intro j hj
    rw [List.getElem_append_left (by rw [List.length_take]; omega), List.getElem_take]
  rw [mapM_eq_error_iff_getElem]
  refine ⟨i, hlength, ?_, by rw [hsame i (Nat.le_refl i)]; exact hx⟩
  intro j hj
  rw [hsame j (Nat.le_of_lt hj)]
  exact hbefore j hj

/-! ## The first element without a property -/

/-- Either all elements of a list have a property, or there is a leftmost one
that does not. -/
theorem forall_or_leftmost {p : α → Prop} (xs : List α) :
    (∀ x ∈ xs, p x) ∨
      ∃ before x after, xs = before ++ x :: after ∧ (∀ y ∈ before, p y) ∧ ¬ p x := by
  induction xs with
  | nil => exact .inl (by simp)
  | cons x xs ih =>
      by_cases hx : p x
      · rcases ih with hxs | ⟨before, y, after, rfl, hbefore, hy⟩
        · exact .inl (by simpa [hx] using hxs)
        · exact .inr ⟨x :: before, y, after, rfl, by simpa [hx] using hbefore, hy⟩
      · exact .inr ⟨[], x, xs, rfl, by simp, hx⟩

/-! ## Lists related place by place -/

theorem exists_right_of_forall₂ {R : α → β → Prop} {xs : List α} {ys : List β}
    (h : List.Forall₂ R xs ys) {x : α} (hx : x ∈ xs) : ∃ y ∈ ys, R x y := by
  obtain ⟨i, hi, rfl⟩ := List.getElem_of_mem hx
  have hi' : i < ys.length := h.length_eq ▸ hi
  exact ⟨ys[i], List.getElem_mem hi', h.get hi hi'⟩

theorem exists_left_of_forall₂ {R : α → β → Prop} {xs : List α} {ys : List β}
    (h : List.Forall₂ R xs ys) {y : β} (hy : y ∈ ys) : ∃ x ∈ xs, R x y := by
  obtain ⟨x, hx, hxy⟩ := exists_right_of_forall₂ h.flip hy
  exact ⟨x, hx, hxy⟩

/-- What holds of the pairs of elements of two lists makes them related in
another way. -/
theorem forall₂_imp_of_mem {R S : α → β → Prop} {xs : List α} {ys : List β}
    (h : List.Forall₂ R xs ys) (hRS : ∀ x ∈ xs, ∀ y ∈ ys, R x y → S x y) :
    List.Forall₂ S xs ys := by
  induction h with
  | nil => exact .nil
  | cons hxy _ ih =>
      exact .cons (hRS _ (by simp) _ (by simp) hxy)
        (ih fun x hx y hy => hRS x (by simp [hx]) y (by simp [hy]))

theorem rel_self {R : α → α → Prop} (hR : ∀ a, R a a) (x : Option α) : Option.Rel R x x := by
  cases x with
  | none => exact .none
  | some a => exact .some (hR a)

/-- What holds of the elements of two options makes them related in another
way. -/
theorem rel_imp_of_mem {R S : α → β → Prop} {x? : Option α} {y? : Option β}
    (h : Option.Rel R x? y?) (hRS : ∀ x ∈ x?, ∀ y ∈ y?, R x y → S x y) : Option.Rel S x? y? := by
  cases h with
  | none => exact .none
  | some hxy => exact .some (hRS _ rfl _ rfl hxy)

theorem rel_map {α' β' : Type} {R : α → α' → Prop} {S : β → β' → Prop} {f : α → β} {f' : α' → β'}
    {x? : Option α} {x'? : Option α'} (h : Option.Rel R x? x'?)
    (hf : ∀ x x', R x x' → S (f x) (f' x')) : Option.Rel S (x?.map f) (x'?.map f') := by
  cases h with
  | none => exact .none
  | some hx => exact .some (hf _ _ hx)

theorem rel_or {R : α → β → Prop} {x? y? : Option α} {x'? y'? : Option β}
    (hx : Option.Rel R x? x'?) (hy : Option.Rel R y? y'?) :
    Option.Rel R (x?.or y?) (x'?.or y'?) := by
  cases hx with
  | none => exact hy
  | some hx => exact .some hx

theorem map_eq_of_forall₂ {γ : Type} {R : α → β → Prop} {f : α → γ} {g : β → γ} {xs : List α}
    {ys : List β} (h : List.Forall₂ R xs ys) (hfg : ∀ x y, R x y → g y = f x) :
    ys.map g = xs.map f := by
  induction h with
  | nil => rfl
  | cons hxy _ ih => rw [List.map_cons, List.map_cons, hfg _ _ hxy, ih]

/-- Related elements of which the same is made are related in both ways. -/
theorem forall₂_and_of_map_eq {γ : Type} {R : α → β → Prop} {f : α → γ} {g : β → γ}
    {xs : List α} {ys : List β} (h : List.Forall₂ R xs ys) (hfg : ys.map g = xs.map f) :
    List.Forall₂ (fun x y => R x y ∧ g y = f x) xs ys := by
  induction h with
  | nil => exact .nil
  | cons hxy _ ih =>
      obtain ⟨hhead, htail⟩ := List.cons.inj hfg
      exact .cons ⟨hxy, hhead⟩ (ih htail)

theorem rel_head? {R : α → β → Prop} {xs : List α} {ys : List β} (h : List.Forall₂ R xs ys) :
    Option.Rel R xs.head? ys.head? := by
  cases h with
  | nil => exact .none
  | cons hxy _ => exact .some hxy

/-- A search among related elements finds related ones. -/
theorem rel_find? {R : α → β → Prop} {p : α → Bool} {q : β → Bool} {xs : List α} {ys : List β}
    (h : List.Forall₂ R xs ys) (hpq : ∀ x y, R x y → p x = q y) :
    Option.Rel R (xs.find? p) (ys.find? q) := by
  induction h with
  | nil => exact .none
  | @cons x y xs ys hxy _ ih =>
      rw [List.find?_cons, List.find?_cons, hpq x y hxy]
      cases q y with
      | true => exact .some hxy
      | false => exact ih

/-- Elements that nothing is made of can be left out. -/
theorem flatMap_filter_of_eq_nil {f : α → List β} {p : α → Bool} {xs : List α}
    (h : ∀ x ∈ xs, p x = false → f x = []) : (xs.filter p).flatMap f = xs.flatMap f := by
  induction xs with
  | nil => rfl
  | cons x xs ih =>
      have hrest := ih fun y hy => h y (by simp [hy])
      cases hp : p x with
      | true => rw [List.filter_cons_of_pos hp, List.flatMap_cons, List.flatMap_cons, hrest]
      | false =>
          rw [List.filter_cons_of_neg (by simp [hp]), List.flatMap_cons, h x (by simp) hp, hrest]
          rfl

theorem mapM_eq_of_forall₂ {γ : Type} {m : Type → Type} [Monad m] [LawfulMonad m] {f : α → m γ}
    {g : β → m γ} {xs : List α} {ys : List β} (h : List.Forall₂ (fun x y => g y = f x) xs ys) :
    ys.mapM g = xs.mapM f := by
  induction h with
  | nil => rfl
  | cons hxy _ ih => rw [List.mapM_cons, List.mapM_cons, hxy, ih]

/-! ## Steps with a state -/

theorem run_mapM_nil (f : α → StateM σ β) (s : σ) : ([].mapM f).run s = ([], s) := rfl

theorem run_mapM_cons (f : α → StateM σ β) (x : α) (xs : List α) (s : σ) :
    ((x :: xs).mapM f).run s =
      (((f x).run s).1 :: ((xs.mapM f).run ((f x).run s).2).1,
        ((xs.mapM f).run ((f x).run s).2).2) := by
  rw [List.mapM_cons]
  rfl

theorem run_mapM_singleton (f : α → StateM σ β) (x : α) (s : σ) :
    ([x].mapM f).run s = ([((f x).run s).1], ((f x).run s).2) := by
  rw [run_mapM_cons, run_mapM_nil]

/-- What is made of the results of its steps does not change the states that a
traversal goes through. -/
theorem run_mapM_map_snd (f : α → StateM σ β) (g : β → γ) (xs : List α) (s : σ) :
    ((xs.mapM fun x => g <$> f x).run s).2 = ((xs.mapM f).run s).2 := by
  induction xs generalizing s with
  | nil => rfl
  | cons x xs ih =>
      rw [run_mapM_cons, run_mapM_cons]
      exact ih _

/-- What every step preserves, a traversal preserves. -/
theorem run_mapM_preserves {f : α → StateM σ β} {xs : List α} {I : σ → Prop}
    (hstep : ∀ x ∈ xs, ∀ s, I s → I ((f x).run s).2) {s : σ} (hs : I s) :
    I ((xs.mapM f).run s).2 := by
  induction xs generalizing s with
  | nil => exact hs
  | cons x xs ih =>
      rw [run_mapM_cons]
      exact ih (fun y hy => hstep y (by simp [hy])) (hstep x (by simp) s hs)

/-- What the step of an element establishes and no step destroys holds behind a
traversal. -/
theorem run_mapM_establishes {f : α → StateM σ β} {xs : List α} {x : α} (hx : x ∈ xs)
    {P : σ → Prop} (hest : ∀ s, P ((f x).run s).2) (hkeep : ∀ y ∈ xs, ∀ s, P s → P ((f y).run s).2)
    (s : σ) : P ((xs.mapM f).run s).2 := by
  induction xs generalizing s with
  | nil => cases hx
  | cons y ys ih =>
      have hkeep' : ∀ z ∈ ys, ∀ s, P s → P ((f z).run s).2 := fun z hz => hkeep z (by simp [hz])
      rw [run_mapM_cons]
      rcases List.mem_cons.mp hx with rfl | hx
      · exact run_mapM_preserves hkeep' (hest s)
      · exact ih hx hkeep' _

/-- Where every step puts something in front of the state and returns what it
is made of, a traversal returns what all of it is made of, in the order in
which it came. -/
theorem run_mapM_prepends {τ : Type} {f : α → StateM (List τ) (List β)} {g : τ → β} {xs : List α}
    (hstep : ∀ x ∈ xs, ∀ s, ∃ new, (f x).run s = (new.reverse.map g, new ++ s)) (s : List τ) :
    ∃ new, ((xs.mapM f).run s).1.flatten = new.reverse.map g ∧
      ((xs.mapM f).run s).2 = new ++ s := by
  induction xs generalizing s with
  | nil => exact ⟨[], rfl, rfl⟩
  | cons x xs ih =>
      obtain ⟨new, hnew⟩ := hstep x (by simp) s
      obtain ⟨more, hlevels, hstate⟩ := ih (fun y hy => hstep y (by simp [hy])) (new ++ s)
      refine ⟨more ++ new, ?_, ?_⟩
      · rw [run_mapM_cons, hnew, List.flatten_cons, hlevels]
        simp
      · rw [run_mapM_cons, hnew, hstate, List.append_assoc]

/-- Every result of a traversal is that of its step, from some state. -/
theorem forall₂_run_mapM (f : α → StateM σ β) (xs : List α) (s : σ) :
    List.Forall₂ (fun x y => ∃ s', ((f x).run s').1 = y) xs ((xs.mapM f).run s).1 := by
  induction xs generalizing s with
  | nil => exact .nil
  | cons x xs ih =>
      rw [run_mapM_cons]
      exact .cons ⟨s, rfl⟩ (ih _)

/-- Related elements whose steps have related results in all states have related
results in traversals. -/
theorem forall₂_run_mapM_of_forall₂ {α' β' : Type} {R : α → α' → Prop} {B : β → β' → Prop}
    {xs : List α} {xs' : List α'} (h : List.Forall₂ R xs xs') {f : α → StateM σ β}
    {f' : α' → StateM σ β'}
    (hf : ∀ x x', R x x' → ∀ s s', B ((f x).run s).1 ((f' x').run s').1) (s s' : σ) :
    List.Forall₂ B ((xs.mapM f).run s).1 ((xs'.mapM f').run s').1 := by
  induction h generalizing s s' with
  | nil => exact .nil
  | cons hx _ ih =>
      rw [run_mapM_cons, run_mapM_cons]
      exact .cons (hf _ _ hx s s') (ih _ _)

/-! ## The states that a traversal goes through -/

/-- In a traversal every step starts in a state that suits its element. -/
def Along (f : α → StateM σ β) (P : α → σ → Prop) : List α → σ → Prop
  | [], _ => True
  | x :: xs, s => P x s ∧ Along f P xs ((f x).run s).2

namespace Along

variable {f : α → StateM σ β} {P : α → σ → Prop} {xs : List α} {s : σ}

instance decidable [∀ x s, Decidable (P x s)] :
    (xs : List α) → (s : σ) → Decidable (Along f P xs s)
  | [], _ => .isTrue trivial
  | x :: xs, s => @instDecidableAnd _ _ _ (decidable xs ((f x).run s).2)

/-- A traversal of other elements that goes through the same states. -/
theorem of_map {β' γ : Type} {f' : γ → StateM σ β'} {g : γ → α}
    (hstate : ∀ x s, ((f' x).run s).2 = ((f (g x)).run s).2) {xs : List γ}
    (h : Along f P (xs.map g) s) : Along f' (fun x => P (g x)) xs s := by
  induction xs generalizing s with
  | nil => trivial
  | cons x xs ih =>
      refine ⟨h.1, ?_⟩
      rw [hstate]
      exact ih h.2

/-- The first steps of a traversal start in the same states. -/
theorem take (h : Along f P xs s) (i : Nat) : Along f P (xs.take i) s := by
  induction xs generalizing s i with
  | nil => rwa [List.take_nil]
  | cons x xs ih =>
      cases i with
      | zero => trivial
      | succ i => exact ⟨h.1, ih h.2 i⟩

/-- The step of an element starts where the traversal of those before it ends. -/
theorem get (h : Along f P xs s) {i : Nat} {x : α} (hx : xs[i]? = some x) :
    P x (((xs.take i).mapM f).run s).2 ∧ ((xs.mapM f).run s).1[i]? =
      some ((f x).run (((xs.take i).mapM f).run s).2).1 := by
  induction xs generalizing s i with
  | nil => cases hx
  | cons y xs ih =>
      cases i with
      | zero =>
          obtain rfl : y = x := Option.some.inj hx
          rw [run_mapM_cons]
          exact ⟨h.1, rfl⟩
      | succ i =>
          rw [List.take_succ_cons, run_mapM_cons, run_mapM_cons, List.getElem?_cons_succ]
          exact ih h.2 hx

/-- Where every step keeps an invariant and establishes something for its element
that the other steps keep, this holds for all elements in the end. -/
theorem establishes (h : Along f P xs s) {I : σ → Prop} {Q : α → σ → Prop}
    (hstep : ∀ x ∈ xs, ∀ s, P x s → I s → I ((f x).run s).2 ∧ Q x ((f x).run s).2)
    (hkeep : ∀ x ∈ xs, ∀ y ∈ xs, ∀ s, Q x s → Q x ((f y).run s).2) (hs : I s) :
    I ((xs.mapM f).run s).2 ∧ ∀ x ∈ xs, Q x ((xs.mapM f).run s).2 := by
  induction xs generalizing s with
  | nil => exact ⟨hs, by simp⟩
  | cons x xs ih =>
      rw [run_mapM_cons]
      obtain ⟨hI, hx⟩ := hstep x (by simp) s h.1 hs
      obtain ⟨hI, hxs⟩ := ih h.2 (fun y hy => hstep y (by simp [hy]))
        (fun y hy z hz => hkeep y (by simp [hy]) z (by simp [hz])) hI
      refine ⟨hI, fun y hy => ?_⟩
      rcases List.mem_cons.mp hy with rfl | hy
      · exact run_mapM_preserves (I := Q y) (fun z hz => hkeep y (by simp) z (by simp [hz])) hx
      · exact hxs y hy

/-- Where the steps of two traversals are related, so are their results. -/
theorem rel {β' : Type} (h : Along f P xs s) {f' : α → StateM σ β'} {R : β → β' → Prop}
    {S : σ → σ → Prop}
    (hstep : ∀ x ∈ xs, ∀ s s', P x s → S s s' →
      R ((f x).run s).1 ((f' x).run s').1 ∧ S ((f x).run s).2 ((f' x).run s').2)
    {s' : σ} (hs : S s s') :
    List.Forall₂ R ((xs.mapM f).run s).1 ((xs.mapM f').run s').1 ∧
      S ((xs.mapM f).run s).2 ((xs.mapM f').run s').2 := by
  induction xs generalizing s s' with
  | nil => exact ⟨.nil, hs⟩
  | cons x xs ih =>
      obtain ⟨hresult, hstate⟩ := hstep x (by simp) s s' h.1 hs
      obtain ⟨hresults, hend⟩ := ih h.2 (fun y hy => hstep y (by simp [hy])) hstate
      rw [run_mapM_cons, run_mapM_cons]
      exact ⟨.cons hresult hresults, hend⟩

end Along

/-! ## Related steps -/

section Related

variable {α' β' ε' : Type}

/-- Two outcomes are both failures or both results, and related as such. -/
inductive AlikeOutcomes (E : ε → ε' → Prop) (A : α → α' → Prop) : Except ε α → Except ε' α' → Prop
  | ok {a : α} {a' : α'} (h : A a a') : AlikeOutcomes E A (.ok a) (.ok a')
  | error {e : ε} {e' : ε'} (h : E e e') : AlikeOutcomes E A (.error e) (.error e')

namespace AlikeOutcomes

variable {E : ε → ε' → Prop} {A : α → α' → Prop} {B : β → β' → Prop}

/-- Related results are handed on to related steps. -/
theorem bind {x : Except ε α} {x' : Except ε' α'} (h : AlikeOutcomes E A x x')
    {f : α → Except ε β} {f' : α' → Except ε' β'}
    (hf : ∀ a a', A a a' → AlikeOutcomes E B (f a) (f' a')) :
    AlikeOutcomes E B (x >>= f) (x' >>= f') := by
  cases h with
  | ok h => exact hf _ _ h
  | error h => exact .error h

theorem imp {E' : ε → ε' → Prop} {x : Except ε α} {x' : Except ε' α'}
    (h : AlikeOutcomes E A x x') (hE : ∀ e e', E e e' → E' e e') {A' : α → α' → Prop}
    (hA : ∀ a a', A a a' → A' a a') : AlikeOutcomes E' A' x x' := by
  cases h with
  | ok h => exact .ok (hA _ _ h)
  | error h => exact .error (hE _ _ h)

/-- Related failures are those of the two outcomes. -/
theorem with_errors {x : Except ε α} {x' : Except ε' α'} (h : AlikeOutcomes E A x x') :
    AlikeOutcomes (fun e e' => E e e' ∧ x = .error e ∧ x' = .error e') A x x' := by
  cases h with
  | ok h => exact .ok h
  | error h => exact .error ⟨h, rfl, rfl⟩

/-- Outcomes with the same results and the same failures are the same. -/
protected theorem eq {x x' : Except ε α} (h : AlikeOutcomes (· = ·) (· = ·) x x') : x = x' := by
  cases h with
  | ok h => rw [h]
  | error h => rw [h]

/-- Related failures are mapped to related ones. -/
theorem mapError {δ δ' : Type} {D : δ → δ' → Prop} {x : Except ε α} {x' : Except ε' α'}
    (h : AlikeOutcomes E A x x') {f : ε → δ} {f' : ε' → δ'}
    (hf : ∀ e e', E e e' → D (f e) (f' e')) :
    AlikeOutcomes D A (x.mapError f) (x'.mapError f') := by
  cases h with
  | ok h => exact .ok h
  | error h => exact .error (hf _ _ h)

/-- Related elements have related outcomes. -/
theorem mapM {R : α → α' → Prop} {xs : List α} {xs' : List α'} (h : List.Forall₂ R xs xs')
    {f : α → Except ε β} {f' : α' → Except ε' β'}
    (hf : ∀ x x', R x x' → AlikeOutcomes E B (f x) (f' x')) :
    AlikeOutcomes E (List.Forall₂ B) (xs.mapM f) (xs'.mapM f') := by
  induction h with
  | nil => exact .ok .nil
  | @cons x x' xs xs' hx _ ih =>
      rw [List.mapM_cons, List.mapM_cons]
      exact (hf x x' hx).bind fun b b' hb => ih.bind fun bs bs' hbs => .ok (.cons hb hbs)

end AlikeOutcomes

/-- Two computations with a state have related results and end in the same
state, whichever state they start in. -/
def AlikeRuns (A : α → α' → Prop) (x : StateM σ α) (x' : StateM σ α') : Prop :=
  ∀ s, A (x.run s).1 (x'.run s).1 ∧ (x.run s).2 = (x'.run s).2

namespace AlikeRuns

variable {A : α → α' → Prop} {B : β → β' → Prop}

theorem pure {a : α} {a' : α'} (h : A a a') :
    AlikeRuns A (Pure.pure a : StateM σ α) (Pure.pure a') :=
  fun _ => ⟨h, rfl⟩

/-- Related results are handed on to related steps. -/
theorem bind {x : StateM σ α} {x' : StateM σ α'} (h : AlikeRuns A x x') {f : α → StateM σ β}
    {f' : α' → StateM σ β'} (hf : ∀ a a', A a a' → AlikeRuns B (f a) (f' a')) :
    AlikeRuns B (x >>= f) (x' >>= f') := by
  intro s
  have hstate : (x.run s).2 = (x'.run s).2 := (h s).2
  have hrest := hf (x.run s).1 (x'.run s).1 (h s).1 (x.run s).2
  have hrun : ((x >>= f).run s) = (f (x.run s).1).run (x.run s).2 := rfl
  have hrun' : ((x' >>= f').run s) = (f' (x'.run s).1).run (x'.run s).2 := rfl
  rw [hrun, hrun', ← hstate]
  exact hrest

theorem map {x : StateM σ α} {x' : StateM σ α'} (h : AlikeRuns A x x') {f : α → β} {f' : α' → β'}
    (hf : ∀ a a', A a a' → B (f a) (f' a')) : AlikeRuns B (f <$> x) (f' <$> x') :=
  fun s => ⟨hf _ _ (h s).1, (h s).2⟩

/-- Related elements have related results. -/
theorem mapM {R : α → α' → Prop} {xs : List α} {xs' : List α'} (h : List.Forall₂ R xs xs')
    {f : α → StateM σ β} {f' : α' → StateM σ β'} (hf : ∀ x x', R x x' → AlikeRuns B (f x) (f' x')) :
    AlikeRuns (List.Forall₂ B) (xs.mapM f) (xs'.mapM f') := by
  induction h with
  | nil => exact fun _ => ⟨.nil, rfl⟩
  | @cons x x' xs xs' hx _ ih =>
      rw [List.mapM_cons, List.mapM_cons]
      exact (hf x x' hx).bind fun b b' hb => ih.bind fun bs bs' hbs => pure (.cons hb hbs)

end AlikeRuns

/-- Elements without results that leave the state as it is can be left out of a
traversal. -/
theorem run_mapM_filter {f : α → StateM σ (List β)} {p : α → Bool} {xs : List α}
    (h : ∀ x ∈ xs, p x = false → ∀ s, (f x).run s = ([], s)) (s : σ) :
    ((xs.mapM f).run s).1.flatten = (((xs.filter p).mapM f).run s).1.flatten ∧
      ((xs.mapM f).run s).2 = (((xs.filter p).mapM f).run s).2 := by
  induction xs generalizing s with
  | nil => exact ⟨rfl, rfl⟩
  | cons x xs ih =>
      have hrest := ih fun y hy => h y (by simp [hy])
      cases hp : p x with
      | true =>
          rw [List.filter_cons_of_pos hp, run_mapM_cons, run_mapM_cons]
          simp [hrest]
      | false =>
          have hx := h x (by simp) hp s
          rw [List.filter_cons_of_neg (by simp [hp]), run_mapM_cons, hx]
          simpa using hrest s

end Related

end CommandSchema
