import CommandSchema.Proofs.Contract.Agreement
import CommandSchema.Proofs.Contract.Strictness

/-!
# CommandSchema.Proofs.Contract.Widening

Requests to a type model that knows the categories of more types.

Of two models that agree on everything else, let the second one give a type the
category that the first one gives it, and perhaps give categories to more types
(`TypeModel.Widens`).  The categories matter last, for the parameters behind the
ref.  So a step of the extraction comes to the same under the second model, or
the first one refuses a parameter (`command_widens`), and a request that does not
end at such a parameter ends in the same way under the second model
(`extract_eq_ok_of_widens`, `RejectsAt.widens`).
-/

namespace CommandSchema

variable {N N' T T' : Type}

/-! ## Models with more categories -/

/-- The violation is that a parameter is of no category. -/
def Violation.IsUnsupported (v : Violation) : Prop :=
  ∃ name text, v = .unsupportedParameter name text

/-- The second of two models that agree on everything else gives categories to
the types to which the first one gives them, and perhaps to more. -/
structure TypeModel.Widens (R : N → N' → Prop) (S : T → T' → Prop) (texts : ReportTexts)
    (policy : RefPolicy) (model : TypeModel N T) (model' : TypeModel N' T') : Prop
    extends TypeModel.AgreeOnShapes R S texts policy model model' where
  hasKind : ∀ t t' kind, S t t' → Contract.HasKind model t kind → Contract.HasKind model' t' kind

namespace Contract

/-! ## One command -/

/-- The outcomes agree, or the first side refuses a parameter. -/
def AlikeOrRefused (texts : ReportTexts) {α α' : Type} (A : α → α' → Prop) (x : Except Violation α)
    (x' : Except Violation α') : Prop :=
  AlikeOutcomes (Violation.Agree texts) A x x' ∨ ∃ v, x = .error v ∧ v.IsUnsupported

namespace AlikeOrRefused

variable {texts : ReportTexts} {α α' β β' : Type} {A : α → α' → Prop} {B : β → β' → Prop}

/-- A parameter that is refused in a step is refused in all that begins with
it. -/
theorem bind {x : Except Violation α} {x' : Except Violation α'} (h : AlikeOrRefused texts A x x')
    {f : α → Except Violation β} {f' : α' → Except Violation β'}
    (hf : ∀ a a', A a a' → AlikeOrRefused texts B (f a) (f' a')) :
    AlikeOrRefused texts B (x >>= f) (x' >>= f') := by
  rcases h with (h | h) | ⟨v, rfl, hv⟩
  · exact hf _ _ h
  · exact .inl (.error h)
  · exact .inr ⟨v, rfl, hv⟩

/-- A parameter that is refused in a list is refused for the whole list. -/
theorem mapM {R : α → α' → Prop} {xs : List α} {xs' : List α'} (h : List.Forall₂ R xs xs')
    {f : α → Except Violation β} {f' : α' → Except Violation β'}
    (hf : ∀ x x', R x x' → AlikeOrRefused texts B (f x) (f' x')) :
    AlikeOrRefused texts (List.Forall₂ B) (xs.mapM f) (xs'.mapM f') := by
  induction h with
  | nil => exact .inl (.ok .nil)
  | @cons x x' xs xs' hx _ ih =>
      rw [List.mapM_cons, List.mapM_cons]
      exact (hf x x' hx).bind fun b b' hb => ih.bind fun bs bs' hbs => .inl (.ok (.cons hb hbs))

end AlikeOrRefused

section Models

variable {R : N → N' → Prop} {S : T → T' → Prop} {texts : ReportTexts} {policy : RefPolicy}
  {model : TypeModel N T} {model' : TypeModel N' T'}
  (h : TypeModel.Widens R S texts policy model model')

include h

/-- Alike parameters have the same record, or the first one is refused. -/
theorem mapParameter_widens {p : Parameter N} {p' : Parameter N'} (hp : ParameterAlike R p p') :
    AlikeOrRefused texts (· = ·) (mapParameter model p) (mapParameter model' p') := by
  obtain ⟨name, type?⟩ := p
  obtain ⟨name', type'?⟩ := p'
  obtain ⟨hname, htype⟩ := hp
  cases hname
  cases htype with
  | none => exact .inr ⟨_, rfl, _, _, rfl⟩
  | @some n n' hn =>
      rw [mapParameter, mapParameter]
      cases hkind : classify model (model.resolve n) with
      | none =>
          simp only [hkind]
          exact .inr ⟨_, rfl, _, _, rfl⟩
      | some kind =>
          have hnarrow := (classify_eq_some_iff model).mp hkind
          have hwide := h.hasKind _ _ kind (h.resolve _ _ hn) hnarrow
          simp only [hkind, (classify_eq_some_iff model').mpr hwide]
          exact .inl (.ok rfl)

section Owners

variable {owner : N} {owner' : N'}
  (hdeclared : ∀ name, Option.Rel (List.Forall₂ (DeclarationAgree R S texts model model'))
    (model.declarations? (model.resolve owner) name)
    (model'.declarations? (model'.resolve owner') name))

include hdeclared

/-- One command on two owners whose declarations agree. -/
theorem command_widens (name : String) :
    AlikeOrRefused texts (· = ·) (command model policy (model.resolve owner) name)
      (command model' policy (model'.resolve owner') name) := by
  have hresolve := resolve_agree (hdeclared name)
  refine AlikeOrRefused.bind (.inl hresolve) fun signature signature' hsignature => ?_
  have hvalidate := validate_agree h.toAgreeOnShapes hsignature
  refine AlikeOrRefused.bind (.inl hvalidate) fun ps ps' hps => ?_
  have hparameters := AlikeOrRefused.mapM hps fun p p' hp => mapParameter_widens h hp
  refine hparameters.bind fun params params' hparams => ?_
  rw [List.forall₂_eq_eq_eq] at hparams
  rw [hparams, hsignature.optional]
  exact .inl (.ok rfl)

/-- A name of a request comes to the same under the second model, or the first
one refuses a parameter. -/
theorem extractOne_widens (name : String) :
    AlikeOutcomes (Rejection.Agree texts (model.exprText owner) (model'.exprText owner')) (· = ·)
        (extractOne model policy owner name) (extractOne model' policy owner' name) ∨
      ∃ e, extractOne model policy owner name = .error e ∧ e.violation.IsUnsupported := by
  rw [extractOne, extractOne]
  rcases command_widens h hdeclared name with hcommand | ⟨v, hrefused, hv⟩
  · exact .inl (hcommand.mapError fun v v' hv => ⟨rfl, rfl, rfl, hv⟩)
  · exact .inr ⟨⟨name, model.exprText owner, v⟩, by rw [hrefused]; rfl, hv⟩

/-! ## Requests -/

/-- A name that is extracted is extracted as well under the second model. -/
theorem extractOne_eq_ok_of_widens {name : String} {c : Command}
    (hc : extractOne model policy owner name = .ok c) :
    extractOne model' policy owner' name = .ok c := by
  rcases extractOne_widens h hdeclared name with hagree | ⟨e, he, -⟩
  · rw [hc] at hagree
    generalize extractOne model' policy owner' name = outcome at hagree ⊢
    cases hagree with
    | ok hsame => rw [hsame]
  · rw [hc] at he
    cases he

theorem extract_eq_ok_of_widens {names : List String} {out : List Command}
    (hout : extract model policy owner names = .ok out) :
    extract model' policy owner' names = .ok out := by
  rw [extract_eq_mapM, mapM_eq_ok_iff] at hout ⊢
  exact hout.imp fun name c hc => extractOne_eq_ok_of_widens h hdeclared hc

/-- A request that ends at a place, and not at a parameter, ends there under the
second model by breaking the same rule. -/
theorem RejectsAt.widens {names : List String} {i : Nat} {e : Rejection}
    (hrejects : RejectsAt model policy owner names i e) (hother : ¬ e.violation.IsUnsupported) :
    ∃ e', RejectsAt model' policy owner' names i e' ∧
      Rejection.Agree texts (model.exprText owner) (model'.exprText owner') e e' := by
  have hi : i < names.length := hrejects.bound
  have hhere : extractOne model policy owner names[i] = .error e := hrejects.here
  have hbefore : ∀ j (hj : j < i), ∃ c,
      extractOne model' policy owner' (names.get ⟨j, Nat.lt_trans hj hi⟩) = .ok c := by
    intro j hj
    obtain ⟨c, hc⟩ := hrejects.before j hj
    exact ⟨c, extractOne_eq_ok_of_widens h hdeclared hc⟩
  rcases extractOne_widens h hdeclared names[i] with hagree | ⟨e', he', hunsupported⟩
  · rw [hhere] at hagree
    generalize hwide : extractOne model' policy owner' names[i] = outcome at hagree
    cases hagree with
    | @error _ e' hrejection => exact ⟨e', ⟨hi, hbefore, hwide⟩, hrejection⟩
  · rw [hhere] at he'
    cases he'
    exact absurd hunsupported hother

end Owners

end Models

end Contract

end CommandSchema
