import CommandSchema.Proofs.Contract.Extraction

/-!
# CommandSchema.Proofs.Contract.Strictness

What a stricter check of the ref parameter changes.

The check of the ref is the only rule that looks at the policy.  So where one
policy accepts no more than another one (`RefPolicy.Narrower`), every step under
the narrower policy does what it does under the wider one, or refuses a ref
(`command_narrows`).  A request stops at the first name that is rejected, hence
under the narrower policy it ends in the same way or earlier, and then at a ref
(`extract_eq_ok_or_refuses`, `RejectsAt.narrows`).

The strict check is narrower than the plain one, and the more so the fewer
wrappers it knows (`strict_only_refuses_refs`).
-/

namespace CommandSchema

variable {N T : Type}

/-! ## Narrower policies -/

namespace RefPolicy

/-- A policy is narrower than another one when it accepts no ref that the other
one refuses. -/
def Narrower (narrow wide : RefPolicy) : Prop :=
  ∀ reference?, narrow.accepts reference? = true → wide.accepts reference? = true

/-- No policy is wider than one that accepts all references. -/
theorem narrower_reference (policy : RefPolicy) (wrappers : List String) :
    policy.Narrower ⟨.reference, wrappers⟩ := by
  intro reference? h
  cases reference? with
  | none => exact h
  | some reference => rfl

/-- A strict policy is narrower than one that knows more wrappers. -/
theorem narrower_of_subset {wrappers more : List String} (h : wrappers ⊆ more) :
    Narrower ⟨.stringLiteral, wrappers⟩ ⟨.stringLiteral, more⟩ := by
  intro reference? haccepts
  cases reference? with
  | none => exact haccepts
  | some reference =>
      simp only [accepts, isWrapped, Bool.and_eq_true, decide_eq_true_eq] at haccepts ⊢
      exact ⟨h haccepts.1, haccepts.2⟩

theorem accepts_of_no_wrappers {policy : RefPolicy} (hcheck : policy.check = .stringLiteral)
    (hwrappers : policy.wrappers = []) (reference? : Option Reference) :
    policy.accepts reference? = false := by
  cases reference? with
  | none => rfl
  | some reference => simp [accepts, hcheck, isWrapped, hwrappers]

end RefPolicy

namespace Contract

/-! ## One command under a narrower policy -/

/-- The first outcome is the second one, or the refusal of a ref. -/
def Narrows {α : Type} (narrow wide : Except Violation α) : Prop :=
  narrow = wide ∨ ∃ text, narrow = .error (.invalidRef text)

/-- The same outcome twice. -/
theorem Narrows.refl {α : Type} (x : Except Violation α) : Narrows x x := .inl rfl

/-- A ref that is refused in a step is refused in all that begins with it. -/
theorem Narrows.bind {α β : Type} {x y : Except Violation α} {f g : α → Except Violation β}
    (h : Narrows x y) (hf : ∀ a, Narrows (f a) (g a)) : Narrows (x >>= f) (y >>= g) := by
  rcases h with rfl | ⟨text, rfl⟩
  · cases x with
    | error v => exact .refl _
    | ok a => exact hf a
  · exact .inr ⟨text, rfl⟩

variable (model : TypeModel N T) {narrow wide : RefPolicy}

section Command

variable (h : narrow.Narrower wide)

include h

/-- The check of the ref narrows with the policy. -/
theorem checkRef_narrows (ref : Parameter N) :
    Narrows (checkRef model narrow ref) (checkRef model wide ref) := by
  rw [checkRef, checkRef]
  cases ref.type? with
  | none => exact .refl _
  | some type =>
      by_cases haccepts : narrow.accepts (model.reference? type) = true
      · simp only [haccepts, h _ haccepts]
        exact .refl _
      · simp only [haccepts]
        exact .inr ⟨_, rfl⟩

/-- Behind a void result the ref is all that the policy decides on. -/
theorem validate_narrows (signature : Signature N T) :
    Narrows (validate model narrow signature) (validate model wide signature) := by
  rw [validate, validate]
  cases signature.result? with
  | none => exact .refl _
  | some result =>
      simp only
      split
      · cases signature.parameters with
        | nil => exact .refl _
        | cons ref later => exact (checkRef_narrows model h ref).bind fun _ => .refl _
      · exact .refl _

theorem command_narrows (owner : T) (name : String) :
    Narrows (command model narrow owner name) (command model wide owner name) :=
  (Narrows.refl _).bind fun signature =>
    (validate_narrows model h signature).bind fun _ => .refl _

/-- A name of a request is extracted or rejected as under the wider policy, or
its ref is refused. -/
theorem extractOne_narrows (owner : N) (name : String) :
    extractOne model narrow owner name = extractOne model wide owner name ∨
      ∃ e text, extractOne model narrow owner name = .error e ∧ e.violation = .invalidRef text := by
  rcases command_narrows model h (model.resolve owner) name with heq | ⟨text, hrefused⟩
  · exact .inl (by rw [extractOne, extractOne, heq])
  · exact .inr ⟨⟨name, model.exprText owner, .invalidRef text⟩, text,
      by rw [extractOne, hrefused]; rfl, rfl⟩

end Command

/-! ## The place where a request ends -/

/-- A request ends at a place with a rejection: the names before the place are
extracted, and the name there is rejected. -/
structure RejectsAt (policy : RefPolicy) (owner : N) (names : List String) (i : Nat)
    (e : Rejection) : Prop where
  bound : i < names.length
  before : ∀ j (hj : j < i), ∃ c,
    extractOne model policy owner (names.get ⟨j, Nat.lt_trans hj bound⟩) = .ok c
  here : extractOne model policy owner names[i] = .error e

variable {model} {policy : RefPolicy} {owner : N} {names : List String}

/-- A request fails with a rejection exactly when it ends with it at some
place. -/
theorem extract_eq_error_iff_rejectsAt {e : Rejection} :
    extract model policy owner names = .error e ↔ ∃ i, RejectsAt model policy owner names i e := by
  rw [extract_eq_mapM, mapM_eq_error_iff_getElem]
  constructor
  · rintro ⟨i, hi, hbefore, here⟩
    exact ⟨i, hi, hbefore, here⟩
  · rintro ⟨i, hi, hbefore, here⟩
    exact ⟨i, hi, hbefore, here⟩

theorem RejectsAt.extract_eq {i : Nat} {e : Rejection}
    (h : RejectsAt model policy owner names i e) : extract model policy owner names = .error e :=
  extract_eq_error_iff_rejectsAt.mpr ⟨i, h⟩

theorem RejectsAt.command_eq {i : Nat} {e : Rejection}
    (h : RejectsAt model policy owner names i e) : names[i]? = some e.command := by
  have hi : i < names.length := h.bound
  rw [List.getElem?_eq_getElem hi, (extractOne_eq_error_iff.mp h.here).1]

/-- A request fails at a place because the ref of the name there is refused. -/
def RefusesAt (model : TypeModel N T) (policy : RefPolicy) (owner : N) (names : List String)
    (i : Nat) : Prop :=
  ∃ e text, extract model policy owner names = .error e ∧ names[i]? = some e.command ∧
    e.violation = .invalidRef text ∧ RejectsAt model policy owner names i e

theorem RejectsAt.refusesAt {i : Nat} {e : Rejection} {text : String}
    (h : RejectsAt model policy owner names i e) (htext : e.violation = .invalidRef text) :
    RefusesAt model policy owner names i :=
  ⟨e, text, h.extract_eq, h.command_eq, htext, h⟩

/-! ## Requests under a narrower policy -/

section Requests

variable (h : narrow.Narrower wide)

include h

variable (model owner) in
/-- Up to any place, the names of a request come to the same under a narrower
policy, or there is a first one whose ref is refused. -/
theorem agrees_or_refuses (n : Nat) (hn : n ≤ names.length) :
    (∀ j (hj : j < n), extractOne model narrow owner names[j] =
        extractOne model wide owner names[j]) ∨
      ∃ i, ∃ hi : i < n, (∀ j (hj : j < i), extractOne model narrow owner names[j] =
          extractOne model wide owner names[j]) ∧
        ∃ e text, extractOne model narrow owner names[i] = .error e ∧
          e.violation = .invalidRef text := by
  induction n with
  | zero => exact .inl fun j hj => absurd hj (Nat.not_lt_zero j)
  | succ n ih =>
      rcases ih (by omega) with hagree | ⟨i, hi, hagree, hrefused⟩
      · rcases extractOne_narrows model h owner names[n] with heq | hrefused
        · refine .inl fun j hj => ?_
          rcases Nat.lt_succ_iff_lt_or_eq.mp hj with hlt | rfl
          · exact hagree j hlt
          · exact heq
        · exact .inr ⟨n, Nat.lt_succ_self n, hagree, hrefused⟩
      · exact .inr ⟨i, by omega, hagree, hrefused⟩

/-- What succeeds under a policy succeeds in the same way under a narrower one,
unless a ref is refused. -/
theorem extract_eq_ok_or_refuses {out : List Command}
    (hout : extract model wide owner names = .ok out) :
    extract model narrow owner names = .ok out ∨
      ∃ i, RefusesAt model narrow owner names i := by
  rw [extract_eq_mapM, mapM_eq_ok_iff] at hout
  have hok : ∀ j (hj : j < names.length),
      ∃ c, extractOne model wide owner names[j] = .ok c := by
    intro j hj
    exact ⟨_, hout.get hj (hout.length_eq ▸ hj)⟩
  rcases agrees_or_refuses model owner h names.length (Nat.le_refl _) with
    hagree | ⟨i, hi, hagree, e, text, hrefused, htext⟩
  · left
    rw [extract_eq_mapM, mapM_eq_ok_iff]
    refine forall₂_imp_of_mem hout fun name hname c _ hc => ?_
    obtain ⟨j, hj, rfl⟩ := List.getElem_of_mem hname
    rw [hagree j hj, hc]
  · right
    have hbefore : ∀ j (hj : j < i), ∃ c, extractOne model narrow owner names[j] = .ok c := by
      intro j hj
      rw [hagree j hj]
      exact hok j (by omega)
    have hrejects : RejectsAt model narrow owner names i e := ⟨hi, hbefore, hrefused⟩
    exact ⟨i, hrejects.refusesAt htext⟩

/-- Where a request ends under a policy, it ends in the same way under a narrower
one, unless a ref is refused there or before. -/
theorem RejectsAt.narrows {i : Nat} {e : Rejection}
    (hrejects : RejectsAt model wide owner names i e) :
    RejectsAt model narrow owner names i e ∨ ∃ j ≤ i, RefusesAt model narrow owner names j := by
  have hi : i < names.length := hrejects.bound
  rcases agrees_or_refuses model owner h (i + 1) hi with
    hagree | ⟨j, hj, hagree, e', text, hrefused, htext⟩
  · left
    refine ⟨hi, fun j hj => ?_, ?_⟩
    · rw [List.get_eq_getElem, hagree j (by omega)]
      exact hrejects.before j hj
    · rw [hagree i (Nat.lt_succ_self i)]
      exact hrejects.here
  · right
    have hbefore : ∀ k (hk : k < j), ∃ c, extractOne model narrow owner names[k] = .ok c := by
      intro k hk
      rw [hagree k hk]
      exact hrejects.before k (by omega)
    have hrejects' : RejectsAt model narrow owner names j e' := ⟨by omega, hbefore, hrefused⟩
    exact ⟨j, by omega, hrejects'.refusesAt htext⟩

/-- What succeeds under a narrower policy succeeds in the same way. -/
theorem extract_eq_ok_of_narrower {out : List Command}
    (hout : extract model narrow owner names = .ok out) :
    extract model wide owner names = .ok out := by
  rw [extract_eq_mapM, mapM_eq_ok_iff] at hout ⊢
  refine hout.imp fun name c hc => ?_
  rcases extractOne_narrows model h owner name with heq | ⟨e, -, hrefused, -⟩
  · rw [← heq, hc]
  · rw [hc] at hrefused
    cases hrefused

end Requests

/-- Under a policy that accepts nothing no command is extracted. -/
theorem eq_nil_of_extract_eq_ok (h : ∀ reference?, policy.accepts reference? = false)
    {out : List Command} (hout : extract model policy owner names = .ok out) : names = [] := by
  rw [extract_eq_ok_iff_describes] at hout
  cases hout with
  | nil => rfl
  | cons hfirst _ =>
      obtain ⟨d, ref, later, hcommand, -⟩ := hfirst
      obtain ⟨type, -, haccepts⟩ := hcommand.accepted
      rw [h] at haccepts
      cases haccepts

/-! ## The strict check -/

/-- **The strict check only removes acceptances**, for every type model, owner
and list of names.  What the plain check extracts, the strict one extracts as
well or fails by refusing the ref of one of the names.  Where the plain check
fails, the strict one fails with the same rejection, or by refusing a ref there
or before.  What the strict check extracts stays the same when it knows more
wrappers, and the plain check does not look at the wrappers. -/
theorem strict_only_refuses_refs (model : TypeModel N T) (owner : N)
    (names wrappers : List String) :
    (∀ others out, extract model ⟨.reference, others⟩ owner names = .ok out →
      extract model ⟨.stringLiteral, wrappers⟩ owner names = .ok out ∨
        ∃ i, RefusesAt model ⟨.stringLiteral, wrappers⟩ owner names i) ∧
    (∀ others e, extract model ⟨.reference, others⟩ owner names = .error e →
      ∃ i, RejectsAt model ⟨.reference, others⟩ owner names i e ∧
        (extract model ⟨.stringLiteral, wrappers⟩ owner names = .error e ∨
          ∃ j ≤ i, RefusesAt model ⟨.stringLiteral, wrappers⟩ owner names j)) ∧
    (∀ more out, wrappers ⊆ more →
      extract model ⟨.stringLiteral, wrappers⟩ owner names = .ok out →
      extract model ⟨.stringLiteral, more⟩ owner names = .ok out) ∧
    ∀ others others', extract model ⟨.reference, others⟩ owner names =
      extract model ⟨.reference, others'⟩ owner names := by
  refine ⟨fun others out hout => ?_, fun others e he => ?_, fun more out hmore hout => ?_,
    fun others others' => rfl⟩
  · exact extract_eq_ok_or_refuses (RefPolicy.narrower_reference _ others) hout
  · obtain ⟨i, hrejects⟩ := extract_eq_error_iff_rejectsAt.mp he
    have hnarrower := RefPolicy.narrower_reference ⟨.stringLiteral, wrappers⟩ others
    exact ⟨i, hrejects, (hrejects.narrows hnarrower).imp_left RejectsAt.extract_eq⟩
  · exact extract_eq_ok_of_narrower (RefPolicy.narrower_of_subset hmore) hout

/-- The declaration of a method with a ref of the given type and nothing else. -/
def refMethod (ref : MemoryExpr) : Declaration MemoryExpr :=
  .method false 0 [.plain ⟨"ref", some ref⟩] (some (TypeExpr.ofType .void))

/-- An owner of two commands, the second of which takes a ref that is no
wrapper. -/
def player : MemoryExpr :=
  TypeExpr.component "Player" [("play", refMethod (TypeExpr.viewRef "Player")),
    ("stop", refMethod (TypeExpr.ofReference ⟨"PlayerRef", []⟩))]

/-- The strict check refuses the second name, which the plain check accepts, and
knows the first one under any list with its wrapper. -/
theorem strict_only_refuses_refs_player :
    extract MemoryType.model ⟨.reference, []⟩ player ["play", "stop"] =
      .ok [⟨"play", false, []⟩, ⟨"stop", false, []⟩] ∧
    (∃ i, RefusesAt MemoryType.model ⟨.stringLiteral, ["Ref"]⟩ player ["play", "stop"] i) ∧
    ∀ more, ["Ref"] ⊆ more →
      extract MemoryType.model ⟨.stringLiteral, more⟩ player ["play"] =
        .ok [⟨"play", false, []⟩] := by
  obtain ⟨hok, -, -, -⟩ :=
    strict_only_refuses_refs MemoryType.model player ["play", "stop"] ["Ref"]
  obtain ⟨-, -, hmore, -⟩ := strict_only_refuses_refs MemoryType.model player ["play"] ["Ref"]
  refine ⟨rfl, ?_, fun more h => hmore more _ h rfl⟩
  rcases hok [] _ rfl with hstrict | hrefuses
  · cases hstrict
  · exact hrefuses

end Contract

end CommandSchema
