import CommandSchema.Proofs.Contract.Outcome
import CommandSchema.Typing.MemoryModel

/-!
# CommandSchema.Proofs.Contract.Extraction

What becomes of a whole request, for every type model, owner, list of names
and ref policy.

The extraction yields one record for each name, in order, exactly when every
name is that of a command (`extract_ok_iff_isCommand`).  Otherwise it fails as
the first name that is not the name of a command fails alone, with the first
violation of that name (`extract_error_iff_firstViolation`).
-/

namespace CommandSchema.Contract

variable {N T : Type}

/-! ## One name of a request -/

section Single

variable (model : TypeModel N T) (policy : RefPolicy) (owner : N) (name : String)

/-- The step of an extraction: one name on the type of the owner. -/
def extractOne : Except Rejection Command :=
  rejecting (model.exprText owner) name (command model policy (model.resolve owner) name)

theorem extract_eq_mapM (names : List String) :
    extract model policy owner names = names.mapM (extractOne model policy owner) := rfl

variable {model policy owner name}

theorem extractOne_eq_ok_iff {c : Command} :
    extractOne model policy owner name = .ok c ↔
      Describes model policy (model.resolve owner) name c := by
  rw [← command_eq_ok_iff, extractOne, rejecting]
  cases command model policy (model.resolve owner) name <;> simp [Except.mapError]

/-- A step fails exactly with the first violation, under the names of the
command and its owner. -/
theorem extractOne_eq_error_iff {e : Rejection} :
    extractOne model policy owner name = .error e ↔
      e.command = name ∧ e.owner = model.exprText owner ∧
        FirstViolation model policy (model.resolve owner) name e.violation := by
  rw [← command_eq_error_iff, extractOne, rejecting]
  obtain ⟨command', owner', violation⟩ := e
  cases command model policy (model.resolve owner) name with
  | ok c => simp [Except.mapError]
  | error v =>
      simp only [Except.mapError, Except.error.injEq, Rejection.mk.injEq]
      constructor
      · rintro ⟨rfl, rfl, rfl⟩
        exact ⟨rfl, rfl, rfl⟩
      · rintro ⟨rfl, rfl, rfl⟩
        exact ⟨rfl, rfl, rfl⟩

theorem extract_singleton_eq_ok_iff {c : Command} :
    extract model policy owner [name] = .ok [c] ↔ extractOne model policy owner name = .ok c := by
  rw [extract_eq_mapM, mapM_eq_ok_iff]
  simp

theorem extract_singleton_eq_error_iff {e : Rejection} :
    extract model policy owner [name] = .error e ↔
      extractOne model policy owner name = .error e := by
  rw [extract_eq_mapM, mapM_eq_error_iff_getElem]
  simp

end Single

/-! ## Success -/

variable (model : TypeModel N T) (policy : RefPolicy) (owner : N) (names : List String)

theorem extract_eq_ok_iff_describes {out : List Command} :
    extract model policy owner names = .ok out ↔
      List.Forall₂ (Describes model policy (model.resolve owner)) names out := by
  simp only [extract_eq_mapM, mapM_eq_ok_iff, extractOne_eq_ok_iff]

/-- **Success**: an extraction yields records exactly when every name is that
of a command.  There is one record for each name, in order, with the name, the
flag of its only declaration, and the later parameters in order, each with its
name and category. -/
theorem extract_ok_iff_isCommand :
    ((∃ out, extract model policy owner names = .ok out) ↔
      ∀ name ∈ names, ∃ d ref later,
        IsCommand model policy (model.resolve owner) name d ref later) ∧
    ∀ out, extract model policy owner names = .ok out →
      out.length = names.length ∧
      ∀ i (hi : i < names.length) (ho : i < out.length), ∃ d ref later,
        IsCommand model policy (model.resolve owner) names[i] d ref later ∧
        out[i].name = names[i] ∧ out[i].optional = d.isOptional ∧
        List.Forall₂ (Records model) later out[i].parameters := by
  simp only [extract_eq_ok_iff_describes]
  refine ⟨⟨?_, ?_⟩, ?_⟩
  · rintro ⟨out, hout⟩ name hname
    obtain ⟨i, hi, rfl⟩ := List.getElem_of_mem hname
    obtain ⟨d, ref, later, hcommand, -⟩ := hout.get hi (hout.length_eq ▸ hi)
    exact ⟨d, ref, later, hcommand⟩
  · intro h
    induction names with
    | nil => exact ⟨[], .nil⟩
    | cons name names ih =>
        obtain ⟨d, ref, later, hcommand⟩ := h name (by simp)
        obtain ⟨records, hrecords⟩ := exists_forall₂_records model hcommand.supported
        obtain ⟨out, hout⟩ := ih fun name' hname' => h name' (by simp [hname'])
        exact ⟨⟨name, d.isOptional, records⟩ :: out,
          .cons ⟨d, ref, later, hcommand, rfl, rfl, hrecords⟩ hout⟩
  · intro out hout
    exact ⟨hout.length_eq.symm, fun i hi ho => hout.get hi ho⟩

-- a name that is asked for twice is extracted twice
example :
    let seek : Declaration MemoryExpr := .method true 0
      [.plain ⟨"ref", some (TypeExpr.viewRef "Video")⟩, .plain ⟨"to", some TypeExpr.int32⟩]
      (some (TypeExpr.ofType .void))
    extract MemoryType.model ⟨.stringLiteral, ["Ref"]⟩ (TypeExpr.component "Video" [("seek", seek)])
        ["seek", "seek"] =
      .ok [⟨"seek", true, [⟨"to", .int32⟩]⟩, ⟨"seek", true, [⟨"to", .int32⟩]⟩] := rfl

/-! ## Failure -/

/-- **Failure**: an extraction fails exactly when some name fails alone behind
names that succeed alone, and with the same rejection, which carries the name,
the text of the owner, and the first violation of the name.  The names behind
it can be any, and a name with a first violation fails with it whatever the
later rules say. -/
theorem extract_error_iff_firstViolation (e : Rejection) :
    (extract model policy owner names = .error e ↔
      ∃ i, ∃ hi : i < names.length,
        (∀ j (hj : j < i), ∃ c, extract model policy owner [names[j]] = .ok [c]) ∧
        extract model policy owner [names[i]] = .error e ∧
        e.command = names[i] ∧ e.owner = model.exprText owner ∧
        FirstViolation model policy (model.resolve owner) names[i] e.violation ∧
        ∀ rest, extract model policy owner (names.take (i + 1) ++ rest) = .error e) ∧
    ∀ name v, extract model policy owner [name] = .error ⟨name, model.exprText owner, v⟩ ↔
      FirstViolation model policy (model.resolve owner) name v := by
  simp only [extract_singleton_eq_ok_iff, extract_singleton_eq_error_iff]
  refine ⟨⟨fun h => ?_, ?_⟩, fun name v => by simp [extractOne_eq_error_iff]⟩
  · rw [extract_eq_mapM, mapM_eq_error_iff_getElem] at h
    obtain ⟨i, hi, hbefore, herror⟩ := h
    obtain ⟨hname, howner, hviolation⟩ := extractOne_eq_error_iff.mp herror
    exact ⟨i, hi, hbefore, herror, hname, howner, hviolation,
      mapM_take_append_eq_error hi hbefore herror⟩
  · rintro ⟨i, hi, hbefore, herror, -⟩
    rw [extract_eq_mapM, mapM_eq_error_iff_getElem]
    exact ⟨i, hi, hbefore, herror⟩

/-- The name that an extraction fails at has the violation that is reported. -/
theorem firstViolation_of_extract_eq_error {model : TypeModel N T} {policy : RefPolicy} {owner : N}
    {names : List String} {e : Rejection} (h : extract model policy owner names = .error e) :
    FirstViolation model policy (model.resolve owner) e.command e.violation := by
  rw [extract_eq_mapM, mapM_eq_error_iff] at h
  obtain ⟨before, name, after, -, -, hname⟩ := h
  obtain ⟨rfl, -, hviolation⟩ := extractOne_eq_error_iff.mp hname
  exact hviolation

-- the result comes before the ref, and the unknown name is never looked up
example :
    let play : Declaration MemoryExpr := .method false 0 [.plain ⟨"rate", none⟩]
      (some (TypeExpr.ofType .number))
    extract MemoryType.model ⟨.reference, []⟩ ⟨"Video", .object [("play", play)], none⟩
      ["play", "stop"] = .error ⟨"play", "Video", .nonVoidResult "number"⟩ := rfl

end CommandSchema.Contract
