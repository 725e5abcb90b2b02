import CommandSchema.Proofs.Json.Grammar
import CommandSchema.Rendering

/-!
# CommandSchema.Proofs.Json.Records

Components survive being written as JSON.

What is written of a value is a document of that value (`Written`), which is
shown form by form, with any text behind it.  The records of components are made
of forms for which this holds, and reading a record gives back what it was made
of (`Component.listOfJson?_listToJson`).  A document says one value only, so the
components that were written are all that can be read
(`OutputFormat.document_render_json`).
-/

namespace CommandSchema

namespace Json

open Syntax.StringLiteral (IsDigitOf WritesUnit writesUnit_of_digits codeUnits)

/-! ## Texts -/

theorem isDigitOf_hexDigit {n : Nat} (h : n < 16) : IsDigitOf (hexDigit n) n := by
  have hall : ∀ i : Fin 16, "0123456789abcdef".toList[i.val]? = some (hexDigit i.val) := by decide
  exact .inl (hall ⟨n, h⟩)

/-- An escaped character is read as the character. -/
theorem body_escape (c : Char) {t s r : List Char} (h : Body t s r) :
    Body (escape c ++ t) (c :: s) r := by
  unfold escape
  split
  case h_8 hquote hbackslash _ _ _ _ _ =>
    split
    · next hcontrol =>
        have hlt : c.toNat < 32 := hcontrol
        have hunits : codeUnits c = [c.toNat] := if_pos (by omega)
        have hzero : IsDigitOf '0' 0 := .inl rfl
        have hwrites := writesUnit_of_digits hzero hzero
          (isDigitOf_hexDigit (show c.toNat / 16 < 16 by omega))
          (isDigitOf_hexDigit (show c.toNat % 16 < 16 by omega))
        rw [show 16 * (16 * (16 * 0 + 0) + c.toNat / 16) + c.toNat % 16 = c.toNat by omega]
          at hwrites
        have hcode : List.Forall₂ WritesUnit
            [['0', '0', hexDigit (c.toNat / 16), hexDigit (c.toNat % 16)]] (codeUnits c) := by
          rw [hunits]
          exact .cons hwrites .nil
        exact .code hcode h
    · next hcontrol => exact .plain hquote hbackslash (Char.not_lt.mp hcontrol) h
  all_goals exact .short rfl h

/-- The escaped characters of a text and a quote are read as the text. -/
theorem body_flatMap_escape (s r : List Char) : Body (s.flatMap escape ++ '"' :: r) s r := by
  induction s with
  | nil => exact .close
  | cons c s ih =>
      rw [List.flatMap_cons, List.append_assoc]
      exact body_escape c ih

theorem body_quoted (s : String) (r : List Char) :
    ∃ t, quoted s ++ r = '"' :: t ∧ Body t s.toList r := by
  refine ⟨_, ?_, body_flatMap_escape s.toList r⟩
  simp [quoted]

/-! ## Values -/

/-- What is written of a value says the value, in front of any text. -/
def Written (v : Json) : Prop := ∀ depth r, Derives (write depth v ++ r) (.value v) r

/-- A new line consists of blanks. -/
theorem blank_newLine (depth : Nat) (r : List Char) : Blank (newLine depth ++ r) r := by
  have hblanks : ∀ n, Blank (List.replicate n ' ' ++ r) r := by
    intro n
    induction n with
    | zero => exact .nil
    | succ n ih => exact .cons rfl ih
  exact .cons rfl (hblanks _)

theorem written_string (s : String) : Written (.string s) := by
  intro depth r
  obtain ⟨t, heq, hbody⟩ := body_quoted s r
  rw [write, heq]
  have hvalue := Derives.string hbody
  rwa [String.ofList_toList] at hvalue

theorem written_bool (b : Bool) : Written (.bool b) := by
  intro depth r
  cases b with
  | true => exact .true
  | false => exact .false

theorem derives_item {v : Json} (h : Written v) (depth : Nat) (r : List Char) :
    Derives (newLine depth ++ write depth v ++ r) (.element v) r := by
  rw [List.append_assoc]
  exact .element (blank_newLine depth _) (h depth r)

/-- Written items that follow the first one, and the closing bracket. -/
theorem derives_writeItems {items : List Json} (h : ∀ v ∈ items, Written v) (depth outer : Nat)
    (r : List Char) :
    Derives (writeItems depth items ++ newLine outer ++ ']' :: r) (.items items) r := by
  induction items with
  | nil => exact .closeItems (blank_newLine outer _)
  | cons v items ih =>
      have hitem := derives_item (h v (by simp)) depth
        (writeItems depth items ++ newLine outer ++ ']' :: r)
      rw [writeItems]
      simp only [List.cons_append, List.append_assoc] at hitem ⊢
      refine .nextItem .nil hitem ?_
      simpa only [List.append_assoc] using ih fun v hv => h v (by simp [hv])

/-- Written arrays. -/
theorem written_array {items : List Json} (h : ∀ v ∈ items, Written v) :
    Written (.array items) := by
  intro depth r
  cases items with
  | nil => exact .noItems .nil
  | cons v items =>
      have hitems : ∀ v ∈ items, Written v := fun v hv => h v (by simp [hv])
      have hrest := derives_writeItems hitems (depth + 1) depth r
      have hfirst := derives_item (h v (by simp)) (depth + 1)
        (writeItems (depth + 1) items ++ newLine depth ++ ']' :: r)
      rw [write]
      simp only [List.cons_append, List.append_assoc, List.nil_append] at hrest hfirst ⊢
      exact .array hfirst hrest

/-- A written field. -/
theorem derives_field (name : String) {v : Json} (h : Written v) (depth : Nat) (r : List Char) :
    Derives (newLine depth ++ quoted name ++ [':', ' '] ++ write depth v ++ r)
      (.field (name, v)) r := by
  obtain ⟨t, heq, hbody⟩ := body_quoted name (':' :: ' ' :: (write depth v ++ r))
  have hvalue : Derives (' ' :: (write depth v ++ r)) (.element v) r :=
    .element (.cons rfl .nil) (h depth r)
  have hquote := blank_newLine depth (quoted name ++ (':' :: ' ' :: (write depth v ++ r)))
  rw [heq] at hquote
  have hfield := Derives.field hquote hbody .nil hvalue
  rw [← heq, String.ofList_toList] at hfield
  simpa only [List.append_assoc, List.cons_append, List.nil_append] using hfield

/-- Written fields that follow the first one, and the closing brace. -/
theorem derives_writeFields {fields : List (String × Json)} (h : ∀ f ∈ fields, Written f.2)
    (depth outer : Nat) (r : List Char) :
    Derives (writeFields depth fields ++ newLine outer ++ '\x7d' :: r) (.fields fields) r := by
  induction fields with
  | nil => exact .closeFields (blank_newLine outer _)
  | cons f fields ih =>
      obtain ⟨name, v⟩ := f
      have hfield := derives_field name (h (name, v) (by simp)) depth
        (writeFields depth fields ++ newLine outer ++ '\x7d' :: r)
      rw [writeFields]
      simp only [List.cons_append, List.append_assoc, List.nil_append] at hfield ⊢
      refine .nextField .nil hfield ?_
      simpa only [List.append_assoc] using ih fun f hf => h f (by simp [hf])

/-- Written objects. -/
theorem written_object {fields : List (String × Json)} (h : ∀ f ∈ fields, Written f.2) :
    Written (.object fields) := by
  intro depth r
  cases fields with
  | nil => exact .noFields .nil
  | cons f fields =>
      obtain ⟨name, v⟩ := f
      have hfields : ∀ f ∈ fields, Written f.2 := fun f hf => h f (by simp [hf])
      have hrest := derives_writeFields hfields (depth + 1) depth r
      have hfirst := derives_field name (h (name, v) (by simp)) (depth + 1)
        (writeFields (depth + 1) fields ++ newLine depth ++ '\x7d' :: r)
      rw [write]
      simp only [List.cons_append, List.append_assoc, List.nil_append] at hrest hfirst ⊢
      exact .object hfirst hrest

theorem Written.document {v : Json} (h : Written v) : Document (write 0 v) v := by
  have hvalue := h 0 []
  rw [List.append_nil] at hvalue
  exact ⟨[], .element .nil hvalue, .nil⟩

end Json

/-! ## Records are read back -/

theorem mapM_map_eq_some {α β : Type} {f : α → β} {g : β → Option α} (h : ∀ a, g (f a) = some a)
    (as : List α) : (as.map f).mapM g = some as := by
  induction as with
  | nil => rfl
  | cons a as ih => simp [h, ih]

theorem ParamKind.ofJson?_toJson (kind : ParamKind) : ofJson? kind.toJson = some kind := by
  cases kind <;> rfl

theorem Param.ofJson?_toJson (p : Param) : ofJson? p.toJson = some p := by
  have hkind := ParamKind.ofJson?_toJson p.kind
  simp [ofJson?, toJson, Json.record?, Json.field?, Json.string?, hkind]

theorem Command.ofJson?_toJson (c : Command) : ofJson? c.toJson = some c := by
  have hparameters := mapM_map_eq_some Param.ofJson?_toJson c.parameters
  simp [ofJson?, toJson, Json.record?, Json.field?, Json.string?, Json.bool?, Json.items?,
    hparameters]

theorem Component.ofJson?_toJson (c : Component) : ofJson? c.toJson = some c := by
  have hcommands := mapM_map_eq_some Command.ofJson?_toJson c.commands
  simp [ofJson?, toJson, Json.record?, Json.field?, Json.string?, Json.items?, hcommands]

theorem Component.listOfJson?_listToJson (components : List Component) :
    listOfJson? (listToJson components) = some components := by
  have hcomponents := mapM_map_eq_some Component.ofJson?_toJson components
  simp [listOfJson?, listToJson, Json.items?, hcomponents]

/-! ## Records are written as documents -/

open Json

theorem Param.written_toJson (p : Param) : Written p.toJson := by
  have hkind : Written p.kind.toJson := written_object (by simp [written_string])
  exact written_object (by simp [written_string, hkind])

theorem Command.written_toJson (c : Command) : Written c.toJson := by
  have hparameters : Written (.array (c.parameters.map Param.toJson)) :=
    written_array (by simp [Param.written_toJson])
  exact written_object (by simp [written_string, written_bool, hparameters])

theorem Component.written_toJson (c : Component) : Written c.toJson := by
  have hcommands : Written (.array (c.commands.map Command.toJson)) :=
    written_array (by simp [Command.written_toJson])
  exact written_object (by simp [written_string, hcommands])

theorem Component.written_listToJson (components : List Component) :
    Written (listToJson components) :=
  written_array (by simp [Component.written_toJson])

/-- **Nothing is lost in JSON.**  The text of a list of components is a document and a line
end, by the grammar of JSON the document says what the records of the components say and
nothing else, and the components that are read out of what it says are those that were
written. -/
theorem OutputFormat.document_render_json (color : Bool) (components : List Component) :
    ∃ text, OutputFormat.render .json color components = String.ofList (text ++ ['\n']) ∧
      Document text (Component.listToJson components) ∧
      ∀ v, Document text v → Component.listOfJson? v = some components := by
  have hdocument := (Component.written_listToJson components).document
  refine ⟨_, rfl, hdocument, fun v hv => ?_⟩
  rw [hv.unique hdocument, Component.listOfJson?_listToJson]

end CommandSchema
