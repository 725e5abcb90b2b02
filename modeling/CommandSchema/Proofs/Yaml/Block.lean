import CommandSchema.Proofs.Json.Records
import CommandSchema.Proofs.Yaml.Scalar

/-!
# CommandSchema.Proofs.Yaml.Block

Components survive being written as YAML.

Where a value ends is said by the lines behind it: they stand further out, or in the
same column without a dash (`After`).  In front of such lines two values of the same
schema that are written alike are the same, as the value of a field (`FieldTold`) and
as an item (`ItemTold`).  This is shown once for each form a schema can have — texts,
truth values, lists and records — and so it holds of lists of components, whose texts
are never the same (`OutputFormat.render_yaml_eq_iff`).
-/

namespace CommandSchema

namespace Yaml

/-! ## Lines behind a value -/

/-- The text is empty, or its first line stands further out than the column, or in the
column without a dash. -/
def After (column : Nat) (r : List Char) : Prop :=
  Outdented (column + 1) r ∧ ∀ t, r ≠ margin column ++ '-' :: t

/-- What stands further out comes after the column. -/
theorem Outdented.after {column : Nat} {r : List Char} (h : Outdented column r) :
    After column r := by
  refine ⟨h.mono (Nat.le_succ column), fun t heq => ?_⟩
  cases column with
  | zero =>
      rcases h with rfl | ⟨k, hk, -⟩
      · cases heq
      · cases hk
  | succ column => exact h.ne_moved (Nat.succ_pos column) heq

/-- What comes after a column comes after all columns behind. -/
theorem After.outdented {column column' : Nat} {r : List Char} (h : After column r)
    (hlt : column < column') : Outdented column' r :=
  h.1.mono hlt

/-- The name of a field: no dash, blank or line end stands at its start. -/
def IsName (name : String) : Prop :=
  ∃ c cs, name.toList = c :: cs ∧ c ≠ ' ' ∧ c ≠ '-' ∧ isBreak c = false

/-- A field comes after what stands in its column. -/
theorem IsName.after {name : String} (h : IsName name) (column : Nat) (t : List Char) :
    After column (margin column ++ (name.toList ++ t)) := by
  obtain ⟨c, cs, hname, hspace, hdash, hbreak⟩ := h
  rw [hname]
  refine ⟨.inr ⟨column, Nat.lt_succ_self column, c, cs ++ t, rfl, hspace, hbreak⟩, ?_⟩
  intro u heq
  exact hdash (List.cons.inj (List.append_cancel_left heq)).1

/-! ## Values that can be told apart -/

/-- As values of a field in the column, those with the property can be told apart. -/
def FieldTold (column : Nat) (P : Json → Prop) : Prop :=
  ∀ v v', P v → P v' → ∀ r r', After column r → After column r' →
    fieldTail column v ++ r = fieldTail column v' ++ r' → v = v' ∧ r = r'

/-- As items whose dashes stand in the column, values with the property can be told
apart. -/
def ItemTold (column : Nat) (P : Json → Prop) : Prop :=
  ∀ v v', P v → P v' → ∀ r r', Outdented (column + 1) r → Outdented (column + 1) r' →
    itemTail column v ++ r = itemTail column v' ++ r' → v = v' ∧ r = r'

/-! ## Scalars -/

/-- A text. -/
def IsText (v : Json) : Prop := ∃ s, v = .string s

/-- A truth value. -/
def IsTruth (v : Json) : Prop := ∃ b, v = .bool b

/-- Texts can be told apart. -/
theorem fieldTold_text (column : Nat) : FieldTold column IsText := by
  rintro _ _ ⟨s, rfl⟩ ⟨s', rfl⟩ r r' hr hr' heq
  obtain ⟨rfl, rfl⟩ := scalar_cancel (by omega) (hr.outdented (by omega))
    (hr'.outdented (by omega)) (List.cons.inj heq).2
  exact ⟨rfl, rfl⟩

/-- Truth values can be told apart. -/
theorem fieldTold_truth (column : Nat) : FieldTold column IsTruth := by
  rintro _ _ ⟨b, rfl⟩ ⟨b', rfl⟩ r r' - - heq
  have hrest := (List.cons.inj heq).2
  cases b <;> cases b' <;> simp_all [leaf]

/-! ## Lists -/

/-- A list of values with the property. -/
def ListOf (P : Json → Prop) (v : Json) : Prop := ∃ vs, v = .array vs ∧ ∀ x ∈ vs, P x

theorem writeItems_cons (column : Nat) (v : Json) (vs : List Json) (r : List Char) :
    writeItems column true (v :: vs) ++ r =
      margin column ++ '-' :: (itemTail column v ++ (writeItems column true vs ++ r)) := by
  simp only [writeItems, if_true, List.append_assoc, List.cons_append]

/-- Items stand in the column of their dashes. -/
theorem outdented_writeItems {column : Nat} {r : List Char} (hr : After column r)
    (vs : List Json) : Outdented (column + 1) (writeItems column true vs ++ r) := by
  cases vs with
  | nil => exact hr.1
  | cons v vs =>
      rw [writeItems_cons]
      exact .inr ⟨column, Nat.lt_succ_self column, '-', _, rfl, by decide, by decide⟩

/-- Lists of items that can be told apart can be told apart. -/
theorem writeItems_cancel {column : Nat} {P : Json → Prop} (h : ItemTold column P)
    {vs vs' : List Json} (hvs : ∀ v ∈ vs, P v) (hvs' : ∀ v ∈ vs', P v) {r r' : List Char}
    (hr : After column r) (hr' : After column r')
    (heq : writeItems column true vs ++ r = writeItems column true vs' ++ r') :
    vs = vs' ∧ r = r' := by
  induction vs generalizing vs' with
  | nil =>
      cases vs' with
      | nil => exact ⟨rfl, heq⟩
      | cons v' vs' =>
          rw [writeItems_cons] at heq
          exact absurd heq (hr.2 _)
  | cons v vs ih =>
      cases vs' with
      | nil =>
          rw [writeItems_cons] at heq
          exact absurd heq.symm (hr'.2 _)
      | cons v' vs' =>
          rw [writeItems_cons, writeItems_cons] at heq
          have hitem := (List.cons.inj (List.append_cancel_left heq)).2
          obtain ⟨rfl, hrest⟩ := h v v' (hvs v (by simp)) (hvs' v' (by simp)) _ _
            (outdented_writeItems hr vs) (outdented_writeItems hr' vs') hitem
          obtain ⟨rfl, rfl⟩ := ih (fun x hx => hvs x (by simp [hx]))
            (fun x hx => hvs' x (by simp [hx])) hrest
          exact ⟨rfl, rfl⟩

/-- Lists in fields can be told apart. -/
theorem fieldTold_list {column : Nat} {P : Json → Prop} (h : ItemTold column P) :
    FieldTold column (ListOf P) := by
  rintro _ _ ⟨vs, rfl, hvs⟩ ⟨vs', rfl, hvs'⟩ r r' hr hr' heq
  cases vs with
  | nil =>
      cases vs' with
      | nil => exact ⟨rfl, List.append_cancel_left heq⟩
      | cons v' vs' => exact absurd (List.cons.inj heq).1 (by decide)
  | cons v vs =>
      cases vs' with
      | nil => exact absurd (List.cons.inj heq).1 (by decide)
      | cons v' vs' =>
          obtain ⟨hitems, rfl⟩ := writeItems_cancel h hvs hvs' hr hr' (List.cons.inj heq).2
          rw [hitems]
          exact ⟨rfl, rfl⟩

/-! ## Records -/

/-- A record whose fields have the given names and properties, in that order. -/
def RecordOf (schema : List (String × (Json → Prop))) (v : Json) : Prop :=
  ∃ fields, v = .object fields ∧
    List.Forall₂ (fun s f => f.1 = s.1 ∧ s.2 f.2) schema fields

/-- The names of the schema are names, and the values of its fields can be told apart. -/
def Told (column : Nat) (schema : List (String × (Json → Prop))) : Prop :=
  ∀ s ∈ schema, IsName s.1 ∧ FieldTold column s.2

theorem writeFields_cons (column : Nat) (indented : Bool) (name : String) (v : Json)
    (fields : List (String × Json)) (r : List Char) :
    writeFields column indented ((name, v) :: fields) ++ r =
      (if indented then margin column else []) ++ (name.toList ++ (':' ::
        (fieldTail column v ++ (writeFields column true fields ++ r)))) := by
  simp only [writeFields, List.append_assoc, List.cons_append]

/-- Fields come after what stands in their column. -/
theorem after_writeFields {column : Nat} {schema : List (String × (Json → Prop))}
    (h : Told column schema) {fields : List (String × Json)}
    (hfields : List.Forall₂ (fun s f => f.1 = s.1 ∧ s.2 f.2) schema fields) {r : List Char}
    (hr : After column r) : After column (writeFields column true fields ++ r) := by
  cases hfields with
  | nil => exact hr
  | @cons s f _ _ hfirst _ =>
      obtain ⟨name, v⟩ := f
      obtain ⟨rfl, -⟩ := hfirst
      rw [writeFields_cons]
      exact (h s (by simp)).1.after column _

/-- Records of one schema can be told apart by their fields. -/
theorem writeFields_cancel {column : Nat} {schema : List (String × (Json → Prop))}
    (h : Told column schema) {indented : Bool} {fields fields' : List (String × Json)}
    (hfields : List.Forall₂ (fun s f => f.1 = s.1 ∧ s.2 f.2) schema fields)
    (hfields' : List.Forall₂ (fun s f => f.1 = s.1 ∧ s.2 f.2) schema fields') {r r' : List Char}
    (hr : After column r) (hr' : After column r')
    (heq : writeFields column indented fields ++ r = writeFields column indented fields' ++ r') :
    fields = fields' ∧ r = r' := by
  induction hfields generalizing indented fields' with
  | nil =>
      cases hfields'
      exact ⟨rfl, heq⟩
  | @cons s f schema fields hfirst hrest ih =>
      obtain _ | ⟨hfirst', hrest'⟩ := hfields'
      rename_i f' fields'
      obtain ⟨name, v⟩ := f
      obtain ⟨name', v'⟩ := f'
      obtain ⟨hname, hv⟩ := hfirst
      obtain ⟨hname', hv'⟩ := hfirst'
      simp only at hname hname'
      subst hname hname'
      have hschema : Told column schema := fun s hs => h s (by simp [hs])
      rw [writeFields_cons, writeFields_cons] at heq
      have hvalue := (List.cons.inj (List.append_cancel_left (List.append_cancel_left heq))).2
      obtain ⟨rfl, hmore⟩ := (h s (by simp)).2 v v' hv hv' _ _
        (after_writeFields hschema hrest hr) (after_writeFields hschema hrest' hr') hvalue
      obtain ⟨rfl, rfl⟩ := ih hschema hrest' hmore
      exact ⟨rfl, rfl⟩

/-- A record that fits a schema with fields has fields. -/
theorem ne_nil_of_fits {schema : List (String × (Json → Prop))} {fields : List (String × Json)}
    (hne : schema ≠ []) (h : List.Forall₂ (fun s f => f.1 = s.1 ∧ s.2 f.2) schema fields) :
    fields ≠ [] := by
  rintro rfl
  cases h
  exact hne rfl

/-- The fields of a record in a field are lines of their own. -/
theorem fieldTail_object {fields : List (String × Json)} (h : fields ≠ []) (column : Nat) :
    fieldTail column (.object fields) = '\n' :: writeFields (column + 2) true fields := by
  obtain ⟨f, fields, rfl⟩ := List.exists_cons_of_ne_nil h
  rfl

/-- The first field of a record in a list stands in the line of the dash. -/
theorem itemTail_object {fields : List (String × Json)} (h : fields ≠ []) (column : Nat) :
    itemTail column (.object fields) = ' ' :: writeFields (column + 2) false fields := by
  obtain ⟨f, fields, rfl⟩ := List.exists_cons_of_ne_nil h
  rfl

/-- Records of one schema in fields can be told apart. -/
theorem fieldTold_record {column : Nat} {schema : List (String × (Json → Prop))}
    (hne : schema ≠ []) (h : Told (column + 2) schema) : FieldTold column (RecordOf schema) := by
  rintro _ _ ⟨fields, rfl, hfields⟩ ⟨fields', rfl, hfields'⟩ r r' hr hr' heq
  rw [fieldTail_object (ne_nil_of_fits hne hfields),
    fieldTail_object (ne_nil_of_fits hne hfields')] at heq
  obtain ⟨rfl, rfl⟩ := writeFields_cancel h hfields hfields' (hr.outdented (by omega)).after
    (hr'.outdented (by omega)).after (List.cons.inj heq).2
  exact ⟨rfl, rfl⟩

/-- Records of one schema in lists can be told apart. -/
theorem itemTold_record {column : Nat} {schema : List (String × (Json → Prop))}
    (hne : schema ≠ []) (h : Told (column + 2) schema) : ItemTold column (RecordOf schema) := by
  rintro _ _ ⟨fields, rfl, hfields⟩ ⟨fields', rfl, hfields'⟩ r r' hr hr' heq
  rw [itemTail_object (ne_nil_of_fits hne hfields),
    itemTail_object (ne_nil_of_fits hne hfields')] at heq
  obtain ⟨rfl, rfl⟩ := writeFields_cancel h hfields hfields' (hr.mono (by omega)).after
    (hr'.mono (by omega)).after (List.cons.inj heq).2
  exact ⟨rfl, rfl⟩

/-! ## Documents -/

/-- Documents of lists can be told apart when their items can. -/
theorem document_cancel {P : Json → Prop} (h : ItemTold 0 P) {v v' : Json} (hv : ListOf P v)
    (hv' : ListOf P v') (heq : document v = document v') : v = v' := by
  obtain ⟨vs, rfl, hvs⟩ := hv
  obtain ⟨vs', rfl, hvs'⟩ := hv'
  have hend : After 0 [] := Outdented.after (.inl rfl)
  cases vs with
  | nil =>
      cases vs' with
      | nil => rfl
      | cons v' vs' => exact absurd (List.cons.inj heq).1 (by decide)
  | cons v vs =>
      cases vs' with
      | nil => exact absurd (List.cons.inj heq).1 (by decide)
      | cons v' vs' =>
          have hitems :
              writeItems 0 true (v :: vs) ++ [] = writeItems 0 true (v' :: vs') ++ [] := by
            rw [List.append_nil, List.append_nil]
            exact heq
          rw [(writeItems_cancel h hvs hvs' hend hend hitems).1]

end Yaml

/-! ## Components -/

open Yaml

/-- The schema of the record of a category. -/
def ParamKind.schema : List (String × (Json → Prop)) := [("type", IsText)]

/-- The schema of the record of a parameter. -/
def Param.schema : List (String × (Json → Prop)) :=
  [("name", IsText), ("typeAnnotation", RecordOf ParamKind.schema)]

/-- The schema of the record of a command. -/
def Command.schema : List (String × (Json → Prop)) :=
  [("name", IsText), ("optional", IsTruth), ("parameters", ListOf (RecordOf Param.schema))]

/-- The schema of the record of a component. -/
def Component.schema : List (String × (Json → Prop)) :=
  [("path", IsText), ("typeName", IsText), ("commands", ListOf (RecordOf Command.schema))]

theorem Param.recordOf_toJson (p : Param) : RecordOf Param.schema p.toJson := by
  have hkind : RecordOf ParamKind.schema p.kind.toJson := ⟨_, rfl, .cons ⟨rfl, _, rfl⟩ .nil⟩
  exact ⟨_, rfl, .cons ⟨rfl, _, rfl⟩ (.cons ⟨rfl, hkind⟩ .nil)⟩

theorem Command.recordOf_toJson (c : Command) : RecordOf Command.schema c.toJson := by
  have hparameters : ListOf (RecordOf Param.schema) (.array (c.parameters.map Param.toJson)) :=
    ⟨_, rfl, List.forall_mem_map.mpr fun p _ => p.recordOf_toJson⟩
  exact ⟨_, rfl, .cons ⟨rfl, _, rfl⟩ (.cons ⟨rfl, _, rfl⟩ (.cons ⟨rfl, hparameters⟩ .nil))⟩

theorem Component.recordOf_toJson (c : Component) : RecordOf Component.schema c.toJson := by
  have hcommands : ListOf (RecordOf Command.schema) (.array (c.commands.map Command.toJson)) :=
    ⟨_, rfl, List.forall_mem_map.mpr fun c _ => c.recordOf_toJson⟩
  exact ⟨_, rfl, .cons ⟨rfl, _, rfl⟩ (.cons ⟨rfl, _, rfl⟩ (.cons ⟨rfl, hcommands⟩ .nil))⟩

theorem Component.listOf_listToJson (components : List Component) :
    ListOf (RecordOf Component.schema) (listToJson components) :=
  ⟨_, rfl, List.forall_mem_map.mpr fun c _ => c.recordOf_toJson⟩

/-- The names of the fields are names. -/
theorem isName_of_mem {name : String}
    (h : name ∈ ["type", "name", "typeAnnotation", "optional", "parameters", "path", "typeName",
      "commands"]) : IsName name := by
  simp only [List.mem_cons, List.not_mem_nil, or_false] at h
  rcases h with rfl | rfl | rfl | rfl | rfl | rfl | rfl | rfl <;>
    exact ⟨_, _, rfl, by decide, by decide, by decide⟩

theorem Param.itemTold_schema (column : Nat) : ItemTold column (RecordOf Param.schema) := by
  have hkind : FieldTold (column + 2) (RecordOf ParamKind.schema) :=
    fieldTold_record (by simp [ParamKind.schema])
      (by simp [Told, ParamKind.schema, isName_of_mem, fieldTold_text])
  exact itemTold_record (by simp [schema])
    (by simp [Told, schema, isName_of_mem, fieldTold_text, hkind])

theorem Command.itemTold_schema (column : Nat) : ItemTold column (RecordOf Command.schema) := by
  have hparameters : FieldTold (column + 2) (ListOf (RecordOf Param.schema)) :=
    fieldTold_list (Param.itemTold_schema (column + 2))
  exact itemTold_record (by simp [schema])
    (by simp [Told, schema, isName_of_mem, fieldTold_text, fieldTold_truth, hparameters])

theorem Component.itemTold_schema (column : Nat) : ItemTold column (RecordOf Component.schema) := by
  have hcommands : FieldTold (column + 2) (ListOf (RecordOf Command.schema)) :=
    fieldTold_list (Command.itemTold_schema (column + 2))
  exact itemTold_record (by simp [schema])
    (by simp [Told, schema, isName_of_mem, fieldTold_text, hcommands])

/-- **Nothing is lost in YAML.**  Two lists of components have the same text only if they
are the same. -/
theorem OutputFormat.render_yaml_eq_iff (color color' : Bool)
    (components components' : List Component) :
    OutputFormat.render .yaml color components = OutputFormat.render .yaml color' components' ↔
      components = components' := by
  constructor
  · intro heq
    have hdocument : Yaml.document (Component.listToJson components) =
        Yaml.document (Component.listToJson components') := String.ofList_inj.mp heq
    have hrecords := document_cancel (Component.itemTold_schema 0)
      (Component.listOf_listToJson components) (Component.listOf_listToJson components') hdocument
    have hread := congrArg Component.listOfJson? hrecords
    rwa [Component.listOfJson?_listToJson, Component.listOfJson?_listToJson,
      Option.some.injEq] at hread
  · rintro rfl
    rfl

end CommandSchema
