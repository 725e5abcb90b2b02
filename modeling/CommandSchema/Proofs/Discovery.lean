import CommandSchema.Factory
import CommandSchema.Proofs.Syntax.Comments

/-!
# CommandSchema.Proofs.Discovery

Factory calls in trees with comments.

A call is recognised by the text of what it calls, so a comment in there can
hide a call (`Factory.KeepsCallee`).  The type argument and the options are the
first ones of their lists, comments included (`Factory.Undisturbed`).  All else
is looked up by role or kind: the property with the commands, and the names in
its array.  So the same requests are found, or the first fault is the same
(`Factory.requests_alike`).
-/

namespace CommandSchema

open Syntax Syntax.Node

/-- Requests for the same commands of the same type. -/
structure Request.Alike (request request' : Request) : Prop where
  typeName : request.typeName = request'.typeName
  commands : request.commands = request'.commands

/-- Calls of the same factory miss the same requirement. -/
structure FactoryFault.Alike (fault fault' : FactoryFault) : Prop where
  factory : fault.factory = fault'.factory
  missing : fault.missing = fault'.missing

namespace Factory

/-! ## Places in which comments are seen -/

/-- What is called is no factory, before and after, if a comment stands in it. -/
def KeepsCallee (factories : List String) (n n' : Node) : Prop :=
  ∀ f ∈ n.child? .function, ∀ f' ∈ n'.child? .function, f'.holdsComment = true →
    f.text ∉ factories ∧ f'.text ∉ factories

/-- The first of what a call has in one of its lists, comments included. -/
def firstOf? (role : Role) (call : Node) : Option Node := (call.child? role).bind firstNamed?

/-- No comment stands in front of the type argument or the options of a call, nor
in the name of the type. -/
@[mk_iff]
structure Undisturbed (call : Node) : Prop where
  typeArgument : ∀ argument ∈ firstOf? .typeArguments call, argument.isComment = false
  typeName : ∀ argument ∈ firstOf? .typeArguments call,
    argument.kind = .nestedTypeIdentifier → argument.holdsComment = false
  options : ∀ argument ∈ firstOf? .arguments call, argument.isComment = false

instance (factories : List String) (n n' : Node) : Decidable (KeepsCallee factories n n') :=
  inferInstanceAs (Decidable (∀ f ∈ n.child? .function, ∀ f' ∈ n'.child? .function,
    f'.holdsComment = true → f.text ∉ factories ∧ f'.text ∉ factories))

instance (call : Node) : Decidable (Undisturbed call) := decidable_of_iff' _ (undisturbed_iff call)

/-! ## Reading a call -/

/-- The name of the command type is that of the first type argument. -/
theorem typeName?_eq_bind (call : Node) : typeName? call =
    (firstOf? .typeArguments call).bind fun argument =>
      if argument.kind = .typeIdentifier ∨ argument.kind = .nestedTypeIdentifier then
        some argument.text
      else none := by
  rw [firstOf?, Option.bind_assoc]
  rfl

theorem options?_eq_bind (call : Node) : options? call =
    (firstOf? .arguments call).bind fun argument =>
      if argument.kind = .object then some argument else none := by
  rw [firstOf?, Option.bind_assoc]
  rfl

section Reading

variable {P : Node → Node → Prop} (hlaw : ∀ n n', P n n' → n'.Grammatical) {n n' : Node}

include hlaw

/-- With no comment in front of them, the first nodes of a list correspond. -/
theorem firstOf?_rel (h : Inserted P n n') (role : Role)
    (hfirst : ∀ argument ∈ firstOf? role n', argument.isComment = false) :
    Option.Rel (Inserted P) (firstOf? role n) (firstOf? role n') := by
  have hlist := h.child? (hlaw _ _ h.pair) role
  rw [firstOf?] at hfirst
  rw [firstOf?, firstOf?]
  generalize n.child? role = list?, n'.child? role = list'? at hlist hfirst ⊢
  cases hlist with
  | none => exact .none
  | some hlist => exact hlist.firstNamed? hfirst

/-- The type argument of a call keeps its name. -/
theorem typeName?_eq (h : Inserted P n n') (hcall : Undisturbed n') :
    typeName? n' = typeName? n := by
  have hargument := firstOf?_rel hlaw h .typeArguments hcall.typeArgument
  have hname := hcall.typeName
  rw [typeName?_eq_bind, typeName?_eq_bind]
  generalize firstOf? _ n = a?, firstOf? _ n' = a'? at hargument hname ⊢
  cases hargument with
  | none => rfl
  | @some a a' hargument =>
      have hnone : a'.kind = .typeIdentifier ∨ a'.kind = .nestedTypeIdentifier →
          a'.holdsComment = false := by
        rintro (hidentifier | hnested)
        · exact (hlaw _ _ hargument.pair).tokens (by rw [hidentifier]; rfl)
        · exact hname a' rfl hnested
      rw [Option.bind_some, Option.bind_some, ← hargument.kind_eq]
      split
      · next hkind => rw [hargument.text_eq (hnone hkind)]
      · rfl

/-- The options of a call correspond. -/
theorem options?_rel (h : Inserted P n n') (hcall : Undisturbed n') :
    Option.Rel (Inserted P) (options? n) (options? n') := by
  have hargument := firstOf?_rel hlaw h .arguments hcall.options
  rw [options?_eq_bind, options?_eq_bind]
  generalize firstOf? _ n = a?, firstOf? _ n' = a'? at hargument ⊢
  cases hargument with
  | none => exact .none
  | some hargument =>
      rw [Option.bind_some, Option.bind_some, hargument.kind_eq]
      split
      · exact .some hargument
      · exact .none

/-- A property lists the commands, or does not. -/
theorem keyName?_iff (h : Inserted P n n') :
    keyName? n' = some commandsProperty ↔ keyName? n = some commandsProperty := by
  have hkey := h.child? (hlaw _ _ h.pair) .key
  have hkeys : ∀ key ∈ n'.child? .key, key.kind = .computedName ∨ key.holdsComment = false := by
    intro key hkey
    exact (hlaw _ _ h.pair).keys key (mem_children_of_child? hkey) (role_of_child? hkey)
  rw [keyName?, keyName?]
  generalize n.child? _ = key?, n'.child? _ = key'? at hkey hkeys ⊢
  cases hkey with
  | none => rfl
  | @some key key' hkey =>
      rw [Option.map_some, Option.map_some, hkey.kind_eq]
      rcases hkeys _ rfl with hcomputed | hnone
      · -- no computed name is the name of the property, for it begins with a bracket
        have hhead' := (hlaw _ _ hkey.pair).computed hcomputed
        have hkind : key.kind = .computedName := hkey.kind_eq.symm.trans hcomputed
        have hhead : key.text.toList.head? = some '[' :=
          (hkey.head?_text_eq (by simp [hkind])).symm.trans hhead'
        have hproperty : commandsProperty.toList.head? = some 's' := rfl
        have hne : ∀ text : String, text.toList.head? = some '[' → text ≠ commandsProperty := by
          rintro text htext rfl
          rw [hproperty] at htext
          cases htext
        simp [hkind, hne _ hhead, hne _ hhead']
      · rw [hkey.stringValue_eq hnone, hkey.text_eq hnone]

/-- Strings keep their values, and nothing else becomes one. -/
theorem string?_eq (h : Inserted P n n') : string? n' = string? n := by
  rw [string?, string?, h.kind_eq]
  split
  · next hkind =>
      have hkind' := h.kind_eq.trans hkind
      rw [h.stringValue_eq ((hlaw _ _ h.pair).tokens (by rw [hkind']; rfl))]
  · rfl

/-- The options list the same commands. -/
theorem commands?_eq (h : Inserted P n n') : commands? n' = commands? n := by
  have hpair := h.find?_named
    (p := fun n => n.kind = .pair && keyName? n = some commandsProperty)
    (fun c hc => by simp [kind_of_isComment hc])
    fun c c' hc => by simp only [hc.kind_eq, keyName?_iff hlaw hc]
  unfold commands?
  generalize n.namedChildren.find? _ = pair?, n'.namedChildren.find? _ = pair'? at hpair ⊢
  cases hpair with
  | none => rfl
  | @some pair pair' hpair =>
      have hvalue := hpair.child? (hlaw _ _ hpair.pair) .value
      simp only [Option.bind_eq_bind, Option.bind_some]
      generalize pair.child? _ = value?, pair'.child? _ = value'? at hvalue ⊢
      cases hvalue with
      | none => rfl
      | @some value value' hvalue =>
          have hstrings : List.Forall₂ (fun c c' => string? c' = string? c)
              (value.namedChildren.filter (!·.isComment))
              (value'.namedChildren.filter (!·.isComment)) := by
            have hcode := hvalue.filter_named (p := (!·.isComment)) (fun c hc => by simp [hc])
              fun c c' hc => by rw [isComment_eq_of_kind hc.kind_eq]
            exact hcode.imp fun c c' hc => string?_eq hlaw hc
          simp only [Option.bind_some, hvalue.kind_eq]
          split
          · exact mapM_eq_of_forall₂ hstrings
          · rfl

/-- A call makes the same request, or misses the same requirement. -/
theorem read_alike (h : Inserted P n n') (hcallee : callee? n' = callee? n)
    (hcall : Undisturbed n') :
    AlikeOutcomes FactoryFault.Alike Request.Alike (read n) (read n') := by
  rw [read, read, typeName?_eq hlaw h hcall, hcallee]
  cases typeName? n with
  | none => exact .error ⟨rfl, rfl⟩
  | some typeName =>
      have hoptions := options?_rel hlaw h hcall
      generalize options? n = options?, options? n' = options'? at hoptions ⊢
      cases hoptions with
      | none => exact .error ⟨rfl, rfl⟩
      | @some options options' hoptions =>
          simp only [commands?_eq hlaw hoptions]
          cases commands? options with
          | none => exact .error ⟨rfl, rfl⟩
          | some commands => exact .ok ⟨rfl, rfl⟩

end Reading

/-! ## Finding the calls -/

section Finding

variable {factories : List String} {P : Node → Node → Prop}
  (hlaw : ∀ n n', P n n' → n'.Grammatical ∧ KeepsCallee factories n n') {n n' : Node}

include hlaw

/-- What is called keeps its text, unless it is no factory in either tree. -/
theorem callee?_eq_or (h : Inserted P n n') :
    callee? n' = callee? n ∨
      (callee? n).any (· ∈ factories) = false ∧ (callee? n').any (· ∈ factories) = false := by
  have hfunction := h.child? (hlaw _ _ h.pair).1 .function
  have hkept : ∀ f ∈ n.child? .function, ∀ f' ∈ n'.child? .function, f'.holdsComment = true →
      f.text ∉ factories ∧ f'.text ∉ factories := (hlaw _ _ h.pair).2
  rw [callee?, callee?]
  generalize n.child? _ = f?, n'.child? _ = f'? at hfunction hkept ⊢
  cases hfunction with
  | none => exact .inl rfl
  | @some f f' hf =>
      cases hnone : f'.holdsComment with
      | false => exact .inl (by rw [Option.map_some, Option.map_some, hf.text_eq hnone])
      | true => exact .inr (by simpa using hkept f rfl f' rfl hnone)

theorem isCall_eq (h : Inserted P n n') : isCall factories n = isCall factories n' := by
  rw [isCall, isCall, h.kind_eq]
  rcases callee?_eq_or hlaw h with hsame | ⟨hnone, hnone'⟩
  · rw [hsame]
  · rw [hnone, hnone']

/-- The factory calls of the trees correspond, in order. -/
theorem calls_rel {root root' : Node} (h : Inserted P root root')
    (hgrammar : ∀ m ∈ root'.preorder, m.Grammatical) :
    List.Forall₂ (Inserted P) (calls factories root) (calls factories root') := by
  refine h.filter_preorder (fun c hc => ?_) (fun c c' hc => isCall_eq hlaw hc) hgrammar
  simp [isCall, kind_of_isComment hc]

/-- **Requests in trees with comments**: the factory calls of the two trees make
the same requests, or the first fault is the same. -/
theorem requests_alike {root root' : Node} (h : Inserted P root root')
    (hgrammar : ∀ m ∈ root'.preorder, m.Grammatical)
    (hcalls : ∀ call ∈ calls factories root', Undisturbed call) :
    AlikeOutcomes FactoryFault.Alike (List.Forall₂ Request.Alike) (requests factories root)
      (requests factories root') := by
  have hkept : List.Forall₂ (fun n n' => AlikeOutcomes FactoryFault.Alike Request.Alike (read n)
      (read n')) (calls factories root) (calls factories root') := by
    refine forall₂_imp_of_mem (calls_rel hlaw h hgrammar) fun n hn n' hn' hinserted => ?_
    have hcallee : callee? n' = callee? n := by
      rcases callee?_eq_or hlaw hinserted with hsame | ⟨hnone, -⟩
      · exact hsame
      · have hcall := (List.mem_filter.mp hn).2
        rw [isCall, hnone, Bool.and_false] at hcall
        cases hcall
    exact read_alike (fun n n' hP => (hlaw n n' hP).1) hinserted hcallee (hcalls n' hn')
  exact AlikeOutcomes.mapM hkept fun _ _ hread => hread

end Finding

/-! ## What a comment does where it is seen -/

section Seen

variable {call c : Node} (hc : c.isComment = true)

include hc

/-- A comment in front of the type argument of a call is taken for it. -/
theorem read_of_comment_typeArgument (hfirst : firstOf? .typeArguments call = some c) :
    read call = .error ⟨(callee? call).getD "", call.start.line, .typeArgument⟩ := by
  have hname : typeName? call = none := by
    simp [typeName?_eq_bind, hfirst, kind_of_isComment hc]
  rw [read, hname]

/-- A comment in front of the options of a call is taken for them. -/
theorem read_of_comment_options {typeName : String} (hname : typeName? call = some typeName)
    (hfirst : firstOf? .arguments call = some c) :
    read call = .error ⟨(callee? call).getD "", call.start.line, .options⟩ := by
  have hoptions : options? call = none := by
    simp [options?_eq_bind, hfirst, kind_of_isComment hc]
  rw [read, hname, hoptions]

end Seen

end Factory

end CommandSchema
