import CommandSchema.Factory
import CommandSchema.Proofs.Syntax.Places
import CommandSchema.Proofs.Traversal
import CommandSchema.Syntax.SourceFile

/-!
# CommandSchema.Proofs.FactoryCalls

The factory calls of a tree and the requests that they make.

A factory call asks for commands of a type when its first type argument names the
type and its first argument is an object that lists the commands
(`Factory.Asks`).  The calls that are read are all factory calls of the tree,
wherever they stand and also inside each other, each once and in the order in
which they start.  The requests are those that the calls make, one for each, or
the fault is that of the first call that is not well formed
(`Factory.requests_of_calls`): it tells the line of the call and the first
requirement that the call misses (`Factory.FirstMissing`).
-/

namespace CommandSchema

open Syntax Syntax.Node

/-- A node sets a property of an object: it is a pair whose key is the name of the
property, decoded if it is quoted and as it is written if it is not. -/
def Syntax.Node.Sets (n : Node) (property : String) : Prop :=
  n.kind = .pair ∧ ∃ key, n.child? .key = some key ∧
    (key.kind = .stringLiteral → key.stringValue = property) ∧
    (key.kind ≠ .stringLiteral → key.text = property)

namespace Factory

/-! ## What a call provides -/

/-- A call whose callee is written as one of the factories. -/
def IsFactoryCall (factories : List String) (n : Node) : Prop :=
  n.kind = .callExpression ∧ ∃ callee, n.child? .function = some callee ∧ callee.text ∈ factories

/-- The first type argument of a call is the name of a type. -/
def NamesType (call : Node) (typeName : String) : Prop :=
  ∃ list argument, call.child? .typeArguments = some list ∧ list.firstNamed? = some argument ∧
    (argument.kind = .typeIdentifier ∨ argument.kind = .nestedTypeIdentifier) ∧
    argument.text = typeName

/-- The first argument of a call is an object. -/
def GivesOptions (call options : Node) : Prop :=
  ∃ list, call.child? .arguments = some list ∧ list.firstNamed? = some options ∧
    options.kind = .object

/-- The first pair of an object that sets its commands has an array of string
literals as its value, comments aside. -/
def ListsCommands (options : Node) (commands : List String) : Prop :=
  ∃ before pair after names, options.namedChildren = before ++ pair :: after ∧
    (∀ earlier ∈ before, ¬ earlier.Sets "supportedCommands") ∧ pair.Sets "supportedCommands" ∧
    pair.child? .value = some names ∧ names.kind = .array ∧
    List.Forall₂ (fun literal command => literal.kind = .stringLiteral ∧
      literal.stringValue = command) (names.namedChildren.filter (!·.isComment)) commands

/-- A call asks for commands of a type: it names the type, and its options list
the commands. -/
structure Asks (call : Node) (typeName : String) (commands : List String) : Prop where
  typeArgument : NamesType call typeName
  options : ∃ options, GivesOptions call options ∧ ListsCommands options commands

/-- The first requirement, in the order in which they are checked, that a call
misses. -/
inductive FirstMissing (call : Node) : Requirement → Prop
  | typeArgument (unnamed : ¬ ∃ typeName, NamesType call typeName) :
      FirstMissing call .typeArgument
  | options {typeName : String} (named : NamesType call typeName)
      (without : ¬ ∃ options, GivesOptions call options) : FirstMissing call .options
  | commandList {typeName : String} {options : Node} (named : NamesType call typeName)
      (given : GivesOptions call options)
      (unlisted : ¬ ∃ commands, ListsCommands options commands) :
      FirstMissing call .commandList

/-! ## Reading the parts of a call -/

/-- A part with a description is missing where nothing meets the description. -/
theorem eq_none_of_not_exists {α : Type} {part? : Option α} {P : α → Prop}
    (h : ∀ a, part? = some a ↔ P a) (hnone : ¬ ∃ a, P a) : part? = none := by
  rw [Option.eq_none_iff_forall_ne_some]
  exact fun a hsome => hnone ⟨a, (h a).mp hsome⟩

section Parts

variable {call options n : Node} {typeName : String} {commands : List String}

theorem isCall_iff {factories : List String} :
    isCall factories n = true ↔ IsFactoryCall factories n := by
  simp [isCall, callee?, IsFactoryCall, Option.any_eq_true]

theorem typeName?_eq_some_iff : typeName? call = some typeName ↔ NamesType call typeName := by
  simp [typeName?, NamesType, Option.bind_eq_some_iff]

theorem options?_eq_some_iff : options? call = some options ↔ GivesOptions call options := by
  simp only [options?, GivesOptions, Option.bind_eq_bind, Option.bind_eq_some_iff,
    Option.ite_none_right_eq_some, Option.some.injEq]
  constructor
  · rintro ⟨list, hlist, _, hfirst, hkind, rfl⟩
    exact ⟨list, hlist, hfirst, hkind⟩
  · rintro ⟨list, hlist, hfirst, hkind⟩
    exact ⟨list, hlist, options, hfirst, hkind, rfl⟩

/-- The property that a pair sets is read off the node in its key's place. -/
theorem sets_iff {property : String} :
    n.Sets property ↔ n.kind = .pair ∧ keyName? n = some property := by
  rw [Node.Sets, keyName?]
  cases n.child? .key with
  | none => simp
  | some key => by_cases hquoted : key.kind = .stringLiteral <;> simp [hquoted]

/-- The names in an array of string literals. -/
theorem mapM_string?_eq_some_iff {literals : List Node} {names : List String} :
    literals.mapM string? = some names ↔
      List.Forall₂ (fun literal name => literal.kind = .stringLiteral ∧
        literal.stringValue = name) literals names := by
  induction literals generalizing names with
  | nil => simp [eq_comm]
  | cons literal literals ih =>
      rw [List.mapM_cons, List.forall₂_cons_left_iff]
      simp only [string?, Option.bind_eq_bind, Option.bind_eq_some_iff,
        Option.ite_none_right_eq_some, Option.some.injEq, Option.pure_def]
      constructor
      · rintro ⟨name, hname, rest, hrest, rfl⟩
        exact ⟨name, rest, hname, ih.mp hrest, rfl⟩
      · rintro ⟨name, rest, hname, hrest, rfl⟩
        exact ⟨name, hname, rest, ih.mpr hrest, rfl⟩

/-- The search for the property of commands ends at the first pair that sets
it. -/
theorem find?_commandsProperty_eq_some_iff {pair : Node} :
    (options.namedChildren.find? fun n =>
      n.kind = .pair && keyName? n = some commandsProperty) = some pair ↔
      ∃ before after, options.namedChildren = before ++ pair :: after ∧
        (∀ earlier ∈ before, ¬ earlier.Sets "supportedCommands") ∧
        pair.Sets "supportedCommands" := by
  have hsets (n : Node) : (decide (n.kind = .pair) && decide (keyName? n = some commandsProperty)) =
      true ↔ n.Sets "supportedCommands" := by
    rw [Bool.and_eq_true, decide_eq_true_iff, decide_eq_true_iff, sets_iff, commandsProperty]
  rw [List.find?_eq_some_iff_append, hsets]
  simp only [Bool.not_eq_true', ← Bool.not_eq_true, hsets]
  constructor
  · rintro ⟨hpair, before, after, hsplit, hbefore⟩
    exact ⟨before, after, hsplit, hbefore, hpair⟩
  · rintro ⟨before, after, hsplit, hbefore, hpair⟩
    exact ⟨hpair, before, after, hsplit, hbefore⟩

theorem commands?_eq_some_iff : commands? options = some commands ↔
    ListsCommands options commands := by
  simp only [commands?, ListsCommands, Option.bind_eq_bind, Option.bind_eq_some_iff,
    Option.ite_none_right_eq_some, mapM_string?_eq_some_iff, find?_commandsProperty_eq_some_iff]
  constructor
  · rintro ⟨pair, ⟨before, after, hsplit, hbefore, hpair⟩, names, hnames, hkind, hcommands⟩
    exact ⟨before, pair, after, names, hsplit, hbefore, hpair, hnames, hkind, hcommands⟩
  · rintro ⟨before, pair, after, names, hsplit, hbefore, hpair, hnames, hkind, hcommands⟩
    exact ⟨pair, ⟨before, after, hsplit, hbefore, hpair⟩, names, hnames, hkind, hcommands⟩

end Parts

/-! ## Reading one call -/

variable {factories : List String} {root call : Node}

/-- A call is well formed when all of its parts are read. -/
theorem asks_iff {typeName : String} {commands : List String} :
    Asks call typeName commands ↔ typeName? call = some typeName ∧
      ∃ options, options? call = some options ∧ commands? options = some commands := by
  simp only [typeName?_eq_some_iff, options?_eq_some_iff, commands?_eq_some_iff]
  exact ⟨fun h => ⟨h.typeArgument, h.options⟩, fun h => ⟨h.1, h.2⟩⟩

/-- A call is read as the request that it makes, and any other call has a
fault. -/
theorem read_eq_ok_iff {request : Request} :
    read call = .ok request ↔
      Asks call request.typeName request.commands ∧ request.line = call.start.line := by
  obtain ⟨typeName, commands, line⟩ := request
  rw [asks_iff, read]
  cases typeName? call with
  | none => simp
  | some typeName' =>
      cases options? call with
      | none => simp
      | some options =>
          simp only [Option.some.injEq, exists_eq_left']
          cases commands? options with
          | none => simp
          | some commands' =>
              simp only [Except.ok.injEq, Request.mk.injEq, Option.some.injEq, and_assoc]
              rw [@eq_comm _ line]

/-- A call is well formed or misses a first requirement. -/
theorem asks_or_firstMissing (call : Node) :
    (∃ typeName commands, Asks call typeName commands) ∨ ∃ missing, FirstMissing call missing := by
  by_cases hname : ∃ typeName, NamesType call typeName
  case neg => exact .inr ⟨_, .typeArgument hname⟩
  obtain ⟨typeName, hname⟩ := hname
  by_cases hoptions : ∃ options, GivesOptions call options
  case neg => exact .inr ⟨_, .options hname hoptions⟩
  obtain ⟨options, hoptions⟩ := hoptions
  by_cases hcommands : ∃ commands, ListsCommands options commands
  case neg => exact .inr ⟨_, .commandList hname hoptions hcommands⟩
  obtain ⟨commands, hcommands⟩ := hcommands
  exact .inl ⟨typeName, commands, hname, options, hoptions, hcommands⟩

/-- The fault of a call is the first requirement that it misses. -/
theorem read_of_firstMissing {missing : Requirement} (h : FirstMissing call missing) :
    read call = .error ⟨(callee? call).getD "", call.start.line, missing⟩ := by
  rw [read]
  cases h with
  | typeArgument unnamed =>
      have hname : typeName? call = none :=
        eq_none_of_not_exists (fun _ => typeName?_eq_some_iff) unnamed
      rw [hname]
  | options named without =>
      have hoptions : options? call = none :=
        eq_none_of_not_exists (fun _ => options?_eq_some_iff) without
      rw [typeName?_eq_some_iff.mpr named, hoptions]
  | @commandList typeName options named given unlisted =>
      have hcommands : commands? options = none :=
        eq_none_of_not_exists (fun _ => commands?_eq_some_iff) unlisted
      simp only [typeName?_eq_some_iff.mpr named, options?_eq_some_iff.mpr given, hcommands]

/-- A factory call has a fault exactly when it misses a requirement. -/
theorem read_eq_error_iff (hcall : IsFactoryCall factories call) {fault : FactoryFault} :
    read call = .error fault ↔ FirstMissing call fault.missing ∧
      (∃ callee, call.child? .function = some callee ∧ callee.text = fault.factory) ∧
      fault.line = call.start.line := by
  obtain ⟨-, callee, hcallee, -⟩ := hcall
  obtain ⟨factory, line, missing⟩ := fault
  have hread {missing : Requirement} (hmissing : FirstMissing call missing) :
      read call = .error ⟨callee.text, call.start.line, missing⟩ := by
    rw [read_of_firstMissing hmissing, callee?, hcallee, Option.map_some, Option.getD_some]
  constructor
  · intro h
    rcases asks_or_firstMissing call with ⟨typeName, commands, hasks⟩ | ⟨missing', hmissing⟩
    · have hok : read call = .ok ⟨typeName, commands, call.start.line⟩ :=
        read_eq_ok_iff.mpr ⟨hasks, rfl⟩
      rw [hok] at h
      cases h
    · rw [hread hmissing] at h
      cases h
      exact ⟨hmissing, ⟨callee, hcallee, rfl⟩, rfl⟩
  · rintro ⟨hmissing, ⟨callee', hcallee', rfl⟩, rfl⟩
    rw [hcallee] at hcallee'
    cases hcallee'
    exact hread hmissing

/-- A call is read exactly when it is well formed. -/
theorem exists_read_iff_asks :
    (∃ request, read call = .ok request) ↔ ∃ typeName commands, Asks call typeName commands := by
  simp only [read_eq_ok_iff]
  constructor
  · rintro ⟨request, hasks, -⟩
    exact ⟨_, _, hasks⟩
  · rintro ⟨typeName, commands, hasks⟩
    exact ⟨⟨typeName, commands, call.start.line⟩, hasks, rfl⟩

/-! ## Reading all calls -/

theorem isFactoryCall_of_mem_calls (h : call ∈ calls factories root) :
    IsFactoryCall factories call :=
  isCall_iff.mp (List.mem_filter.mp h).2

theorem requests_eq_ok_iff {rs : List Request} : requests factories root = .ok rs ↔
    List.Forall₂ (fun call r => Asks call r.typeName r.commands ∧ r.line = call.start.line)
      (calls factories root) rs := by
  simp only [requests, mapM_eq_ok_iff, read_eq_ok_iff]

/-- Where every call is well formed, the requests are those of the calls, in
order. -/
theorem exists_requests
    (h : ∀ call ∈ calls factories root, ∃ typeName commands, Asks call typeName commands) :
    ∃ rs, requests factories root = .ok rs ∧
      List.Forall₂ (fun call r => Asks call r.typeName r.commands) (calls factories root) rs := by
  simp only [requests_eq_ok_iff]
  generalize calls factories root = cs at h ⊢
  induction cs with
  | nil => exact ⟨[], .nil, .nil⟩
  | cons call rest ih =>
      obtain ⟨typeName, commands, hasks⟩ := h call (by simp)
      obtain ⟨rs, hread, hrs⟩ := ih fun c hc => h c (by simp [hc])
      exact ⟨⟨typeName, commands, call.start.line⟩ :: rs, .cons ⟨hasks, rfl⟩ hread, .cons hasks hrs⟩

/-- The requests fail at the first call that is not well formed. -/
theorem requests_eq_error_iff {fault : FactoryFault} : requests factories root = .error fault ↔
    ∃ before call after, calls factories root = before ++ call :: after ∧
      (∀ earlier ∈ before, ∃ typeName commands, Asks earlier typeName commands) ∧
      FirstMissing call fault.missing ∧
      (∃ callee, call.child? .function = some callee ∧ callee.text = fault.factory) ∧
      fault.line = call.start.line := by
  simp only [requests, mapM_eq_error_iff, exists_read_iff_asks]
  have hcall {before after : List Node} {call : Node}
      (hsplit : calls factories root = before ++ call :: after) : IsFactoryCall factories call :=
    isFactoryCall_of_mem_calls (hsplit ▸ List.mem_append_right before List.mem_cons_self)
  constructor
  · rintro ⟨before, call, after, hsplit, hbefore, hread⟩
    exact ⟨before, call, after, hsplit, hbefore, (read_eq_error_iff (hcall hsplit)).mp hread⟩
  · rintro ⟨before, call, after, hsplit, hbefore, hmissing⟩
    exact ⟨before, call, after, hsplit, hbefore, (read_eq_error_iff (hcall hsplit)).mpr hmissing⟩

/-- **The requests of a tree.**  The calls that are read are its factory calls, at
whatever depth, each once and in preorder.  There are requests exactly when all
of them are well formed: one for each call, in order, with the type, the commands
and the line of the call.  Otherwise the fault is that of the first call that is
not well formed, and tells its callee, its line and the first requirement that it
misses. -/
theorem requests_of_calls (factories : List String) (root : Node) :
    (∃ places, root.Lists (IsFactoryCall factories) places (calls factories root)) ∧
      ((∃ rs, requests factories root = .ok rs) ↔
        ∀ call ∈ calls factories root, ∃ typeName commands, Asks call typeName commands) ∧
      (∀ rs, requests factories root = .ok rs ↔
        List.Forall₂ (fun call r => Asks call r.typeName r.commands ∧ r.line = call.start.line)
          (calls factories root) rs) ∧
      ∀ fault, requests factories root = .error fault ↔
        ∃ before call after, calls factories root = before ++ call :: after ∧
          (∀ earlier ∈ before, ∃ typeName commands, Asks earlier typeName commands) ∧
          FirstMissing call fault.missing ∧
          (∃ callee, call.child? .function = some callee ∧ callee.text = fault.factory) ∧
          fault.line = call.start.line := by
  refine ⟨?_, ⟨?_, ?_⟩, fun _ => requests_eq_ok_iff, fun _ => requests_eq_error_iff⟩
  · have hlists := lists_filter_preorder root (isCall factories)
    simp only [isCall_iff] at hlists
    exact ⟨_, hlists⟩
  · rintro ⟨rs, hrs⟩ call hcall
    obtain ⟨r, -, hasks, -⟩ := exists_right_of_forall₂ (requests_eq_ok_iff.mp hrs) hcall
    exact ⟨_, _, hasks⟩
  · intro hasks
    obtain ⟨rs, hrs, -⟩ := exists_requests hasks
    exact ⟨rs, hrs⟩

/-- The tree of a text. -/
def treeOf (text : String) : Node :=
  ((SourceFile.parse "Native.ts" text).toOption.map SourceFile.root).getD default

/-- A call in a function with another call among its arguments.  The key of the
outer one is quoted and has an escape, and its array holds a comment. -/
def nestedCalls : Node :=
  treeOf <| "function setup(): void \x7b\n  make<Native.Props>(\x7b other: [],\n" ++
    "    'supported\\x43ommands': [/* one */ 'a', \"b\"] \x7d,\n" ++
    "    make<Inner>(\x7b supportedCommands: [] \x7d));\n\x7d"

/-- A call for commands under another name behind a well-formed one. -/
def unlistedCall : Node :=
  treeOf <| "make<A>(\x7b supportedCommands: [] \x7d);\n" ++
    "make<B>(\x7b commands: ['a'] \x7d);\nmake();"

/-- Both calls of the first file are read, the outer one first, and the second
file has the fault of its second call. -/
theorem requests_of_calls_nested :
    requests ["make"] nestedCalls =
        .ok [⟨"Native.Props", ["a", "b"], 2⟩, ⟨"Inner", [], 4⟩] ∧
      List.Forall₂
        (fun call (r : Request) => Asks call r.typeName r.commands ∧ r.line = call.start.line)
        (calls ["make"] nestedCalls) [⟨"Native.Props", ["a", "b"], 2⟩, ⟨"Inner", [], 4⟩] ∧
      requests ["make"] unlistedCall = .error ⟨"make", 2, .commandList⟩ ∧
      ∃ before call after, calls ["make"] unlistedCall = before ++ call :: after ∧
        (∀ earlier ∈ before, ∃ typeName commands, Asks earlier typeName commands) ∧
        FirstMissing call .commandList ∧ call.start.line = 2 := by
  obtain ⟨hread, hfault⟩ : requests ["make"] nestedCalls =
        .ok [⟨"Native.Props", ["a", "b"], 2⟩, ⟨"Inner", [], 4⟩] ∧
      requests ["make"] unlistedCall = .error ⟨"make", 2, .commandList⟩ := by
    decide +kernel
  obtain ⟨-, -, hok, -⟩ := requests_of_calls ["make"] nestedCalls
  obtain ⟨-, -, -, herror⟩ := requests_of_calls ["make"] unlistedCall
  obtain ⟨before, call, after, hsplit, hbefore, hmissing, -, hline⟩ := (herror _).mp hfault
  exact ⟨hread, (hok _).mp hread, hfault, before, call, after, hsplit, hbefore, hmissing,
    hline.symm⟩

end Factory

end CommandSchema
