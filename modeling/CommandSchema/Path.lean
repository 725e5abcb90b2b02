/-!
# CommandSchema.Path

Paths as texts: their components, the last component's extension, and the
step to the directory above.

A path is a text with `/` between components.  Repeated and trailing slashes
count for nothing, nor do `.` components, except a leading one on a relative
path.  `parent?` cuts the text itself, so what is left of it keeps its
spelling.
-/

namespace CommandSchema.Path

/-! ## Components -/

/-- Whether the path starts at the root. -/
def isAbsolute (path : String) : Bool := path.toList.head? = some '/'

/-- One step of a path below its start. -/
inductive Component where
  /-- The leading `.` of a relative path. -/
  | here
  /-- The step `..`. -/
  | up
  /-- A name. -/
  | name (text : List Char)
deriving DecidableEq, Repr

/-- The pieces of a text between slashes. -/
def pieces : List Char → List (List Char)
  | [] => [[]]
  | '/' :: rest => [] :: pieces rest
  | c :: rest =>
    match pieces rest with
    | piece :: more => (c :: piece) :: more
    | [] => [[c]]

/-- What a piece stands for; empty pieces and dots stand for nothing. -/
def component? (piece : List Char) : Option Component :=
  if piece = [] ∨ piece = ['.'] then none
  else if piece = ['.', '.'] then some .up
  else some (.name piece)

/-- The components of a path, the root apart. -/
def components (path : String) : List Component :=
  let parts := pieces path.toList
  let leading := if parts.head? = some ['.'] then [Component.here] else []
  leading ++ parts.filterMap component?

/-- The name that the path ends in, `none` when it ends in a dot step or at
the root. -/
def fileName? (path : String) : Option (List Char) :=
  match (components path).getLast? with
  | some (.name text) => some text
  | _ => none

/-- The extension of the name that the path ends in: what follows its last
dot.  A name whose only dot comes first has none. -/
def extension? (path : String) : Option String := do
  let name ← fileName? path
  let after := (name.reverse.takeWhile (· ≠ '.')).reverse
  let before := name.length - after.length - 1
  if before = 0 ∨ after.length = name.length then none else some (String.ofList after)

/-! ## The directory above -/

/-- Whether a piece stands for nothing. -/
def isEmptyPiece (piece : List Char) : Bool := piece = [] || piece = ['.']

/-- How much of a path stands before its body: the root, or a leading `.`
step. -/
def frontLength (s : List Char) : Nat :=
  if s.head? = some '/' ∨ (pieces s).head? = some ['.'] then 1 else 0

/-- The pieces without those at the end that stand for nothing. -/
def trimEnd (parts : List (List Char)) : List (List Char) :=
  (parts.reverse.dropWhile isEmptyPiece).reverse

/-- The text of a path without its last component, `none` for a root or where
there is no component.  Slashes and dots between what is left and what is
taken away go too. -/
def parent? (path : String) : Option String :=
  let s := path.toList
  let front := s.take (frontLength s)
  match trimEnd (pieces (s.drop (frontLength s))) with
  | [] => if front = ['.'] then some "" else none
  | parts => some (String.ofList (front ++ ['/'].intercalate (trimEnd parts.dropLast)))

/-- The path and the directories above it, the nearest first and at most as
many as the limit. -/
def ancestors : (limit : Nat) → (path : String) → List String
  | 0, _ => []
  | limit + 1, path =>
    path :: match parent? path with
      | some above => ancestors limit above
      | none => []

/-! ## Forms of a path -/

/-- Whether the spelling of the path asks for a directory: it ends in a slash
or in a dot step that stands for nothing. -/
def namesDirectory (path : String) : Bool :=
  match (pieces path.toList).reverse with
  | last :: _ :: _ => isEmptyPiece last
  | _ => false

/-- A path below another one; an absolute path stands for itself. -/
def join (path name : String) : String :=
  if isAbsolute name || path.isEmpty then name
  else if path.toList.getLast? = some '/' then path ++ name
  else path ++ "/" ++ name

end CommandSchema.Path
