/-!
# CommandSchema.Terminal.Paint

Colors at a terminal.

A look is turned on and off by escape sequences around a piece of text.  A
reset inside the piece is followed by the piece's own sequence again, so that
the rest of it keeps its look.
-/

namespace CommandSchema.Terminal

/-- The look of a piece of text. -/
inductive Look where
  | typeName
  | count
  | command
  | kind
  | alarm
deriving DecidableEq, Repr

/-- The sequence that turns a look on. -/
def Look.start : Look → List Char
  | .typeName => "\x1b[1;34m".toList
  | .count => "\x1b[2m".toList
  | .command => "\x1b[32m".toList
  | .kind => "\x1b[36m".toList
  | .alarm => "\x1b[1;31m".toList

/-- The sequence that turns every look off. -/
def reset : List Char := "\x1b[0m".toList

/-- The text with the given sequence after each reset in it. -/
def restart (start : List Char) : List Char → List Char
  | '\x1b' :: '[' :: '0' :: 'm' :: rest => reset ++ start ++ restart start rest
  | c :: rest => c :: restart start rest
  | [] => []

/-- A piece of text in a look, if colors are on. -/
def painted (color : Bool) (look : Look) (text : String) : List Char :=
  if color then look.start ++ restart look.start text.toList ++ reset else text.toList

end CommandSchema.Terminal
