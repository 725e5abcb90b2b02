import CommandSchema.Command.Schema
import CommandSchema.Terminal.Paint

/-!
# CommandSchema.Terminal.Listing

The listing of components for a person at a terminal.

Each component has a line with its type, the number of its commands and its
file, and a further line for each command.
-/

namespace CommandSchema.Terminal

/-- A parameter with its category. -/
def parameter (color : Bool) (p : Param) : List Char :=
  p.name.toList ++ [':', ' '] ++ painted color .kind p.kind.word

/-- A command in the form of a method. -/
def command (color : Bool) (c : Command) : List Char :=
  painted color .command c.name ++ (if c.optional then ['?'] else []) ++ '(' ::
    [',', ' '].intercalate (c.parameters.map (parameter color)) ++ [')']

/-- A component with its commands. -/
def component (color : Bool) (c : Component) : List Char :=
  painted color .typeName c.typeName ++ ' ' ::
    painted color .count s!"[{c.commands.length} commands]" ++ " (".toList ++
    c.path.toList ++ ")\n".toList ++
    c.commands.flatMap fun cmd => "  ".toList ++ command color cmd ++ ['\n']

/-- Several components, one after the other. -/
def listing (color : Bool) (components : List Component) : List Char :=
  components.flatMap (component color)

end CommandSchema.Terminal
