import CommandSchema.Command.Record
import CommandSchema.Json.Text
import CommandSchema.Settings
import CommandSchema.Terminal.Listing
import CommandSchema.Yaml.Block

/-!
# CommandSchema.Rendering

The written form of extracted components in each of the output formats.
-/

namespace CommandSchema

/-- The text of the components in a format; colors only show in the listing
for a terminal. -/
def OutputFormat.render (format : OutputFormat) (color : Bool) (components : List Component) :
    String :=
  String.ofList <|
    match format with
    | .json => Json.document (Component.listToJson components)
    | .yaml => Yaml.document (Component.listToJson components)
    | .terminal => Terminal.listing color components

end CommandSchema
