import ElementScript.Json.Value
import ElementScript.Compiler
import ElementScript.Text.Lowercase

/-!
# Components

A component is a piece of markup, perhaps with a style and a script. This is what is handed to the
client, as JSON. It is looked up under its name in lower case, and only a name that cannot lead
anywhere else is used as the name of a directory.
-/

namespace ElementScript

/-- A loaded component. -/
structure Component where
  markup : Text
  style? : Option Text
  script? : Option CompiledScript
  deriving Repr, DecidableEq

/-- A warning as JSON. -/
def Warning.toJson : Warning → JsonValue
  | repeatedAttribute observed =>
    .object [
      ("kind".toList, .text "duplicateAttribute".toList),
      ("attribute".toList, .text observed)]
  | laterLoadHandler => .object [("kind".toList, .text "ignoredLoadHandler".toList)]

/-- A compiled script as JSON; empty lists are left out. -/
def CompiledScript.toJson (s : CompiledScript) : JsonValue :=
  .object <|
    [("native".toList, .text s.members),
      ("loadHandler".toList, .ofOption .text s.loadHandler?)] ++
    (if s.observedAttributes.isEmpty then []
      else [("observedAttributes".toList, .array (s.observedAttributes.map .text))]) ++
    if s.warnings.isEmpty then [] else [("warnings".toList, .array (s.warnings.map Warning.toJson))]

/-- A component as JSON. -/
def Component.toJson (c : Component) : JsonValue :=
  .object [
    ("markup".toList, .text c.markup),
    ("style".toList, .ofOption .text c.style?),
    ("script".toList, .ofOption CompiledScript.toJson c.script?)]

/-! ### Names of components -/

namespace Component

/-- A character of a component's name. -/
def isNamePart (c : Char) : Bool := c.isLower || c.isDigit || c == '_' || c == '-'

/-- Whether a name is safe to look up: not empty, of lower case ASCII letters, digits, `_` and
`-`. -/
def isName (name : Text) : Bool := !name.isEmpty && name.all isNamePart

/-- The form of a name under which a component is looked up. -/
def canonicalName (name : Text) : Text := Text.lowercase (Text.trim name)

end Component

end ElementScript
