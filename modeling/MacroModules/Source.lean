/-!
# Sources

A source is a text together with the name under which it is known to its author, usually a path.
-/

namespace MacroModules

/-- A named text. -/
structure Source where
  name : String
  text : String
  deriving DecidableEq

/-- The name of a text that has been given none. -/
def Source.defaultName : String := "input.c"

end MacroModules
