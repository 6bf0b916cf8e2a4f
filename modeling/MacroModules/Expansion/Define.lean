/-!
# Preprocessor definitions

The output of an expansion is a list of `#define` lines. A line defines a symbol, made of the name
of the module, the name of the definition and the values bound to its parameters.

* `symbol`: the symbol of a name under a stem, which is the module's name or stands for a place of
  inlining.
* `Binding`: the values of a template's slots, by name.
* `Define`: one line, symbol and body apart.
-/

namespace MacroModules.Expansion

/-- The symbol of a name under a stem. Symbols that are not meant for use elsewhere are
decorated. -/
def symbol (stem name : String) (decorated : Bool) : String :=
  (if decorated then "__" else "") ++ stem ++ "_" ++ name

/-- The slots of a template with their values, in slot order. -/
abbrev Binding := List (String × Int)

namespace Binding

/-- The values alone. -/
def values (b : Binding) : List Int := b.map (·.2)

/-- The value of a slot. Slots count from zero, or back from the last one if the index is negative.
-/
def value? (b : Binding) (index : Int) : Option Int :=
  if 0 ≤ index then b.values[index.toNat]?
  else b.values.reverse[(-index - 1).toNat]?

/-- What the values add to a symbol. -/
def tail (b : Binding) : String :=
  String.join (b.values.map fun v => "_" ++ Int.repr v)

/-- A name with the values bound in it, for people to read. -/
def frame (name : String) : Option Binding → String
  | none => name
  | some b => name ++ "<" ++ ", ".intercalate (b.values.map Int.repr) ++ ">"

end Binding

/-- A `#define` line. The body follows the symbol without a blank of its own. -/
structure Define where
  symbol : String
  body : String
  deriving DecidableEq

namespace Define

/-- The line, with its line end. -/
def text (d : Define) : String := "#define " ++ d.symbol ++ d.body ++ "\n"

/-- Some lines in a row. -/
def textAll (ds : List Define) : String := String.join (ds.map text)

@[simp] theorem textAll_nil : textAll [] = "" := rfl

@[simp] theorem textAll_append (ds es : List Define) :
    textAll (ds ++ es) = textAll ds ++ textAll es := by
  simp [textAll, String.join_append]

end Define

end MacroModules.Expansion
