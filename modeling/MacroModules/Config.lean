import MacroModules.Config.Toml
import MacroModules.Text.Utf8

/-!
# Configurations

A configuration gives defaults for what may be chosen on the command line. A setting of the wrong
type is as good as none.

* `Config.ofTable`: the settings of a table.
* `Config.ofBytes`: the settings in the bytes of a file.
-/

namespace MacroModules

/-- The settings of a configuration. -/
structure Config where
  extension : Option String
  debug : Bool
  verbose : Bool
  deriving DecidableEq

namespace Config

/-- The configuration without settings. -/
def empty : Config := ⟨none, false, false⟩

/-- A setting that is a text. -/
def text? : Option Toml.Value → Option String
  | some (.text value) => some value
  | _ => none

/-- Whether a setting is switched on. -/
def isOn : Option Toml.Value → Bool
  | some (.truth value) => value
  | _ => false

/-- The settings of a table. -/
def ofTable (t : Toml.Entries) : Config :=
  ⟨text? (t.lookup "extension"), isOn (t.lookup "debug"), isOn (t.lookup "verbose")⟩

/-- Why a configuration cannot be read. -/
inductive Fault where
  /-- The bytes are no text. -/
  | encoding (fault : Utf8.Fault)
  /-- The text is no table, for what stands on this line. -/
  | format (line : Nat)
  /-- A number has this many digits, which is too many. -/
  | longNumber (digits : Nat)
  deriving DecidableEq

/-- The fault of a table on a line. -/
def Fault.ofToml (line : Nat) : Toml.Fault → Fault
  | .malformed | .conflict => format line
  | .longNumber digits => longNumber digits

/-- The settings in the bytes of a file. -/
def ofBytes (bytes : List UInt8) : Except Fault Config := do
  let text ← (Utf8.decode bytes).mapError .encoding
  let table ← (Toml.read text).mapError fun e => .ofToml e.2 e.1
  return ofTable table

end Config

end MacroModules
