import MacroModules.Report
import MacroModules.Text.Quoted
import MacroModules.Token

/-!
# What can be wrong with a document

* `Fault`: the first place at which a text departs from the form of a document, and how. Its wording
  is `Fault.message`, its place `Fault.span`.
* `ReadFailure`: why a text could not be read. Besides a fault this may be a range bound with more
  digits than are taken as a number.
-/

namespace MacroModules

/-- A departure of a text from the form of a document. -/
inductive Fault where
  /-- A token stands where only others may. -/
  | unexpectedToken (got : Token) (expected : List Kind)
  /-- The text ends where a token has to follow. -/
  | unexpectedEnd (span : Span) (expected : List Kind)
  /-- A command is given something it does not apply to. -/
  | wrongArgument (command got : String) (expected : List String) (span : Span)
  /-- There is no command of this name. -/
  | unknownCommand (command : Token)
  deriving DecidableEq

namespace Fault

/-- The wording of a fault. -/
def message : Fault → String
  | unexpectedToken got expected =>
    "unexpected " ++ got.kind.describe ++ " " ++ Text.quote got.text ++
      ", expected " ++ Kind.describeAll expected
  | unexpectedEnd _ expected =>
    "unexpected end of input, expected " ++ Kind.describeAll expected
  | wrongArgument command got expected _ =>
    "wrong argument for " ++ command ++ ": got " ++ got ++
      ", expected " ++ " or ".intercalate expected
  | unknownCommand command =>
    "unknown command '@" ++ command.text ++ "' (expected @use, @export or @impl)"

/-- The stretch of text at fault. -/
def span : Fault → Span
  | unexpectedToken got _ => got.span
  | unexpectedEnd span _ => span
  | wrongArgument _ _ _ span => span
  | unknownCommand command => command.span

/-- The fault of a source as a report. -/
def report (f : Fault) (source : Source) : Report :=
  ⟨f.message, some (f.span, source), []⟩

end Fault

/-- Why a text could not be read as a document. -/
inductive ReadFailure where
  | fault (fault : Fault)
  /-- A range bound has this many digits, which is too many. -/
  | longBound (digits : Nat)
  deriving DecidableEq

end MacroModules
