import MacroModules.Report

/-!
# What can go wrong in an expansion

* `Cause`: why a module cannot be expanded, with its wording `Cause.message`.
* `CompileError`: a cause, what was being compiled when it was met, and where that begins.
* `Failure`: an expansion ends with such an error, or it gets stuck (`Impasse`), in most cases
  because a definition inlines itself. The latter has no context and no place.
* `within`: an expansion as part of a larger one, to whose name its errors are charged.
-/

namespace MacroModules.Expansion

/-- Why a module cannot be expanded. -/
inductive Cause where
  /-- There is no module of this name to import. -/
  | unknownModule (name : String)
  /-- The module has not been imported. -/
  | notImported (name : String)
  /-- The imported module has no such object. -/
  | objectNotFound (owner object : String)
  /-- No template of this name has been declared so far. -/
  | templateNotFound (name : String)
  /-- A parameter is used outside of a template. -/
  | noParameters
  /-- A parameter is used that has no value. -/
  | slotOutOfRange (index count : Int)
  /-- A template is instantiated with too few or too many ranges. -/
  | rangeCount (got expected : Int)
  deriving DecidableEq

/-- The wording of a cause. -/
def Cause.message : Cause → String
  | unknownModule name => "module not found: " ++ name
  | notImported name => "module " ++ name ++ " not included (import it with @use " ++ name ++ ")"
  | objectNotFound owner object => "object " ++ object ++ " not found in module " ++ owner
  | templateNotFound name => "template not found: " ++ name
  | noParameters => "object has no template parameters"
  | slotOutOfRange index count =>
    "template parameter " ++ Int.repr index ++ " used but only " ++ Int.repr count ++ " are bound"
  | rangeCount got expected =>
    "@impl gives " ++ Int.repr got ++ " range(s) but the template has " ++ Int.repr expected ++
      " parameter(s)"

/-- An error met while a module is expanded. -/
structure CompileError where
  cause : Cause
  /-- What was being compiled, outermost first. -/
  context : List String
  /-- The name of the module at fault, in its source. -/
  place : Option (Span × Source)
  deriving DecidableEq

/-- The error as a report. -/
def CompileError.report (e : CompileError) : Report :=
  ⟨e.cause.message, e.place, e.context⟩

/-- Why an expansion cannot go on, without there being an error to report. -/
inductive Impasse where
  /-- A definition inlines itself, directly or through others. -/
  | endless
  /-- A slot is counted back beyond the first one. -/
  | missingSlot
  /-- A range has more members than can be counted. -/
  | uncountableRange
  /-- Something of this label stands where a section has to be. -/
  | notSection (label : String)
  deriving DecidableEq

/-- Why an expansion gives no result. -/
inductive Failure where
  | error (e : CompileError)
  | stuck (i : Impasse)
  deriving DecidableEq

namespace Failure

/-- A failure that has just been met. -/
def ofCause (c : Cause) : Failure := error ⟨c, [], none⟩

/-- A failure met while something of this name was being compiled. -/
def within (name : String) : Failure → Failure
  | error e => error { e with context := name :: e.context }
  | stuck i => stuck i

/-- A failure met in a module whose name stands at this place. -/
def locate (span : Span) (source : Source) : Failure → Failure
  | error e => error { e with place := some (span, source) }
  | stuck i => stuck i

end Failure

/-- An expansion, or why it gives no result. -/
abbrev Result := Except Failure

/-- An expansion as part of something of this name. -/
def within {α : Type} (name : String) (r : Result α) : Result α :=
  r.mapError (·.within name)

variable {α : Type}

@[simp] theorem within_ok (name : String) (a : α) : within name (.ok a : Result α) = .ok a := rfl

@[simp] theorem within_error (name : String) (f : Failure) :
    within name (.error f : Result α) = .error (f.within name) := rfl

/-- Only failures depend on the name. -/
theorem within_eq_ok_iff {name : String} {r : Result α} {a : α} :
    within name r = .ok a ↔ r = .ok a := by
  cases r <;> simp

end MacroModules.Expansion
