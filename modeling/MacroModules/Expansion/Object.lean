import MacroModules.Expansion.Failure
import MacroModules.Expansion.Scope

/-!
# Expanding definitions

A definition becomes one `#define` line, with the lines of what it inlines in front of it.

* `fragment`, `fragments`: what the fragments of a body contribute to the line and in front of it.
* `defineWith`: a definition, given how inlined objects are expanded.
* `defineAt`, `define`: the same with inlining nested at most so deep, and as deep as it may be
  without running in circles (`Scope.inliningBound`).
* `layOut`: the values of a range, if it is not too large.
* `instances`: a template for all values of its parameters.
-/

namespace MacroModules.Expansion

/-- Under which symbol a definition is expanded, and with which values. -/
structure Target where
  /-- What the symbol begins with, the decoration apart. -/
  stem : String
  decorated : Bool
  /-- The values of the parameters, if the definition is a template's. -/
  binding : Option Binding
  deriving DecidableEq

/-- The symbol of a definition. -/
def Target.symbolOf (t : Target) (name : String) : String :=
  symbol t.stem name t.decorated ++ (t.binding.map Binding.tail).getD ""

/-- The stem of an object that is inlined into the definition `name`. -/
def Target.inlineStem (t : Target) (name owner : String) : String :=
  "__" ++ t.stem ++ "_" ++ name ++ "_IMPL_" ++ owner

variable (inline : Definition → Target → Result (List Define)) (s : Scope)

/-- What a reference into another module contributes to the line of the definition `name`, and the
lines it needs in front. -/
def foreign (name : String) (t : Target) (owner object : String) (inlined : Bool) :
    Result (List Define × String) :=
  match s.import? owner with
  | none => .error (.ofCause (.notImported owner))
  | some m =>
    match m.object? object with
    | none => .error (.ofCause (.objectNotFound owner object))
    | some d =>
      if inlined then do
        let ds ← inline d ⟨t.inlineStem name owner, false, none⟩
        return (ds, t.inlineStem name owner)
      else return ([], symbol owner object true)

/-- What a fragment contributes to the line of the definition `name`, and the lines it needs in
front. -/
def fragment (name : String) (t : Target) : Fragment → Result (List Define × String)
  | .text value => .ok ([], value)
  | .slot index =>
    match t.binding with
    | none => .error (.ofCause .noParameters)
    | some b =>
      match b.value? index with
      | some value => .ok ([], Int.repr value)
      | none =>
        .error (if index < 0 then .stuck .missingSlot
          else .ofCause (.slotOutOfRange index b.length))
  | .word word => .ok ([], s.resolve t.stem word)
  | .call callee args => .ok ([], s.call t.stem callee args t.binding)
  | .foreign owner object inlined => foreign inline s name t owner object inlined
  | .unknown _ => .ok ([], "")

/-- What the fragments of the definition `name` contribute. The lines for a later fragment stand in
front of those for an earlier one. -/
def fragments (name : String) (t : Target) : List Fragment → Result (List Define × String)
  | [] => .ok ([], "")
  | f :: fs => do
    let (ds, text) ← fragment inline s name t f
    let (es, rest) ← fragments name t fs
    return (es ++ ds, text ++ rest)

/-- The lines of a definition, its own last. -/
def defineWith (d : Definition) (t : Target) : Result (List Define) :=
  within (Binding.frame d.name t.binding) do
    let (ds, body) ← fragments inline s d.name t d.body
    return ds ++ [⟨t.symbolOf d.name, body⟩]

variable {inline}

/-- The lines of a definition, when inlining may be nested `depth` deep. -/
def defineAt : (depth : Nat) → Definition → Target → Result (List Define)
  | 0 => defineWith (fun _ _ => .error (.stuck .endless)) s
  | depth + 1 => defineWith (defineAt depth) s

/-- The depth of inlining that is tried first. -/
def shallow : Nat := 64

/-- The lines of a definition. Inlining is shallow as a rule; how deep it can be at all is found out
only if it is not. -/
def define (d : Definition) (t : Target) : Result (List Define) :=
  match defineAt s shallow d t with
  | .error (.stuck .endless) => defineAt s s.inliningBound d t
  | r => r

/-- The first number too large to count the members of a range. -/
def countLimit : Nat := Nat.pow 2 63

/-- The values of a range. All of them are laid out before the first is used, so it has to be
possible to count them. -/
def layOut (r : Interval) : Result (List Int) :=
  if countLimit ≤ r.size then .error (.stuck .uncountableRange) else .ok r.toList

/-- The results of `f` for all choices of one value from each list, in order; the first list varies
slowest. -/
def product {α : Type} : List (List Int) → (f : List Int → Result (List α)) → Result (List α)
  | [], f => f []
  | vs :: rest, f => do
    let results ← vs.mapM fun v => product rest fun ws => f (v :: ws)
    return results.flatten

/-- The lines of a template for all values of its parameters. -/
def instances (name : String) (ranges : List Interval) : Result (List Define) :=
  match s.template? name with
  | none => .error (.ofCause (.templateNotFound name))
  | some t =>
    if ranges.length = t.slotNames.length then do
      let choices ← ranges.mapM layOut
      product choices fun values =>
        define s t.definition ⟨s.owner.name, true, some (t.slotNames.zip values)⟩
    else .error (.ofCause (.rangeCount ranges.length t.slotNames.length))

end MacroModules.Expansion
