import MacroModules.Position
import MacroModules.Source

/-!
# Documents

A document is a source text read as a sequence of sections: raw text, which expansion passes
through, and modules, which it expands. A module is an ordered list of statements. The definitions
in it have bodies made of fragments.

* `Fragment`: a piece of a body, from literal text to a reference into another module.
* `Definition`, `Template`: a body under a name, plain or with integer parameters.
* `Statement`, `Module`, `Section`, `Document`: the layers above.
* `Module.declaration?`, `Module.object?`: what a name means inside and outside of its module.
-/

namespace MacroModules

/-- A piece of a definition's body. -/
inductive Fragment where
  /-- Literal text. -/
  | text (value : String)
  /-- The value bound to a parameter slot. Slots count from zero, or back from the last one, which
  then is `-1`; reading a text never yields a negative index. -/
  | slot (index : Int)
  /-- A name by itself, which may or may not be declared in the module. -/
  | word (name : String)
  /-- An object of another module: inlined for `A.B`, only named for `A::B`. -/
  | foreign (owner object : String) (inlined : Bool)
  /-- A template with arguments, `T<x, y>`. -/
  | call (name : String) (args : List String)
  /-- Something that is no part of a body, known by a label. Reading a text never yields one;
  expansion skips it, and an outline has no line for it. -/
  | unknown (label : String)
  deriving DecidableEq

/-- An entry of a template's parameter list. -/
inductive Param where
  /-- A new name, which opens the next slot. -/
  | fresh (name : String)
  /-- A repeated name, which stands for a slot opened before. -/
  | again (slot : Int)
  deriving DecidableEq

namespace Param

/-- The parameter list written with some names, when the slots in `seen` are open already. -/
def ofNamesAfter (seen : List String) : List String → List Param
  | [] => []
  | name :: names =>
    match seen.idxOf? name with
    | some i => again i :: ofNamesAfter seen names
    | none => fresh name :: ofNamesAfter (seen ++ [name]) names

/-- The parameter list written with some names: a name opens a slot where it occurs first and stands
for that slot from then on. -/
def ofNames (names : List String) : List Param :=
  ofNamesAfter [] names

/-- The name of the slot an entry opens. -/
def freshName? : Param → Option String
  | fresh name => some name
  | again _ => none

/-- The names of the slots of a parameter list, in slot order. -/
def slotNames (params : List Param) : List String :=
  params.filterMap freshName?

/-- Every name gives one entry. -/
theorem length_ofNamesAfter (seen names : List String) :
    (ofNamesAfter seen names).length = names.length := by
  fun_induction ofNamesAfter seen names <;> simp_all

end Param

/-- A body under a name. -/
structure Definition where
  name : String
  body : List Fragment
  deriving DecidableEq

/-- A definition with integer parameters. -/
structure Template where
  definition : Definition
  params : List Param
  deriving DecidableEq

/-- The names of a template's slots, in slot order. -/
def Template.slotNames (t : Template) : List String := Param.slotNames t.params

/-- All integers from `lo` to `hi`, both included. -/
structure Interval where
  lo : Int
  hi : Int
  deriving DecidableEq

/-- The number of members of an interval. There is none if `hi` lies below `lo`. -/
def Interval.size (r : Interval) : Nat := (r.hi + 1 - r.lo).toNat

/-- The members of an interval in increasing order. -/
def Interval.toList (r : Interval) : List Int :=
  (List.range r.size).map fun (i : Nat) => r.lo + i

/-- A statement of a module. -/
inductive Statement where
  /-- A definition that keeps to its module, under a decorated symbol. -/
  | object (definition : Definition)
  /-- A template. -/
  | template (template : Template)
  /-- `@use`: another module may be referred to from here on. -/
  | imports (name : String)
  /-- `@export`: a definition under a plain symbol. -/
  | exported (definition : Definition)
  /-- `@impl`: a template is instantiated, with one interval for each slot. -/
  | instances (template : String) (ranges : List Interval)
  /-- A comment, which goes to the output. -/
  | comment (value : String)
  /-- Something that is no statement, known by a label. Reading a text never yields one; expansion
  and outline pass over it. -/
  | unknown (label : String)
  deriving DecidableEq

namespace Statement

/-- The definition that a statement declares in its module. -/
def declared? : Statement → Option Definition
  | object d | exported d => some d
  | template t => some t.definition
  | _ => none

/-- The definition that other modules may refer to. -/
def object? : Statement → Option Definition
  | object d | exported d => some d
  | _ => none

/-- Whether what a statement declares goes under a decorated symbol. -/
def isDecorated : Statement → Bool
  | exported _ => false
  | _ => true

/-- Whether a statement declares the name. -/
def declares (s : Statement) (name : String) : Bool :=
  s.declared?.any (·.name == name)

end Statement

/-- A module: statements in order, under a name. -/
structure Module where
  name : String
  body : List Statement
  /-- The line on which the module begins. -/
  line : Int
  /-- Where the module's name stands. -/
  span : Span
  deriving DecidableEq

namespace Module

/-- The first statement that declares a name; it decides what the name means inside the module. -/
def declaration? (m : Module) (name : String) : Option Statement :=
  m.body.find? (·.declares name)

/-- The definitions that other modules may refer to; templates do not count. -/
def objects (m : Module) : List Definition :=
  m.body.filterMap Statement.object?

/-- The definition of a name that other modules may refer to. The first of a name counts. -/
def object? (m : Module) (name : String) : Option Definition :=
  m.objects.find? (·.name == name)

end Module

/-- A part of a document. -/
inductive Section where
  /-- Text outside of all modules. -/
  | raw (text : String)
  /-- A module. -/
  | code (body : Module)
  /-- Something that is no section, known by a label. Reading a text never yields one; an outline
  passes over it, and expansion cannot. -/
  | unknown (label : String)
  deriving DecidableEq

/-- The module a section holds. -/
def Section.module? : Section → Option Module
  | .code m => some m
  | _ => none

/-- A source and the sections it has been read as. -/
structure Document where
  source : Source
  sections : List Section
  deriving DecidableEq

/-- The modules of a document, in order. -/
def Document.modules (d : Document) : List Module :=
  d.sections.filterMap Section.module?

end MacroModules
