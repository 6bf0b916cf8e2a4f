import MacroModules.Document
import MacroModules.Expansion.Define

/-!
# Scopes

What the statements of a module may refer to: the declarations of the module itself, all of them at
any time, and the modules imported and templates declared so far.

* `Scope.resolve`: a name by itself.
* `Scope.call`: a template with arguments.
* `Scope.import?`, `Scope.template?`: imported modules and declared templates; the first of a name
  counts.
* `Scope.inliningBound`: how deep inlining can go without running in circles.
-/

namespace MacroModules.Expansion

/-- What the statements of a module may refer to. -/
structure Scope where
  /-- The module that is being expanded. -/
  owner : Module
  /-- The modules imported so far. -/
  imports : List Module
  /-- The templates declared so far. -/
  templates : List Template
  deriving DecidableEq

namespace Scope

/-- The scope at the beginning of a module. -/
def start (owner : Module) : Scope := ⟨owner, [], []⟩

/-- The scope after one more import. -/
def addImport (s : Scope) (m : Module) : Scope := { s with imports := s.imports ++ [m] }

/-- The scope after one more template. -/
def addTemplate (s : Scope) (t : Template) : Scope := { s with templates := s.templates ++ [t] }

/-- The imported module of a name. -/
def import? (s : Scope) (name : String) : Option Module :=
  s.imports.find? (·.name == name)

/-- The declared template of a name. -/
def template? (s : Scope) (name : String) : Option Template :=
  s.templates.find? (·.definition.name == name)

/-- What a name by itself stands for: the symbol of the first declaration of the module that has the
name, or the name itself if there is none. -/
def resolve (s : Scope) (stem name : String) : String :=
  match s.owner.declaration? name with
  | some d => symbol stem name d.isDecorated
  | none => name

/-- What an argument adds to the symbol of a template: its value if it is bound, else an instruction
to paste the argument once it has a value. -/
def argument (binding : Option Binding) (arg : String) : String :=
  match binding.bind (·.lookup arg) with
  | some v => "_" ++ Int.repr v
  | none => "##_##" ++ arg

/-- What a template with arguments stands for. -/
def call (s : Scope) (stem name : String) (args : List String) (binding : Option Binding) :
    String :=
  s.resolve stem name ++ String.join (args.map (argument binding))

/-- The imported modules that references lead to: the first of each name. -/
def reachable (s : Scope) : List Module :=
  (s.imports.map (·.name)).eraseDups.filterMap s.import?

/-- The number of objects in imported modules. There are no more to inline, so inlining that is
nested deeper has come back to one it is still busy with. -/
def inliningBound (s : Scope) : Nat :=
  (s.reachable.flatMap Module.objects).length

end Scope

end MacroModules.Expansion
