import MacroModules.Expansion.Object
import MacroModules.Registry

/-!
# Expanding modules and documents

A module is expanded statement by statement; an import or a template is in scope from its place on.
A document keeps its raw text and has each module replaced by its expansion.

* `Block`: the output for one statement.
* `statement`, `blocks`, `moduleText`: the output of a module, with a line end after each
  statement's.
* `sectionText`, `document`: the output of a document.
-/

namespace MacroModules.Expansion

/-- The output for one statement. -/
inductive Block where
  /-- Some lines, perhaps none. -/
  | defines (ds : List Define)
  /-- A comment. -/
  | comment (value : String)
  deriving DecidableEq

/-- The text of a block. -/
def Block.text : Block → String
  | defines ds => Define.textAll ds
  | comment value => value

variable (r : Registry)

/-- The module of a name to import. -/
def findModule (name : String) : Result Module :=
  match r.find? name with
  | some m => .ok m
  | none => .error (.ofCause (.unknownModule name))

/-- The output for a statement, and the scope behind it. -/
def statement (s : Scope) : Statement → Result (Block × Scope)
  | .object d => return (.defines (← define s d ⟨s.owner.name, true, none⟩), s)
  | .exported d => return (.defines (← define s d ⟨s.owner.name, false, none⟩), s)
  | .template t => return (.defines [], s.addTemplate t)
  | .imports name => return (.defines [], s.addImport (← findModule r name))
  | .instances name ranges => return (.defines (← instances s name ranges), s)
  | .comment value => return (.comment value, s)
  | .unknown _ => return (.defines [], s)

/-- The output for some statements in a row. -/
def statements (s : Scope) : List Statement → Result (List Block)
  | [] => .ok []
  | c :: cs => do
    let (b, s) ← statement r s c
    return b :: (← statements s cs)

/-- The output of a module, by statement. -/
def blocks (m : Module) : Result (List Block) :=
  within m.name (statements r (Scope.start m) m.body)

/-- The text of some blocks; each is followed by a line end. -/
def blocksText (bs : List Block) : String :=
  String.join (bs.map fun b => b.text ++ "\n")

/-- The text of a module's expansion. -/
def moduleText (m : Module) : Result String :=
  return blocksText (← blocks r m)

/-- The text of a section's expansion. An error is placed at the name of the module. -/
def sectionText (source : Source) : Section → Result String
  | .raw text => .ok text
  | .code m => (moduleText r m).mapError (·.locate m.span source)
  | .unknown label => .error (.stuck (.notSection label))

/-- The texts of some sections' expansions. -/
def sectionTexts (source : Source) : List Section → Result (List String)
  | [] => .ok []
  | c :: cs => return (← sectionText r source c) :: (← sectionTexts source cs)

/-- The expansion of a document. -/
def document (d : Document) : Result String :=
  return String.join (← sectionTexts r d.source d.sections)

end MacroModules.Expansion
