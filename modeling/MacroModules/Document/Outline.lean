import MacroModules.Document
import MacroModules.Text.Quoted

/-!
# Outlines

The outline of a document shows how it has been read: a line for each section, statement and
fragment, indented by depth. Text appears in quoted form, so that every line of the outline is one
line.

* `Outline.lines`: the lines of a document's outline.
* `Outline.text`, `Outline.refused?`: the outline as a text, which breaks off at a fragment that has
  no line, and the label of that fragment.
-/

namespace MacroModules.Outline

/-- A line of an outline, or the label of a fragment that has none. -/
abbrev Line := Except String String

/-- A line at a depth. -/
def indent (depth : Nat) (content : String) : String :=
  String.ofList (List.replicate (2 * depth) ' ') ++ content

/-- A text as the content of a line. -/
def quoted (label value : String) : String :=
  label ++ "(" ++ Text.quote value ++ ")"

/-- The line of a fragment. -/
def fragment : Fragment → Line
  | .text value => .ok (quoted "Expand" value)
  | .slot index => .ok ("Parameter(" ++ Int.repr index ++ ")")
  | .word name => .ok ("OptDependency(" ++ name ++ ")")
  | .foreign owner object inlined =>
    .ok ("External(" ++ owner ++ (if inlined then "." else "::") ++ object ++ ")")
  | .call name args => .ok ("TemplateCall(" ++ name ++ "<" ++ ", ".intercalate args ++ ">)")
  | .unknown label => .error label

/-- An entry of a parameter list; one that repeats a name shows the slot. -/
def param : Param → String
  | .fresh name => name
  | .again slot => "&" ++ Int.repr slot

/-- An interval, both ends included. -/
def interval (r : Interval) : String :=
  Int.repr r.lo ++ ".." ++ Int.repr r.hi

/-- The lines of a definition. -/
def definition (depth : Nat) (label : String) (d : Definition) : List Line :=
  .ok (indent depth (label ++ " " ++ d.name)) ::
    d.body.map fun f => (fragment f).map (indent (depth + 1))

/-- The lines of a statement. -/
def statement (depth : Nat) : Statement → List Line
  | .object d => definition depth "Object" d
  | .template t =>
    definition depth ("Template<" ++ ", ".intercalate (t.params.map param) ++ ">") t.definition
  | .exported d => definition depth "Export" d
  | .imports name => [.ok (indent depth ("Use " ++ name))]
  | .instances template ranges =>
    let shown := ", ".intercalate (ranges.map interval)
    [.ok (indent depth ("Impl " ++ template ++ "<" ++ shown ++ ">"))]
  | .comment value => [.ok (indent depth (quoted "Comment" value))]
  | .unknown _ => []

/-- The lines of a section. -/
def part : Section → List Line
  | .raw text => [.ok (indent 1 (quoted "RawText" text))]
  | .code m =>
    .ok (indent 1 ("Module " ++ m.name ++ " (line " ++ Int.repr m.line ++ ")")) ::
      m.body.flatMap (statement 2)
  | .unknown _ => []

/-- The lines of a document's outline. -/
def lines (d : Document) : List Line :=
  .ok ("SourceFile " ++ d.source.name) :: d.sections.flatMap part

/-- The lines up to the first that is missing. -/
def written : List Line → List String
  | .ok l :: ls => l :: written ls
  | _ => []

/-- The label of the first fragment that has no line. -/
def firstMissing? (ls : List Line) : Option String :=
  ls.findSome? fun
    | .ok _ => none
    | .error label => some label

/-- The outline of a document, as far as it goes. -/
def text (d : Document) : String :=
  String.join ((written (lines d)).map (· ++ "\n"))

/-- The label of the fragment at which the outline of a document breaks off. -/
def refused? (d : Document) : Option String :=
  firstMissing? (lines d)

/-- The wording for a fragment that has no line. -/
def refusal (label : String) : String := "unknown body fragment " ++ label

end MacroModules.Outline
