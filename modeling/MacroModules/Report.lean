import MacroModules.Position
import MacroModules.Source

/-!
# Reports

A report tells an author what is wrong: a message, then the line it is about with carets under the
place, then the definitions that were being compiled, from the outermost in.

* `Excerpt.lineAt`: the line of a text that a position is on.
* `Excerpt.padding`, `Excerpt.caretCount`: where the carets begin, and how many there are.
* `Excerpt.render`, `Report.render`: the excerpt and the whole report.
-/

namespace MacroModules

namespace Excerpt

/-- The columns a tab takes when shown. -/
def tabWidth : Nat := 4

/-- The number of characters to the left of an index. A negative index counts back from the end, but
not beyond the first character. -/
def countBefore (cs : List Char) (index : Int) : Nat :=
  if 0 ≤ index then index.toNat else (cs.length + index).toNat

/-- The line of a text that a position is on, without carriage returns at its end. -/
def lineAt (text : List Char) (p : Position) : List Char :=
  let rest := text.drop (countBefore text p.lineStart)
  ((rest.takeWhile (· != '\n')).reverse.dropWhile (· == '\r')).reverse

/-- The columns a character takes when shown. -/
def displayWidth (c : Char) : Nat := if c = '\t' then tabWidth else 1

/-- A line as it is shown, with spaces for tabs. -/
def display (line : List Char) : List Char :=
  line.flatMap fun c => if c = '\t' then List.replicate tabWidth ' ' else [c]

/-- The characters of a line to the left of a column. Columns count from one; column zero is that of
the line's last character. -/
def before (line : List Char) (column : Int) : List Char :=
  line.take (countBefore line (column - 1))

/-- The number of columns shown to the left of a column of a line. -/
def padding (line : List Char) (column : Int) : Nat :=
  (before line column).foldl (fun width c => width + displayWidth c) 0

/-- The number of carets under a span: one for each of its characters up to the end of the line, and
at least one. -/
def caretCount (line : List Char) (span : Span) : Nat :=
  let rest := line.length + 1 - span.start.column
  let width :=
    if span.stop.line = span.start.line then span.stop.column - span.start.column else rest
  (max 1 (min width rest)).toNat

/-- The excerpt of a text around a span: an arrow to the place, then the line and the carets behind
a gutter as wide as the line number. -/
def render (name text : String) (span : Span) : String :=
  let line := lineAt text.toList span.start
  let number := Int.repr span.start.line
  let gutter := String.ofList (List.replicate (number.length + 1) ' ')
  gutter ++ "--> " ++ name ++ ":" ++ number ++ ":" ++ Int.repr span.start.column ++ "\n" ++
    gutter ++ "|\n" ++
    number ++ " | " ++ String.ofList (display line) ++ "\n" ++
    gutter ++ "| " ++ String.ofList (List.replicate (padding line span.start.column) ' ') ++
      String.ofList (List.replicate (caretCount line span) '^')

end Excerpt

/-- What is wrong, where, and what was being compiled. -/
structure Report where
  message : String
  place : Option (Span × Source)
  /-- What was being compiled, outermost first. -/
  context : List String
  deriving DecidableEq

namespace Report

/-- The lines that name what was being compiled, the outermost at the given depth; each is indented
under the one before. -/
def chainLines (depth : Nat) : List String → List String
  | [] => []
  | name :: names =>
    (String.ofList (List.replicate (2 * (depth + 1)) ' ') ++ "while compiling `" ++ name ++ "`") ::
      chainLines (depth + 1) names

/-- The lines that name what was being compiled. -/
def chain (context : List String) : String :=
  "\n".intercalate (chainLines 0 context)

/-- The report as a text that names its source `name`; an empty `name` means the source's own. -/
def renderAs (r : Report) (name : String) : String :=
  "error: " ++ r.message ++
    (match r.place with
     | none => ""
     | some (span, source) =>
       "\n" ++ Excerpt.render (if name = "" then source.name else name) source.text span) ++
    (if r.context = [] then "" else "\n" ++ chain r.context)

/-- The report as a text. -/
def render (r : Report) : String := r.renderAs ""

end Report

end MacroModules
