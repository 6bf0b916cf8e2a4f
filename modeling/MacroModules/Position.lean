/-!
# Places in a text

A `Position` names a character of a text three ways at once: by line and column, both counted from
one, and by offset, counted from zero. A `Span` runs from one position up to another. Characters are
code points throughout. The numbers are integers, because a span may come from somewhere else than a
text, and then it can say anything.

* `Position.advance`, `Position.nextLine`: how a reader moves along a line and on to the next one.
* `Position.lineStart`: the offset at which a position's line begins.
-/

namespace MacroModules

/-- A place in a text: line and column count from one, the offset from zero. -/
structure Position where
  line : Int
  column : Int
  offset : Int
  deriving DecidableEq

namespace Position

/-- The first character of a text. -/
def first : Position := ⟨1, 1, 0⟩

/-- The place `n` characters further along the same line. -/
def advance (p : Position) (n : Nat) : Position :=
  ⟨p.line, p.column + n, p.offset + n⟩

/-- The same offset, taken as the beginning of the next line. -/
def nextLine (p : Position) : Position :=
  ⟨p.line + 1, 1, p.offset⟩

/-- The offset of the first character on the line of `p`. -/
def lineStart (p : Position) : Int :=
  p.offset + 1 - p.column

@[simp] theorem advance_zero (p : Position) : p.advance 0 = p := by
  simp [advance]

theorem advance_add (p : Position) (m n : Nat) :
    p.advance (m + n) = (p.advance m).advance n := by
  simp [advance, Int.add_assoc]

/-- Moving along a line stays on the line. -/
@[simp] theorem lineStart_advance (p : Position) (n : Nat) :
    (p.advance n).lineStart = p.lineStart := by
  simp only [lineStart, advance]; omega

@[simp] theorem lineStart_nextLine (p : Position) : p.nextLine.lineStart = p.offset := by
  simp only [lineStart, nextLine]; omega

end Position

/-- The stretch of a text from `start` up to and excluding `stop`. -/
structure Span where
  start : Position
  stop : Position
  deriving DecidableEq

/-- The empty stretch at a position. -/
def Span.point (p : Position) : Span := ⟨p, p⟩

end MacroModules
