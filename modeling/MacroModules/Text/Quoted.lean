import MacroModules.Text.Printable

/-!
# Quoted text

The form in which a text is shown inside a diagnostic or an outline: on one line, between quotes,
with everything that would not print written as an escape. The quote is the single one, unless the
text has a single quote and no double one.

* `Quoted.mark`, `Quoted.escape`, `Quoted.encode`: the choice of the quote, one character, the text
  between the quotes.
* `quote`: the quoted form of a string.
-/

namespace MacroModules.Text

namespace Quoted

/-- The quote around a text: double exactly if the text holds a single quote and no double one. -/
def mark (cs : List Char) : Char :=
  if '\x27' ∈ cs ∧ '"' ∉ cs then '"' else '\x27'

/-- The last `width` hexadecimal digits of `n`, in lower case. -/
def hex : (width n : Nat) → List Char
  | 0, _ => []
  | width + 1, n => hex width (n / 16) ++ [Nat.digitChar (n % 16)]

@[simp] theorem length_hex (width n : Nat) : (hex width n).length = width := by
  induction width generalizing n with
  | zero => rfl
  | succ width ih => simp [hex, ih]

/-- A character between quotes `q`. A code point that does not print takes two, four or eight
digits, the fewest of these that hold it. -/
def escape (q c : Char) : List Char :=
  if c = q ∨ c = '\\' then ['\\', c]
  else if c = '\t' then ['\\', 't']
  else if c = '\n' then ['\\', 'n']
  else if c = '\r' then ['\\', 'r']
  else if isPrintable c then [c]
  else if c.toNat < 0x100 then '\\' :: 'x' :: hex 2 c.toNat
  else if c.toNat < 0x10000 then '\\' :: 'u' :: hex 4 c.toNat
  else '\\' :: 'U' :: hex 8 c.toNat

/-- The text between the quotes, and the quotes around it. -/
def encode (cs : List Char) : List Char :=
  mark cs :: cs.flatMap (escape (mark cs)) ++ [mark cs]

end Quoted

/-- The quoted form of a string. -/
def quote (s : String) : String :=
  String.ofList (Quoted.encode s.toList)

end MacroModules.Text
