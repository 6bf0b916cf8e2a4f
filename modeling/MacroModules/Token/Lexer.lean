import MacroModules.Token

/-!
# Cutting a text into tokens

Lexing never fails: a character without a meaning becomes a token of kind `unknown`, and it is for
the reader of the tokens to refuse it where it matters.

* `Lexeme.shape`: the kind of the token a text begins with and how far it reaches. Every class takes
  the longest match.
* `Lexeme.split`: a text as a list of lexemes, each of at least one character
  (`Lexeme.split_flatten`: nothing is lost or added).
* `Lexeme.place`, `tokens`, `tokenize`: the lexemes with their positions, without and with the token
  for the end of the text.
-/

namespace MacroModules

/-- Spaces and tabs. -/
def isBlank (c : Char) : Bool := c == ' ' || c == '\t'

/-- The characters that may continue a word: ASCII letters and digits, and the underscore. -/
def isWordChar (c : Char) : Bool := c.isAlphanum || c == '_'

/-- A token's kind with its text, before it has a position. -/
structure Lexeme where
  kind : Kind
  text : List Char
  deriving DecidableEq

namespace Lexeme

/-- How many characters the rest of a quoted string takes after its opening quote, the closing quote
included. A backslash takes the character behind it along, whatever it is except a line feed; a
string that meets a line end or the end of the text has no closing quote. -/
def stringLength? : List Char → Option Nat
  | [] => none
  | '"' :: _ => some 1
  | '\\' :: c :: cs => if c = '\n' then none else (stringLength? cs).map (· + 2)
  | c :: cs => if c = '\r' ∨ c = '\n' then none else (stringLength? cs).map (· + 1)

/-- How many characters stand before the line end. A carriage return alone does not end a line. -/
def lineLength : List Char → Nat
  | [] => 0
  | '\r' :: '\n' :: _ => 0
  | c :: cs => if c = '\n' then 0 else lineLength cs + 1

/-- The longest of three, two or one dots, given what follows the first. -/
def dots : List Char → Kind × Nat
  | '.' :: '.' :: _ => (.ellipsis, 2)
  | '.' :: _ => (.range, 1)
  | _ => (.dot, 0)

/-- The kind of the token that begins with `c`, when `cs` follows, and the number of characters of
`cs` that belong to it. -/
def shape (c : Char) (cs : List Char) : Kind × Nat :=
  if c = '\n' then (.newline, 0)
  else if c = '\r' ∧ cs.head? = some '\n' then (.newline, 1)
  else if isBlank c then (.blank, (cs.takeWhile isBlank).length)
  else if c.isAlpha || c == '_' then
    let tail := cs.takeWhile isWordChar
    (if '_' ∈ c :: tail then .identifier else .name, tail.length)
  else if c.isDigit then (.number, (cs.takeWhile Char.isDigit).length)
  else if c = '"' then
    match stringLength? cs with
    | some n => (.string, n)
    | none => (.unknown, 0)
  else if c = '/' ∧ cs.head? = some '/' then (.comment, lineLength cs)
  else if c = '.' then dots cs
  else if c = ':' ∧ cs.head? = some ':' then (.scope, 1)
  else ((Kind.ofPunctuation? c).getD .unknown, 0)

/-- The lexemes of a text, from left to right. -/
def split : List Char → List Lexeme
  | [] => []
  | c :: cs =>
    ⟨(shape c cs).1, c :: cs.take (shape c cs).2⟩ :: split (cs.drop (shape c cs).2)
termination_by cs => cs.length
decreasing_by simp only [List.length_drop, List.length_cons]; omega

/-- **Nothing is lost or added:** the lexemes of a text, put together, are the text. -/
theorem split_flatten (cs : List Char) : (split cs).flatMap text = cs := by
  fun_induction split cs with
  | case1 => rfl
  | case2 c cs ih => simp [ih]

/-- Every lexeme covers at least one character. -/
theorem text_ne_nil_of_mem_split {l : Lexeme} {cs : List Char} (h : l ∈ split cs) :
    l.text ≠ [] := by
  fun_induction split cs with
  | case1 => simp at h
  | case2 c cs ih =>
    rcases List.mem_cons.1 h with rfl | h
    · simp
    · exact ih h

/-- The lexeme as a token that begins at `p`. -/
def toToken (l : Lexeme) (p : Position) : Token :=
  ⟨l.kind, String.ofList l.text, ⟨p, p.advance l.text.length⟩⟩

/-- Where the token after `l` begins, when `l` begins at `p`: a newline ends on its own line, and
what follows it opens the next one. -/
def after (l : Lexeme) (p : Position) : Position :=
  let stop := p.advance l.text.length
  if l.kind = .newline then stop.nextLine else stop

/-- The lexemes as tokens in a row, the first of them at `p`. -/
def place (p : Position) : List Lexeme → List Token
  | [] => []
  | l :: ls => l.toToken p :: place (l.after p) ls

/-- The position behind the last of some lexemes in a row, the first of them at `p`. -/
def finish (p : Position) (ls : List Lexeme) : Position :=
  ls.foldl (fun q l => l.after q) p

end Lexeme

/-- The tokens of a text, without one for its end. -/
def tokens (text : String) : List Token :=
  Lexeme.place .first (Lexeme.split text.toList)

/-- The position behind the last character of a text. -/
def endOf (text : String) : Position :=
  Lexeme.finish .first (Lexeme.split text.toList)

/-- The tokens of a text, the last of which stands for its end. -/
def tokenize (text : String) : List Token :=
  tokens text ++ [.endAt (endOf text)]

end MacroModules
