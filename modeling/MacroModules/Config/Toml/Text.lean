import MacroModules.Token.Lexer

/-!
# TOML strings

A string stands between double quotes, with escapes, or between single quotes, without. Three quotes
open a string that may run over several lines.

* `escape?`: what a backslash stands for together with the characters behind it.
* `content?`: a string behind its opening quotes.
* `lineString?`, `string?`: a string on one line, and any string.
-/

namespace MacroModules.Toml

/-- The characters that may stand neither in a comment nor in a string: controls, except the tab. -/
def isControl (c : Char) : Bool :=
  (c.toNat < 0x20 && c != '\t') || c.toNat == 0x7f

/-- Blanks and line ends. -/
def isGap (c : Char) : Bool := isBlank c || c == '\n'

/-- The value of a hexadecimal digit. -/
def hexDigit? (c : Char) : Option Nat :=
  if c.isDigit then some (c.toNat - '0'.toNat)
  else if 'a' ≤ c ∧ c ≤ 'f' then some (c.toNat - 'a'.toNat + 10)
  else if 'A' ≤ c ∧ c ≤ 'F' then some (c.toNat - 'A'.toNat + 10)
  else none

/-- The character whose code point is given in so many hexadecimal digits at the beginning of a
text. -/
def codePoint? (digits : Nat) (cs : List Char) : Option Char :=
  if cs.length < digits then none
  else
    match (cs.take digits).mapM hexDigit? with
    | none => none
    | some ds =>
      let n := ds.foldl (fun n d => n * 16 + d) 0
      if n.isValidChar then some (Char.ofNat n) else none

/-- The character that a letter stands for behind a backslash. -/
def letter? (c : Char) : Option Char :=
  if c = 'b' then some '\x08'
  else if c = 't' then some '\t'
  else if c = 'n' then some '\n'
  else if c = 'f' then some '\x0c'
  else if c = 'r' then some '\r'
  else if c = '"' ∨ c = '\\' then some c
  else none

/-- The number of blanks and line ends that a backslash at the end of a line swallows. -/
def joint? (cs : List Char) : Option Nat :=
  match cs.dropWhile isBlank with
  | [] => some cs.length
  | c :: _ => if c = '\n' then some (cs.takeWhile isGap).length else none

/-- What a backslash stands for together with the characters behind it, and how many these are. -/
def escape? (multiline : Bool) : List Char → Option (List Char × Nat)
  | [] => none
  | c :: cs =>
    if c = 'u' then (codePoint? 4 cs).map fun d => ([d], 5)
    else if c = 'U' then (codePoint? 8 cs).map fun d => ([d], 9)
    else if multiline && isGap c then (joint? (c :: cs)).map fun n => ([], n)
    else (letter? c).map fun d => ([d], 1)

/-- A string between quotes `q` behind the opening ones, and what follows the closing ones. Only
double quotes allow for escapes. -/
def content? (q : Char) (multiline : Bool) (cs : List Char) : Option (List Char × List Char) :=
  match cs with
  | [] => none
  | c :: cs =>
    if c = q ∧ !multiline then some ([], cs)
    else if c = q ∧ [q, q].isPrefixOf cs then some ([], cs.drop 2)
    else if c = '\\' ∧ q = '"' then
      match escape? multiline cs with
      | none => none
      | some (ds, n) => (content? q multiline (cs.drop n)).map fun r => (ds ++ r.1, r.2)
    else if isControl c && !(multiline && c == '\n') then none
    else (content? q multiline cs).map fun r => (c :: r.1, r.2)
termination_by cs.length
decreasing_by all_goals simp only [List.length_drop, List.length_cons]; omega

/-- Whether a character opens a string. -/
def isQuote (c : Char) : Bool := c == '"' || c == '\x27'

/-- A string on one line at the beginning of a text, and what follows it. -/
def lineString? : List Char → Option (String × List Char)
  | [] => none
  | q :: cs =>
    if isQuote q then (content? q false cs).map fun r => (String.ofList r.1, r.2) else none

/-- A string over several lines behind its opening quotes, and what follows it. A line end right
behind the opening quotes does not count; one or two more quotes in front of the closing ones do. -/
def block? (q : Char) (cs : List Char) : Option (String × List Char) :=
  let body := if cs.head? = some '\n' then cs.tail else cs
  (content? q true body).map fun r =>
    let more := (r.2.takeWhile (· == q)).take 2
    (String.ofList (r.1 ++ more), r.2.drop more.length)

/-- A string at the beginning of a text, and what follows it. -/
def string? : List Char → Option (String × List Char)
  | [] => none
  | q :: cs =>
    if isQuote q ∧ [q, q].isPrefixOf cs then block? q (cs.drop 2) else lineString? (q :: cs)

end MacroModules.Toml
