import MacroModules.Position

/-!
# Tokens

The alphabet in which a document is read. Every character of a text belongs to exactly one token,
blanks and comments included, so that the text outside modules can be given back unchanged.

* `Kind`: the classes of tokens, with their wording in diagnostics (`Kind.describe`).
* `Kind.ofPunctuation?`: the tokens that are one character long and stand for themselves.
* `Token`: a kind, the text it covers and where that text stands.
-/

namespace MacroModules

/-- The class of a token. -/
inductive Kind where
  /-- Letters and digits, beginning with a letter. -/
  | name
  /-- A word that has an underscore in it. -/
  | identifier
  /-- A quoted string, quotes included. -/
  | string
  /-- Decimal digits. -/
  | number
  /-- From `//` to the end of the line. -/
  | comment
  | angleOpen
  | angleClose
  | parenOpen
  | parenClose
  | braceOpen
  | braceClose
  /-- The sign `@`, which begins modules and commands. -/
  | atSign
  /-- Three dots. -/
  | ellipsis
  /-- Two dots. -/
  | range
  | dot
  /-- Two colons. -/
  | scope
  | comma
  /-- Spaces and tabs. -/
  | blank
  /-- A line end, either LF or CR LF. -/
  | newline
  /-- A character that has no meaning of its own. -/
  | unknown
  | endOfInput
  deriving DecidableEq

namespace Kind

/-- The wording of a kind in diagnostics; a mark that stands for itself is quoted. -/
def describe : Kind → String
  | name => "name"
  | identifier => "identifier"
  | string => "string"
  | number => "number"
  | comment => "comment"
  | angleOpen => "'<'"
  | angleClose => "'>'"
  | parenOpen => "'('"
  | parenClose => "')'"
  | braceOpen => "'\x7b'"
  | braceClose => "'\x7d'"
  | atSign => "'@'"
  | ellipsis => "'...'"
  | range => "'..'"
  | dot => "'.'"
  | scope => "'::'"
  | comma => "','"
  | blank => "whitespace"
  | newline => "newline"
  | unknown => "unknown character"
  | endOfInput => "end of input"

/-- The wordings of several kinds in a row. -/
def describeAll (kinds : List Kind) : String :=
  ", ".intercalate (kinds.map describe)

/-- The kind of a character that is a token by itself wherever it stands. -/
def ofPunctuation? (c : Char) : Option Kind :=
  if c = '<' then some angleOpen
  else if c = '>' then some angleClose
  else if c = '(' then some parenOpen
  else if c = ')' then some parenClose
  else if c = '\x7b' then some braceOpen
  else if c = '\x7d' then some braceClose
  else if c = '@' then some atSign
  else if c = ',' then some comma
  else none

/-- Blanks and comments carry no meaning between the parts of a header or a command. -/
def isInsignificant : Kind → Bool
  | blank | comment => true
  | _ => false

end Kind

/-- A token: its class, the text it covers and where that text stands. -/
structure Token where
  kind : Kind
  text : String
  span : Span
  deriving DecidableEq

/-- The token that stands for the end of a text. -/
def Token.endAt (p : Position) : Token := ⟨.endOfInput, "", .point p⟩

end MacroModules
