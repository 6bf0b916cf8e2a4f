import MacroModules.Config.Toml.Scalar

/-!
# TOML documents

A document is read line by line into a table. A line gives a key a value, or it is a header, which
opens a table for the lines behind it.

* `key?`, `value`: keys and values.
* `Draft`: a document as far as it has been read, with what may no longer be changed in it.
* `read`: a text as a table, or the first line that is at fault.
-/

namespace MacroModules.Toml

/-! ## Keys -/

/-- The characters of a key that needs no quotes. -/
def isKeyChar (c : Char) : Bool := c.isAlphanum || c == '-' || c == '_'

/-- A part of a key, and how many characters it takes. -/
def keyPart? (cs : List Char) : Option (String × Nat) :=
  let bare := cs.takeWhile isKeyChar
  if bare = [] then (lineString? cs).map fun r => (r.1, cs.length - r.2.length)
  else some (String.ofList bare, bare.length)

/-- A key, which is one or more parts with dots between them, and what follows it. -/
def key? (cs : List Char) : Option (List String × List Char) :=
  match keyPart? cs with
  | none => none
  | some (part, n) =>
    match _h : (cs.drop n).dropWhile isBlank with
    | '.' :: rest => (key? (rest.dropWhile isBlank)).map fun r => (part :: r.1, r.2)
    | rest => some ([part], rest)
termination_by cs.length
decreasing_by
  have h₁ := (List.dropWhile_suffix (l := cs.drop n) isBlank).length_le
  have h₂ := (List.dropWhile_suffix (l := rest) isBlank).length_le
  rw [_h] at h₁
  simp only [List.length_cons, List.length_drop] at h₁
  omega

/-! ## Values -/

/-- What follows a comment, if there is one at the beginning of a text. -/
def comment (cs : List Char) : Except Fault (List Char) :=
  if cs.head? = some '#' then
    if (cs.takeWhile (· != '\n')).any isControl then .error .malformed
    else .ok (cs.dropWhile (· != '\n'))
  else .ok cs

/-- What follows the blanks, line ends and comments at the beginning of a text. -/
def gap (cs : List Char) : Except Fault (List Char) :=
  match _h : cs.dropWhile isGap with
  | '#' :: rest =>
    if (rest.takeWhile (· != '\n')).any isControl then .error .malformed
    else gap (rest.dropWhile (· != '\n'))
  | rest => .ok rest
termination_by cs.length
decreasing_by
  have h₁ := (List.dropWhile_suffix (l := cs) isGap).length_le
  have h₂ := (List.dropWhile_suffix (l := rest) (· != '\n')).length_le
  rw [_h] at h₁
  simp only [List.length_cons] at h₁
  omega

section Collections

variable (item : List Char → Except Fault (Value × List Char))

/-- The values of a list behind its opening bracket or a comma, at most `fuel` of them, and what
follows the closing bracket. A comma may stand behind the last value. -/
def elements : (fuel : Nat) → List Char → Except Fault (List Value × List Char)
  | 0, _ => .error .malformed
  | fuel + 1, cs => do
    let cs ← gap cs
    if cs.head? = some ']' then return ([], cs.tail)
    let (v, cs) ← item cs
    let cs ← gap cs
    if cs.head? = some ']' then return ([v], cs.tail)
    if cs.head? = some ',' then
      let (vs, cs) ← elements fuel cs.tail
      return (v :: vs, cs)
    .error .malformed

/-- A key, an equals sign and a value, and what follows them. -/
def entry (cs : List Char) : Except Fault (List String × Value × List Char) :=
  match key? cs with
  | some (key, '=' :: rest) => do
    let (v, rest) ← item (rest.dropWhile isBlank)
    return (key, v, rest)
  | _ => .error .malformed

/-- The entries of a table in braces behind the opening one or a comma, at most `fuel` of them, and
what follows the closing brace. Lists and tables among the entries, whose keys are in `closed`, take
no more entries. -/
def inlineEntries : (fuel : Nat) → (es : Entries) → (closed : List (List String)) → List Char →
    Except Fault (Entries × List Char)
  | 0, _, _, _ => .error .malformed
  | fuel + 1, es, closed, cs => do
    let (key, v, cs) ← entry item cs
    if closed.any (·.isPrefixOf key) then .error .conflict
    match es.modify false (Entries.insert (key.getLastD "") v) key.dropLast with
    | none => .error .conflict
    | some es =>
      let cs := cs.dropWhile isBlank
      if cs.head? = some '\x7d' then return (es, cs.tail)
      if cs.head? = some ',' then
        inlineEntries fuel es (if v.isCollection then key :: closed else closed)
          (cs.tail.dropWhile isBlank)
      else .error .malformed

end Collections

/-- A value with lists and tables at most `depth` deep inside of each other, and what follows it. -/
def value : (depth : Nat) → List Char → Except Fault (Value × List Char)
  | 0, _ => .error .malformed
  | depth + 1, cs =>
    if cs.head? = some '[' then
      (elements (value depth) cs.length cs.tail).map fun r => (.list r.1, r.2)
    else if cs.head? = some '\x7b' then
      let cs := cs.tail.dropWhile isBlank
      if cs.head? = some '\x7d' then .ok (.table [], cs.tail)
      else (inlineEntries (value depth) cs.length [] [] cs).map fun r => (.table r.1, r.2)
    else scalar cs

/-! ## Statements -/

/-- A document as far as it has been read. -/
structure Draft where
  entries : Entries
  /-- The table that the last header has opened. -/
  header : List String
  /-- The lists and tables that take no more entries, nor do the tables inside of them. -/
  closed : List (List String)
  /-- The tables that no header may open any more. -/
  opened : List (List String)
  /-- The tables that will be counted among these from the next header on. -/
  pending : List (List String)

namespace Draft

/-- A document of which nothing has been read. -/
def empty : Draft := ⟨[], [], [], [], []⟩

/-- Whether a table takes no more entries. -/
def isClosed (d : Draft) (path : List String) : Bool :=
  d.closed.any (·.isPrefixOf path)

/-- The tables through which keys have led so far count as opened from a header on. -/
def settle (d : Draft) : Draft :=
  { d with opened := d.opened ++ d.pending, pending := [] }

/-- A header in single brackets opens a table. -/
def openTable (d : Draft) (path : List String) : Except Fault Draft :=
  if d.opened.contains path || d.isClosed path then .error .conflict
  else
    match d.entries.modify true some path with
    | none => .error .conflict
    | some es => .ok { d with entries := es, header := path, opened := d.opened ++ [path] }

/-- A header in double brackets opens one more table in a list. What was said about the tables
inside of the one before does not count for it. -/
def appendTable (d : Draft) (path : List String) : Except Fault Draft :=
  if d.isClosed path then .error .conflict
  else
    match d.entries.modify true (Entries.append (path.getLastD "")) path.dropLast with
    | none => .error .conflict
    | some es =>
      .ok { d with
        entries := es
        header := path
        closed := d.closed.filter fun p => !path.isPrefixOf p
        opened := (d.opened.filter fun p => !path.isPrefixOf p) ++ [path] }

/-- The tables below the last header through which a key leads. -/
def passed (d : Draft) (key : List String) : List (List String) :=
  (List.range (key.length - 1)).map fun i => d.header ++ key.take (i + 1)

/-- Gives a key a value. -/
def insert (d : Draft) (key : List String) (v : Value) : Except Fault Draft :=
  let parent := d.header ++ key.dropLast
  if (d.passed key).any d.opened.contains || d.isClosed parent then .error .conflict
  else
    match d.entries.modify true (Entries.insert (key.getLastD "") v) parent with
    | none => .error .conflict
    | some es =>
      .ok { d with
        entries := es
        pending := d.pending ++ d.passed key
        closed := if v.isCollection then d.closed ++ [d.header ++ key] else d.closed }

end Draft

/-- The key of a header behind its opening brackets, and what follows the closing ones. -/
def headerKey (closing : String) (cs : List Char) : Except Fault (List String × List Char) :=
  match key? (cs.dropWhile isBlank) with
  | some (path, rest) =>
    if closing.toList.isPrefixOf rest then .ok (path, rest.drop closing.length)
    else .error .malformed
  | none => .error .malformed

/-- A statement at the beginning of a text: the document behind it, and what follows. Lists and
tables cannot be deeper inside of each other than the text is long. -/
def statement (d : Draft) (cs : List Char) : Except Fault (Draft × List Char) := do
  if "[[".toList.isPrefixOf cs then
    let (path, rest) ← headerKey "]]" (cs.drop 2)
    return (← d.settle.appendTable path, rest)
  else if cs.head? = some '[' then
    let (path, rest) ← headerKey "]" cs.tail
    return (← d.settle.openTable path, rest)
  else
    let (key, v, rest) ← entry (value cs.length) cs
    return (← d.insert key v, rest)

/-- The document behind the statements of a text, at most `fuel` of them, or what is wrong with one
of them and the text from there on. -/
def statements : (fuel : Nat) → Draft → List Char → Except (Fault × List Char) Draft
  | 0, d, _ => .ok d
  | fuel + 1, d, cs =>
    match cs.dropWhile isBlank with
    | [] => .ok d
    | '\n' :: rest => statements fuel d rest
    | start => do
      let located := fun (e : Fault) => (e, start)
      let (d, rest) ←
        if start.head? = some '#' then .ok (d, start) else (statement d start).mapError located
      let rest ← (comment (rest.dropWhile isBlank)).mapError located
      match rest with
      | [] => return d
      | '\n' :: rest' => statements fuel d rest'
      | _ => .error (.malformed, start)

/-- A text with every CR LF as LF. -/
def unixLines : List Char → List Char
  | '\r' :: '\n' :: cs => '\n' :: unixLines cs
  | c :: cs => c :: unixLines cs
  | [] => []

/-- A text as a table, or what is wrong with it and on which line. A text has fewer statements than
characters, so its length is fuel enough. -/
def read (text : String) : Except (Fault × Nat) Entries :=
  let cs := unixLines text.toList
  match statements (cs.length + 1) .empty cs with
  | .ok d => .ok d.entries
  | .error (f, rest) => .error (f, cs.count '\n' - rest.count '\n' + 1)

end MacroModules.Toml
