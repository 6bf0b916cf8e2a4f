import Mathlib.Data.List.Forall2
import MacroModules.Document.Reader

/-!
# The grammar of documents

Which token lists are documents, and as what, said without a reader: each form is a relation between
the tokens it takes up and what they stand for, and says nothing about what is tried first or what
follows.

* `Skip`, `Entry`, `Entries`, `Bracketed`: lists in brackets, with blanks and comments anywhere.
* `Head`, `Closed`, `Defined`: a definition behind its name. A bracket directly behind the name is
  never part of the body (`Closed`).
* `Item`, `Items`, `ModuleForm`, `File`: statements, modules and documents.

Ranges of an `@impl` have numerals for bounds. Which numerals may stand there is left open: the
relations that depend on it have a parameter `numeral`, and `AnyNumeral` admits all of them.
-/

namespace MacroModules.Grammar

/-- Any number of blanks and comments. -/
def Skip (ts : List Token) : Prop := ∀ t ∈ ts, t.kind.isInsignificant = true

/-! ## Lists in brackets -/

/-- Tokens of certain kinds in a row, with blanks and comments around each. -/
inductive Entry : List Kind → List Token → List String → Prop
  | done {gap : List Token} : Skip gap → Entry [] gap []
  | token {k : Kind} {ks : List Kind} {gap ts : List Token} {t : Token} {texts : List String} :
      Skip gap → t.kind = k → Entry ks ts texts → Entry (k :: ks) (gap ++ t :: ts) (t.text :: texts)

/-- One or more entries with commas between them. -/
inductive Entries (shapes : List (List Kind)) : List Token → List (List String) → Prop
  | last {shape : List Kind} {ts : List Token} {e : List String} :
      shape ∈ shapes → Entry shape ts e → Entries shapes ts [e]
  | more {shape : List Kind} {ts us : List Token} {comma : Token} {e : List String}
      {es : List (List String)} : shape ∈ shapes → Entry shape ts e → comma.kind = .comma →
      Entries shapes us es → Entries shapes (ts ++ comma :: us) (e :: es)

/-- A list behind its opening bracket, up to the closing one. -/
inductive Enclosed (closer : Kind) (shapes : List (List Kind)) :
    List Token → List (List String) → Prop
  | empty {gap : List Token} {c : Token} :
      Skip gap → c.kind = closer → Enclosed closer shapes (gap ++ [c]) []
  | entries {ts : List Token} {c : Token} {es : List (List String)} :
      Entries shapes ts es → c.kind = closer → Enclosed closer shapes (ts ++ [c]) es

/-- A list with both its brackets. -/
inductive Bracketed (opener closer : Kind) (shapes : List (List Kind)) :
    List Token → List (List String) → Prop
  | intro {o : Token} {ts : List Token} {es : List (List String)} :
      o.kind = opener → Enclosed closer shapes ts es → Bracketed opener closer shapes (o :: ts) es

/-! ## Definitions -/

/-- The parameters of a template. -/
abbrev ParamList := Bracketed .angleOpen .angleClose [[.name]]

/-- The arguments of a function-like definition. -/
abbrev ArgList := Bracketed .parenOpen .parenClose [[.name], [.ellipsis]]

/-- What may stand between a definition's name and its body. -/
inductive Head : List Token → Reader.Header → Prop
  | plain : Head [] ⟨none, none⟩
  | args {ts : List Token} {es : List (List String)} :
      ArgList ts es → Head ts ⟨none, some es.flatten⟩
  | params {ts : List Token} {es : List (List String)} :
      ParamList ts es → Head ts ⟨some es.flatten, none⟩
  | both {ts us : List Token} {es fs : List (List String)} :
      ParamList ts es → ArgList us fs → Head (ts ++ us) ⟨some es.flatten, some fs.flatten⟩

/-- What follows a header does not go on with it: a bracket that would open a list directly behind
the name, or directly behind the parameters, does open one. -/
structure Closed (h : Reader.Header) (rest : List Token) : Prop where
  paren : h.args = none → ∀ t, rest.head? = some t → t.kind ≠ .parenOpen
  angle : h.args = none → h.params = none → ∀ t, rest.head? = some t → t.kind ≠ .angleOpen

/-- A definition behind its name: a header, and the rest of the line as its body. -/
inductive Defined (name : Token) : List Token → Reader.Header → Definition → Prop
  | intro {head line : List Token} {lineEnd : Token} {h : Reader.Header} :
      Head head h → (∀ t ∈ line, t.kind ≠ .newline) → lineEnd.kind = .newline →
      Closed h (line ++ [lineEnd]) →
      Defined name (head ++ line ++ [lineEnd]) h (h.define name.text line)

/-! ## Statements and documents -/

/-- The number that a numeral denotes. -/
def decimal (digits : String) : Int := Nat.ofDigitChars 10 digits.toList 0

/-- An interval, given by the numerals for its ends with two dots between them. -/
inductive Range (numeral : String → Prop) : List String → Interval → Prop
  | intro {lo dots hi : String} : numeral lo → numeral hi →
      Range numeral [lo, dots, hi] ⟨decimal lo, decimal hi⟩

/-- `@` and the name of a command directly behind it. -/
structure Command (name : String) (sign word : Token) : Prop where
  sign_kind : sign.kind = .atSign
  word_kind : word.kind = .name
  word_text : word.text = name

/-- A token that may name a module. -/
def IsModuleName (t : Token) : Prop := t.kind = .name ∨ t.kind = .identifier

variable (numeral : String → Prop)

/-- A statement. -/
inductive Item : List Token → Statement → Prop
  | object {name : Token} {ts : List Token} {h : Reader.Header} {d : Definition} :
      name.kind = .name → Defined name ts h d → h.params = none → Item (name :: ts) (.object d)
  | template {name : Token} {ts : List Token} {h : Reader.Header} {d : Definition} :
      name.kind = .name → Defined name ts h d → h.params ≠ none →
      Item (name :: ts) (.template ⟨d, h.paramList⟩)
  | imports {sign word name : Token} {gap : List Token} :
      Command "use" sign word → Skip gap → IsModuleName name →
      Item (sign :: word :: gap ++ [name]) (.imports name.text)
  | exported {sign word name : Token} {gap ts : List Token} {h : Reader.Header} {d : Definition} :
      Command "export" sign word → Skip gap → name.kind = .name → Defined name ts h d →
      h.params = none → Item (sign :: word :: gap ++ name :: ts) (.exported d)
  | instances {sign word name lineEnd : Token} {gap ts trail : List Token}
      {es : List (List String)} {rs : List Interval} :
      Command "impl" sign word → Skip gap → name.kind = .name →
      Bracketed .angleOpen .angleClose [[.number, .range, .number]] ts es →
      List.Forall₂ (Range numeral) es rs → Skip trail → lineEnd.kind = .newline →
      Item (sign :: word :: gap ++ name :: ts ++ trail ++ [lineEnd]) (.instances name.text rs)

/-- The body of a module: statements and comments, with blanks and line ends between them. -/
inductive Items : List Token → List Statement → Prop
  | nil : Items [] []
  | space {t : Token} {ts : List Token} {ss : List Statement} :
      t.kind = .blank ∨ t.kind = .newline → Items ts ss → Items (t :: ts) ss
  | comment {t : Token} {ts : List Token} {ss : List Statement} :
      t.kind = .comment → Items ts ss → Items (t :: ts) (.comment t.text :: ss)
  | item {us ts : List Token} {s : Statement} {ss : List Statement} :
      Item numeral us s → Items ts ss → Items (us ++ ts) (s :: ss)

/-- A module: `@`, a name, and a body in braces. -/
inductive ModuleForm : List Token → Module → Prop
  | intro {sign name opener closer : Token} {gap gap' ts : List Token} {body : List Statement} :
      sign.kind = .atSign → Skip gap → IsModuleName name → Skip gap' → opener.kind = .braceOpen →
      Items numeral ts body → closer.kind = .braceClose →
      ModuleForm (sign :: gap ++ name :: gap' ++ opener :: ts ++ [closer])
        ⟨name.text, body, sign.span.start.line, name.span⟩

/-- A document: modules, and between them raw text, which is any run of tokens without `@`. A run is
not cut in two. -/
inductive File : List Token → List Section → Prop
  | nil : File [] []
  | code {us ts : List Token} {m : Module} {ss : List Section} :
      ModuleForm numeral us m → File ts ss → File (us ++ ts) (.code m :: ss)
  | raw {run ts : List Token} {ss : List Section} :
      run ≠ [] → (∀ t ∈ run, t.kind ≠ .atSign) → (∀ text, ss.head? ≠ some (.raw text)) →
      File ts ss → File (run ++ ts) (.raw (String.join (run.map (·.text))) :: ss)

/-- All numerals, whatever their length. -/
def AnyNumeral (_ : String) : Prop := True

/-- The numerals that are not too long to be read. -/
def ShortNumeral (digits : String) : Prop := digits.length ≤ Numeral.maxDigits

end MacroModules.Grammar
