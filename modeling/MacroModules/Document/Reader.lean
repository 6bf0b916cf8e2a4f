import MacroModules.Document.Reader.Statement
import MacroModules.Token.Lexer

/-!
# Reading documents

Outside of modules every token but `@` is raw text; inside, statements follow each other up to the
closing brace.

* `Reader.statements`, `Reader.moduleAt`: the body of a module, and a whole module.
* `Reader.sections`: the sections of a document.
* `Document.read`: a source as a document.
-/

namespace MacroModules

namespace Reader

variable (stop : Position)

/-- The statements of a module, up to its closing brace. -/
def statements (ts : List Token) : Reading (List Statement × List Token) :=
  match ts with
  | [] => .error (refuse stop [] [.name, .atSign, .braceClose])
  | t :: ts =>
    if t.kind = .braceClose then .ok ([], ts)
    else if t.kind = .blank ∨ t.kind = .newline then statements ts
    else if t.kind = .comment then do
      let (ss, rest) ← statements ts
      return (.comment t.text :: ss, rest)
    else if t.kind = .name ∨ t.kind = .atSign then
      match _step : statement stop t ts with
      | .error e => .error e
      | .ok (s, rest) => do
        let (ss, rest) ← statements rest
        return (s :: ss, rest)
    else .error (refuse stop (t :: ts) [.name, .atSign, .braceClose])
termination_by ts.length
decreasing_by
  · simp
  · simp
  · have := (statement_shrinks stop t ts).length_le _step
    simp only [List.length_cons]; omega

theorem statements_shrinks (ts : List Token) : (statements stop ts).Shrinks ts := by
  fun_induction statements stop ts with
  | case1 => exact .error _
  | case2 t ts => exact .ok (List.suffix_cons t ts)
  | case3 t ts _ _ ih => exact ih.mono (List.suffix_cons t ts)
  | case4 t ts _ _ _ ih => exact (ih.mono (List.suffix_cons t ts)).bind fun _ _ h => .ok h
  | case5 => exact .error _
  | case6 t ts _ _ _ _ s rest hs ih =>
    have h := (statement_shrinks stop t ts s rest hs).trans (List.suffix_cons t ts)
    exact (ih.mono h).bind fun _ _ h => .ok h
  | case7 => exact .error _

/-- A module behind its `@`, which is the token given. -/
def moduleAt (sign : Token) (ts : List Token) : Reading (Module × List Token) := do
  let (name, ts) ← moduleName stop ts
  let (_, ts) ← expect stop [.braceOpen] (skip ts)
  let (body, ts) ← statements stop ts
  return (⟨name.text, body, sign.span.start.line, name.span⟩, ts)

theorem moduleAt_shrinks (sign : Token) (ts : List Token) : (moduleAt stop sign ts).Shrinks ts :=
  (expect_skip_shrinks stop _ ts).bind fun _ rest h =>
    ((expect_skip_shrinks stop _ rest).mono h).bind fun _ rest h =>
      ((statements_shrinks stop rest).mono h).bind fun _ _ h => .ok h

/-- The sections of a document: a module at each `@`, and the raw text between modules. -/
def sections (ts : List Token) : Reading (List Section) :=
  match ts with
  | [] => .ok []
  | t :: ts =>
    if t.kind = .atSign then
      match _step : moduleAt stop t ts with
      | .error e => .error e
      | .ok (m, rest) => do
        let ss ← sections rest
        return .code m :: ss
    else do
      let ss ← sections (ts.dropWhile (·.kind != .atSign))
      return .raw (String.join ((t :: ts.takeWhile (·.kind != .atSign)).map (·.text))) :: ss
termination_by ts.length
decreasing_by
  · have := (moduleAt_shrinks stop t ts).length_le _step
    simp only [List.length_cons]; omega
  · have := (List.dropWhile_suffix (l := ts) (·.kind != .atSign)).length_le
    simp only [List.length_cons]; omega

end Reader

/-- A source read as a document. -/
def Document.read (source : Source) : Reading Document := do
  let sections ← Reader.sections (endOf source.text) (tokens source.text)
  return ⟨source, sections⟩

end MacroModules
