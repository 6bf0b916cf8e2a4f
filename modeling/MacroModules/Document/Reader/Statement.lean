import MacroModules.Document.Body
import MacroModules.Document.Reader.List
import MacroModules.Text.Numeral

/-!
# Reading statements

A definition is a name, a header and the rest of the line. All other statements are commands, which
begin with `@`.

* `Reader.Header`, `Reader.header`, `Reader.line`: the parts of a definition.
* `Reader.imports`, `Reader.exported`, `Reader.instances`: the commands `@use`, `@export` and
  `@impl`.
* `Reader.statement`: any of these.
-/

namespace MacroModules.Reader

/-! ## Definitions -/

/-- What may stand between a definition's name and its body. -/
structure Header where
  /-- The names in angle brackets, for a template. -/
  params : Option (List String)
  /-- The names in parentheses, for a function-like definition. -/
  args : Option (List String)

/-- The parameter list of a header. -/
def Header.paramList (h : Header) : List Param :=
  Param.ofNames (h.params.getD [])

/-- What the names of a body under this header may refer to. -/
def Header.scope (h : Header) : Body.Header :=
  ⟨Param.slotNames h.paramList, h.args.getD [], (h.args.getD []).contains "..."⟩

/-- The arguments of a function-like definition as they stand in front of its body. -/
def Header.argText (h : Header) : List Fragment :=
  h.args.toList.map fun args => .text ("(" ++ ", ".intercalate args ++ ")")

/-- The definition with this header and the tokens of its line as a body. -/
def Header.define (h : Header) (name : String) (line : List Token) : Definition :=
  ⟨name, h.argText ++ Body.fragments h.scope line⟩

/-- The tokens up to the line end. -/
def line (ts : List Token) : List Token :=
  ts.takeWhile (·.kind != .newline)

/-- The tokens behind the line end. -/
def afterLine (ts : List Token) : List Token :=
  (ts.dropWhile (·.kind != .newline)).tail

theorem afterLine_suffix (ts : List Token) : afterLine ts <:+ ts :=
  (List.tail_suffix _).trans (List.dropWhile_suffix _)

variable (stop : Position)

/-- The position at which the line ends. -/
def lineEnd (ts : List Token) : Position :=
  match ts.find? (·.kind == .newline) with
  | some t => t.span.start
  | none => stop

/-- The header of a definition, behind its name. -/
def header (ts : List Token) : Reading (Header × List Token) := do
  let (params, ts) ← optionalList stop .angleClose ⟨[.name], []⟩ .angleOpen ts
  let (args, ts) ← optionalList stop .parenClose ⟨[.name], [[.ellipsis]]⟩ .parenOpen ts
  return (⟨params, args⟩, ts)

/-- A definition behind its name. -/
def definition (name : Token) (ts : List Token) : Reading (Statement × List Token) := do
  let (h, ts) ← header stop ts
  let d := h.define name.text (line ts)
  return (if h.params.isSome then .template ⟨d, h.paramList⟩ else .object d, afterLine ts)

/-! ## Commands -/

/-- The name of a module. -/
def moduleName (ts : List Token) : Reading (Token × List Token) :=
  expect stop [.identifier, .name] (skip ts)

/-- The rest of `@use`. -/
def imports (ts : List Token) : Reading (Statement × List Token) := do
  let (name, ts) ← moduleName stop ts
  return (.imports name.text, ts)

/-- The rest of `@export`. A template cannot be exported. -/
def exported (ts : List Token) : Reading (Statement × List Token) := do
  let (name, ts) ← expect stop [.name] (skip ts)
  let (h, ts) ← header stop ts
  if h.params.isSome then
    .error (.fault (.wrongArgument "@export" "template" ["object"]
      ⟨name.span.start, lineEnd stop ts⟩))
  else
    return (.exported (h.define name.text (line ts)), afterLine ts)

/-- A range bound. -/
def bound (digits : String) : Reading Int :=
  match Numeral.read digits.toList with
  | .ok n => .ok n
  | .error digits => .error (.longBound digits)

/-- The intervals of an `@impl` from the texts of its entries, `lo`, two dots and `hi`. -/
def intervals : List (List String) → Reading (List Interval)
  | [lo, _, hi] :: es => do
    let lo ← bound lo
    let hi ← bound hi
    let rs ← intervals es
    return ⟨lo, hi⟩ :: rs
  | _ => return []

/-- The rest of `@impl`. Nothing may follow it on its line. -/
def instances (ts : List Token) : Reading (Statement × List Token) := do
  let (name, ts) ← expect stop [.name] (skip ts)
  let (_, ts) ← expect stop [.angleOpen] ts
  let (es, ts) ← list stop .angleClose ⟨[.number, .range, .number], []⟩ ts
  let rs ← intervals es
  let (_, ts) ← expect stop [.newline] (skip ts)
  return (.instances name.text rs, ts)

/-- A command behind its `@`. The name of the command has to follow directly. -/
def command (ts : List Token) : Reading (Statement × List Token) := do
  let (name, ts) ← expect stop [.name] ts
  if name.text = "use" then imports stop ts
  else if name.text = "export" then exported stop ts
  else if name.text = "impl" then instances stop ts
  else .error (.fault (.unknownCommand name))

/-- The statement that a name or `@` begins. -/
def statement (t : Token) (ts : List Token) : Reading (Statement × List Token) :=
  if t.kind = .name then definition stop t ts else command stop ts

/-! ## What is left is a suffix of what was given -/

theorem header_shrinks (ts : List Token) : (header stop ts).Shrinks ts :=
  (optionalList_shrinks stop _ _ _ ts).bind fun _ rest h =>
    ((optionalList_shrinks stop _ _ _ rest).mono h).bind fun _ _ h => .ok h

theorem definition_shrinks (name : Token) (ts : List Token) :
    (definition stop name ts).Shrinks ts :=
  (header_shrinks stop ts).bind fun _ rest h => .ok ((afterLine_suffix rest).trans h)

theorem expect_skip_shrinks (kinds : List Kind) (ts : List Token) :
    (expect stop kinds (skip ts)).Shrinks ts :=
  (expect_shrinks stop kinds _).mono (skip_suffix ts)

theorem imports_shrinks (ts : List Token) : (imports stop ts).Shrinks ts :=
  (expect_skip_shrinks stop _ ts).bind fun _ _ h => .ok h

theorem exported_shrinks (ts : List Token) : (exported stop ts).Shrinks ts :=
  (expect_skip_shrinks stop _ ts).bind fun _ rest h =>
    ((header_shrinks stop rest).mono h).bind fun _ rest h =>
      .ite (.error _) (.ok ((afterLine_suffix rest).trans h))

theorem instances_shrinks (ts : List Token) : (instances stop ts).Shrinks ts :=
  (expect_skip_shrinks stop _ ts).bind fun _ rest h =>
    ((expect_shrinks stop _ rest).mono h).bind fun _ rest h =>
      ((list_shrinks stop _ _ rest).mono h).bind fun _ rest h =>
        .after fun _ => ((expect_skip_shrinks stop _ rest).mono h).bind fun _ _ h => .ok h

theorem command_shrinks (ts : List Token) : (command stop ts).Shrinks ts :=
  (expect_shrinks stop _ ts).bind fun _ rest h =>
    .ite ((imports_shrinks stop rest).mono h)
      (.ite ((exported_shrinks stop rest).mono h)
        (.ite ((instances_shrinks stop rest).mono h) (.error _)))

theorem statement_shrinks (t : Token) (ts : List Token) : (statement stop t ts).Shrinks ts :=
  .ite (definition_shrinks stop t ts) (command_shrinks stop ts)

end MacroModules.Reader
