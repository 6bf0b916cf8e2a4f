import MacroModules.Document
import MacroModules.Token

/-!
# Bodies of definitions

The tokens behind a definition's header are its body. A name in it is a parameter, a reference into
another module, a template with arguments, or a word by itself, tried in this order; what lies
between the names is literal text.

* `Body.Header`: what a body is read against, namely the slots, the arguments and whether these are
  open-ended.
* `Body.fragments`: a body as a list of fragments.
-/

namespace MacroModules.Body

/-- What the names of a body may refer to. -/
structure Header where
  /-- The names of the template slots, in slot order. -/
  slots : List String
  /-- The arguments of a function-like definition. -/
  args : List String
  /-- Whether the last argument stands for any number of them. -/
  variadic : Bool
  deriving DecidableEq

/-- The slot of a name. If a name has several, it is the last. -/
def slotOf? (name : String) : List String → Option Nat
  | [] => none
  | s :: ss =>
    match slotOf? name ss with
    | some i => some (i + 1)
    | none => if s = name then some 0 else none

/-- The text a token contributes to a literal. In a variadic definition three dots stand for the
arguments that have no name. -/
def literal (h : Header) (t : Token) : String :=
  if t.kind = .ellipsis ∧ h.variadic then "__VA_ARGS__" else t.text

/-- Whether a name may be an argument of a template. -/
def Header.isArgument (h : Header) (name : String) : Bool :=
  h.slots.contains name || h.args.contains name

/-- The arguments of a template after its `<`, and how many tokens they take with the closing `>`.
An argument and a comma or `>` alternate, with blanks between them; `expectsArg` says that an
argument has to come next. -/
def callArgs? (h : Header) : (expectsArg : Bool) → List Token → Option (List String × Nat)
  | _, [] => none
  | true, t :: ts =>
    if t.kind = .blank then (callArgs? h true ts).map fun r => (r.1, r.2 + 1)
    else if t.kind = .name ∧ h.isArgument t.text then
      (callArgs? h false ts).map fun r => (t.text :: r.1, r.2 + 1)
    else none
  | false, t :: ts =>
    if t.kind = .blank then (callArgs? h false ts).map fun r => (r.1, r.2 + 1)
    else if t.kind = .angleClose then some ([], 1)
    else if t.kind = .comma then (callArgs? h true ts).map fun r => (r.1, r.2 + 1)
    else none

/-- The reference into another module that a name begins, given what follows the name. -/
def foreign? (name : String) : List Token → Option Fragment
  | sep :: object :: _ =>
    if object.kind = .name then
      if sep.kind = .dot then some (.foreign name object.text true)
      else if sep.kind = .scope then some (.foreign name object.text false)
      else none
    else none
  | _ => none

/-- The template with arguments that a name begins, given what follows the name, and how many tokens
it takes behind the name. -/
def call? (h : Header) (name : String) : List Token → Option (Fragment × Nat)
  | [] => none
  | t :: ts =>
    if t.kind = .angleOpen then
      (callArgs? h true ts).map fun r => (.call name r.1, r.2 + 1)
    else none

/-- The fragment that a name begins, given what follows the name, and how many tokens it takes
behind the name. -/
def named (h : Header) (name : String) (ts : List Token) : Fragment × Nat :=
  match slotOf? name h.slots with
  | some i => (.slot i, 0)
  | none =>
    match foreign? name ts with
    | some f => (f, 2)
    | none => (call? h name ts).getD (.word name, 0)

/-- The fragments of a body. Tokens between two names make up one literal. -/
def fragments (h : Header) : List Token → List Fragment
  | [] => []
  | t :: ts =>
    if t.kind = .name then
      (named h t.text ts).1 :: fragments h (ts.drop (named h t.text ts).2)
    else
      .text (String.join ((t :: ts.takeWhile (·.kind != .name)).map (literal h))) ::
        fragments h (ts.dropWhile (·.kind != .name))
termination_by ts => ts.length
decreasing_by
  · simp only [List.length_drop, List.length_cons]; omega
  · have := (List.dropWhile_suffix (l := ts) (·.kind != .name)).length_le
    simp only [List.length_cons]; omega

end MacroModules.Body
