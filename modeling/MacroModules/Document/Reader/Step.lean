import MacroModules.Document.Fault

/-!
# Reading steps

A document is read token by token, and reading stops at the first fault. A reading step takes the
tokens that are left and gives what it has read with the tokens behind it.

* `Reading`: the result of a reading step.
* `Reader.expect`: the step that reads one token of a certain kind.
* `Reading.Shrinks`: what is left behind a step is a suffix of what was given. All steps have this
  property, which is why reading ends.
-/

namespace MacroModules

/-- What has been read, or why reading stopped. -/
abbrev Reading := Except ReadFailure

namespace Reading

variable {α β : Type} {ts : List Token}

/-- If the step succeeds, then with a suffix of `ts` left. -/
def Shrinks (ts : List Token) (x : Reading (α × List Token)) : Prop :=
  ∀ a rest, x = .ok (a, rest) → rest <:+ ts

theorem Shrinks.error (e : ReadFailure) : Shrinks ts (.error e : Reading (α × List Token)) :=
  fun _ _ h => by cases h

theorem Shrinks.ok {a : α} {rest : List Token} (h : rest <:+ ts) :
    Shrinks ts (.ok (a, rest) : Reading (α × List Token)) :=
  fun _ _ e => by cases e; exact h

/-- One step after another. -/
theorem Shrinks.bind {x : Reading (α × List Token)} {f : α × List Token → Reading (β × List Token)}
    (hx : Shrinks ts x) (hf : ∀ a rest, rest <:+ ts → Shrinks ts (f (a, rest))) :
    Shrinks ts (x >>= f) := by
  cases x with
  | error e => exact .error e
  | ok p => exact hf p.1 p.2 (hx p.1 p.2 rfl)

/-- A step after something that reads no tokens. -/
theorem Shrinks.after {x : Reading α} {f : α → Reading (β × List Token)}
    (hf : ∀ a, Shrinks ts (f a)) : Shrinks ts (x >>= f) := by
  cases x with
  | error e => exact .error e
  | ok a => exact hf a

/-- One of two steps. -/
theorem Shrinks.ite {p : Prop} [Decidable p] {x y : Reading (α × List Token)} (hx : Shrinks ts x)
    (hy : Shrinks ts y) : Shrinks ts (if p then x else y) := by
  split
  · exact hx
  · exact hy

theorem Shrinks.mono {us : List Token} {x : Reading (α × List Token)} (hx : Shrinks us x)
    (h : us <:+ ts) : Shrinks ts x :=
  fun a rest e => (hx a rest e).trans h

theorem Shrinks.length_le {x : Reading (α × List Token)} {a : α} {rest : List Token}
    (hx : Shrinks ts x) (h : x = .ok (a, rest)) : rest.length ≤ ts.length :=
  (hx a rest h).length_le

end Reading

namespace Reader

/-- The next token is not among the expected ones, or the text ends, which it does at `stop`. -/
def refuse (stop : Position) (ts : List Token) (expected : List Kind) : ReadFailure :=
  match ts with
  | [] => .fault (.unexpectedEnd (.point stop) expected)
  | t :: _ => .fault (.unexpectedToken t expected)

/-- The tokens from the first significant one on. -/
def skip (ts : List Token) : List Token :=
  ts.dropWhile (·.kind.isInsignificant)

theorem skip_suffix (ts : List Token) : skip ts <:+ ts := List.dropWhile_suffix _

/-- The next token, which has to be of one of the kinds. -/
def expect (stop : Position) (kinds : List Kind) : List Token → Reading (Token × List Token)
  | [] => .error (refuse stop [] kinds)
  | t :: ts => if t.kind ∈ kinds then .ok (t, ts) else .error (refuse stop (t :: ts) kinds)

theorem expect_shrinks (stop : Position) (kinds : List Kind) (ts : List Token) :
    (expect stop kinds ts).Shrinks ts := by
  cases ts with
  | nil => exact .error _
  | cons t ts => exact .ite (.ok (List.suffix_cons t ts)) (.error _)

end Reader

end MacroModules
