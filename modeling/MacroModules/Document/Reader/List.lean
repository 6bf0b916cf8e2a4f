import MacroModules.Document.Reader.Step

/-!
# Bracketed lists

The parameters and arguments of a definition and the ranges of an `@impl` are lists in brackets,
with commas between the entries. Each entry has to take one of a few shapes; blanks and comments
between its tokens do not matter.

* `Reader.entry`: the texts of an entry that fits, or the fault of one that does not.
* `Reader.entries`, `Reader.list`, `Reader.optionalList`: the whole list.
-/

namespace MacroModules.Reader

/-- The forms an entry of a list may take: the kinds of its tokens, in order. -/
structure Shapes where
  /-- The usual form, against which faults are reported. -/
  main : List Kind
  others : List (List Kind)

/-- All forms, the usual one first. -/
def Shapes.all (shapes : Shapes) : List (List Kind) := shapes.main :: shapes.others

/-- The fault of an entry that fits no shape: its first token that departs from the main shape, or
the token behind the entry if that comes too early. `expected` is what may stand at this place. -/
def misfit (terminator : Token) :
    (shape expected : List Kind) → (entry : List Token) → Fault
  | k :: ks, expected, t :: ts =>
    if t.kind = k then misfit terminator ks ks.head?.toList ts else .unexpectedToken t expected
  | _ :: _, expected, [] => .unexpectedToken terminator expected
  | [], _, ts =>
    .unexpectedToken (ts.headD terminator)
      (if terminator.kind = .comma then [.comma] else [.comma, terminator.kind])

/-- The texts of an entry's tokens, if it fits one of the shapes. -/
def entry (shapes : Shapes) (terminator : Token) (ts : List Token) :
    Reading (List String) :=
  if ts.map (·.kind) ∈ shapes.all then .ok (ts.map (·.text))
  else .error (.fault (misfit terminator shapes.main (shapes.all.filterMap List.head?) ts))

variable (stop : Position) (closer : Kind) (shapes : Shapes)

/-- Whether a token does not end an entry. -/
def isInner (t : Token) : Bool := t.kind != .comma && t.kind != closer

/-- The significant tokens of the entry at the beginning. -/
def significant (ts : List Token) : List Token :=
  (ts.takeWhile (isInner closer)).filter (!·.kind.isInsignificant)

/-- The entries of a list, up to its closing bracket. -/
def entries (ts : List Token) : Reading (List (List String) × List Token) :=
  match _h : ts.dropWhile (isInner closer) with
  | [] => .error (refuse stop [] [.comma, closer])
  | t :: rest => do
    let e ← entry shapes t (significant closer ts)
    if t.kind = closer then return ([e], rest)
    let (es, rest) ← entries rest
    return (e :: es, rest)
termination_by ts.length
decreasing_by
  have := (List.dropWhile_suffix (l := ts) (isInner closer)).length_le
  rw [_h, List.length_cons] at this
  omega

/-- A list behind its opening bracket. It may be empty. -/
def list (ts : List Token) : Reading (List (List String) × List Token) :=
  match skip ts with
  | [] => entries stop closer shapes []
  | t :: rest =>
    if t.kind = closer then .ok ([], rest) else entries stop closer shapes (t :: rest)

/-- A list in brackets that may be left out. The opening bracket has to follow directly. -/
def optionalList (opener : Kind) : List Token → Reading (Option (List String) × List Token)
  | [] => .ok (none, [])
  | t :: ts =>
    if t.kind = opener then do
      let (es, ts) ← list stop closer shapes ts
      return (some es.flatten, ts)
    else .ok (none, t :: ts)

theorem entries_shrinks (ts : List Token) : (entries stop closer shapes ts).Shrinks ts := by
  fun_induction entries stop closer shapes ts with
  | case1 => exact .error _
  | case2 ts t rest hrest ih =>
    have hs : rest <:+ ts :=
      (List.suffix_cons t rest).trans (hrest ▸ List.dropWhile_suffix _)
    exact .after fun _ => .ite (.ok hs) ((ih.mono hs).bind fun _ _ h => .ok h)

theorem list_shrinks (ts : List Token) : (list stop closer shapes ts).Shrinks ts := by
  have hs := skip_suffix ts
  unfold list
  split
  · exact (entries_shrinks stop closer shapes []).mono (List.nil_suffix)
  · rename_i t rest heq
    rw [heq] at hs
    exact .ite (.ok ((List.suffix_cons t rest).trans hs))
      ((entries_shrinks stop closer shapes _).mono hs)

theorem optionalList_shrinks (opener : Kind) (ts : List Token) :
    (optionalList stop closer shapes opener ts).Shrinks ts := by
  cases ts with
  | nil => exact .ok List.suffix_rfl
  | cons t ts =>
    have hts : ts <:+ t :: ts := List.suffix_cons t ts
    exact .ite (((list_shrinks stop closer shapes ts).mono hts).bind fun _ _ h => .ok h)
      (.ok List.suffix_rfl)

end MacroModules.Reader
