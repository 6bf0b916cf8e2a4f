import MacroModules.Config.Toml.Text
import MacroModules.Config.Toml.Value
import MacroModules.Text.Numeral

/-!
# TOML scalars

The values that have no other values in them.

* `based?`, `decimal?`, `special?`: numbers.
* `moment?`: dates and times.
* `scalar`: any of these, a string or a truth value.
-/

namespace MacroModules.Toml

/-! ## Numbers -/

/-- The digits at the beginning of a text, with single underscores between them. -/
def digitRun (isDigit : Char → Bool) : List Char → List Char
  | [] => []
  | c :: cs => if isDigit c then c :: more cs else []
where
  /-- The digits behind the first. -/
  more : List Char → List Char
  | '_' :: c :: cs => if isDigit c then '_' :: c :: more cs else []
  | c :: cs => if isDigit c then c :: more cs else []
  | [] => []

/-- The base that a letter behind a zero stands for. -/
def base? (c : Char) : Option Nat :=
  if c = 'x' then some 16 else if c = 'o' then some 8 else if c = 'b' then some 2 else none

/-- Whether a character is a digit in a base. -/
def isDigitOf (base : Nat) (c : Char) : Bool := (hexDigit? c).any (· < base)

/-- A whole number in another base than ten, and what follows it. -/
def based? : List Char → Option (Value × List Char)
  | '0' :: c :: cs =>
    match base? c with
    | none => none
    | some base =>
      let ds := digitRun (isDigitOf base) cs
      if ds = [] then none
      else
        let n := (ds.filterMap hexDigit?).foldl (fun n d => n * base + d) 0
        some (.number n, cs.drop ds.length)
  | _ => none

/-- The sign at the beginning of a text. -/
def sign : List Char → List Char
  | c :: _ => if c = '+' ∨ c = '-' then [c] else []
  | [] => []

/-- The whole part of a decimal number. Only zero begins with a zero. -/
def wholePart : List Char → List Char
  | '0' :: _ => ['0']
  | cs => digitRun Char.isDigit cs

/-- The fraction of a decimal number, with its point. -/
def fraction : List Char → List Char
  | '.' :: cs => if digitRun Char.isDigit cs = [] then [] else '.' :: digitRun Char.isDigit cs
  | _ => []

/-- The exponent of a decimal number, with its letter. -/
def exponent : List Char → List Char
  | [] => []
  | c :: cs =>
    let ds := digitRun Char.isDigit (cs.drop (sign cs).length)
    if (c = 'e' ∨ c = 'E') ∧ ds ≠ [] then c :: sign cs ++ ds else []

/-- A decimal number, and what follows it. -/
def decimal? (cs : List Char) : Option (Except Fault Value × List Char) :=
  let rest := cs.drop (sign cs).length
  let whole := wholePart rest
  let rest := rest.drop whole.length
  let broken := fraction rest
  let broken := broken ++ exponent (rest.drop broken.length)
  if whole = [] then none
  else if broken = [] then some (integer whole, rest)
  else some (.ok (.real (String.ofList (sign cs ++ whole ++ broken))), rest.drop broken.length)
where
  /-- The value of the digits. -/
  integer (whole : List Char) : Except Fault Value :=
    match Numeral.read (whole.filter (· != '_')) with
    | .ok n => .ok (.number (if sign cs = ['-'] then -n else n))
    | .error digits => .error (.longNumber digits)

/-- A number that is not finite, and what follows it. -/
def special? (cs : List Char) : Option (Value × List Char) :=
  let name := (cs.drop (sign cs).length).take 3
  let written := sign cs ++ name
  if name = "inf".toList ∨ name = "nan".toList then
    some (.real (String.ofList written), cs.drop written.length)
  else none

/-! ## Dates and times -/

/-- The number that two decimal digits denote, if it lies between two bounds. -/
def twoDigits? (low high : Nat) (a b : Char) : Option Nat :=
  if a.isDigit ∧ b.isDigit then
    let n := Nat.ofDigitChars 10 [a, b] 0
    if low ≤ n ∧ n ≤ high then some n else none
  else none

/-- Whether a day is in the calendar. -/
def isDay (year month day : Nat) : Bool :=
  let leap := year % 4 == 0 && (year % 100 != 0 || year % 400 == 0)
  let last :=
    if month = 2 then (if leap then 29 else 28)
    else if month ∈ [4, 6, 9, 11] then 30
    else 31
  0 < year && day ≤ last

/-- A date at the beginning of a text: whether there is such a day, and what follows. -/
def date? : List Char → Option (Bool × List Char)
  | a :: b :: c :: d :: '-' :: e :: f :: '-' :: g :: h :: rest =>
    match twoDigits? 0 99 a b, twoDigits? 0 99 c d, twoDigits? 1 12 e f, twoDigits? 1 31 g h with
    | some century, some year, some month, some day =>
      some (isDay (100 * century + year) month day, rest)
    | _, _, _, _ => none
  | _ => none

/-- What follows a time of day at the beginning of a text. -/
def time? : List Char → Option (List Char)
  | a :: b :: ':' :: c :: d :: ':' :: e :: f :: rest =>
    match twoDigits? 0 23 a b, twoDigits? 0 59 c d, twoDigits? 0 59 e f with
    | some _, some _, some _ =>
      match rest with
      | '.' :: ds =>
        some (if ds.head?.any Char.isDigit then ds.dropWhile Char.isDigit else rest)
      | _ => some rest
    | _, _, _ => none
  | _ => none

/-- What follows the offset of a time from universal time, if there is one. -/
def offset (cs : List Char) : List Char :=
  match cs with
  | z :: rest =>
    if z = 'Z' ∨ z = 'z' then rest
    else
      match sign cs, rest with
      | [_], a :: b :: ':' :: c :: d :: rest =>
        if (twoDigits? 0 23 a b).isSome ∧ (twoDigits? 0 59 c d).isSome then rest else cs
      | _, _ => cs
  | [] => []

/-- What follows the time of day behind a date, if there is one. -/
def clock (cs : List Char) : List Char :=
  match cs with
  | c :: rest =>
    if c = 'T' ∨ c = 't' ∨ c = ' ' then
      match time? rest with
      | some rest => offset rest
      | none => cs
    else cs
  | [] => []

/-- A date or a time of day, and what follows it. -/
def moment? (cs : List Char) : Option (Except Fault Value × List Char) :=
  match date? cs with
  | some (true, rest) => some (.ok (.moment (written (clock rest))), clock rest)
  | some (false, rest) => some (.error .malformed, rest)
  | none => (time? cs).map fun rest => (.ok (.moment (written rest)), rest)
where
  /-- The text up to what follows. -/
  written (rest : List Char) : String := String.ofList (cs.take (cs.length - rest.length))

/-! ## All of them -/

/-- The value at the beginning of a text, if it has no other values in it, and what follows. -/
def scalar (cs : List Char) : Except Fault (Value × List Char) :=
  if cs.head?.any isQuote then
    match string? cs with
    | some (value, rest) => .ok (.text value, rest)
    | none => .error .malformed
  else if "true".toList.isPrefixOf cs then .ok (.truth true, cs.drop 4)
  else if "false".toList.isPrefixOf cs then .ok (.truth false, cs.drop 5)
  else
    match (moment? cs).or ((found (based? cs)).or ((decimal? cs).or (found (special? cs)))) with
    | some (value, rest) => value.map fun v => (v, rest)
    | none => .error .malformed
where
  /-- A value that is not at fault. -/
  found (r : Option (Value × List Char)) : Option (Except Fault Value × List Char) :=
    r.map fun r => (.ok r.1, r.2)

end MacroModules.Toml
