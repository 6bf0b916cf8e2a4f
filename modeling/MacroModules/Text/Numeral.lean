/-!
# Decimal numerals

Numbers of any size are read from their decimal digits, but only up to a certain length of the
numeral.

* `Numeral.maxDigits`: the most digits of a numeral that is read.
* `Numeral.read`: the number that some digits denote.
-/

namespace MacroModules.Numeral

/-- The most digits of a numeral that is read, leading zeros included. -/
def maxDigits : Nat := 4300

/-- The number that some decimal digits denote, or how many digits there are if these are too many.
-/
def read (digits : List Char) : Except Nat Nat :=
  if digits.length ≤ maxDigits then .ok (Nat.ofDigitChars 10 digits 0) else .error digits.length

/-- The wording for a numeral with too many digits. -/
def longMessage (digits : Nat) : String :=
  "Exceeds the limit (" ++ Nat.repr maxDigits ++
    " digits) for integer string conversion: value has " ++ Nat.repr digits ++
    " digits; use sys.set_int_max_str_digits() to increase the limit"

end MacroModules.Numeral
