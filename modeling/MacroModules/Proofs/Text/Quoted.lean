import MacroModules.Text.Quoted

/-!
# Quoted text can be read back

Escapes are of different lengths, and the quote depends on the text. Still the quoted form of a text
leads back to it: its first character says which quote is escaped, and a backslash what follows.

* `hexValue`, `readChar`: the number that digits denote, and the first character between quotes.
* `readChar_escape`: **reading an escape gives the character back**, and what stands behind it.
* `encode_injective`, `quote_injective`: **no two texts have the same quoted form**.
* `lf_notMem_quote`: the quoted form of a text is on one line.
-/

namespace MacroModules.Text

namespace Quoted

/-! ## Digits -/

/-- The number that a hexadecimal digit in lower case stands for. -/
def digitValue (c : Char) : Nat :=
  if c.isDigit then c.toNat - '0'.toNat else c.toNat + 10 - 'a'.toNat

/-- The number that some hexadecimal digits denote. -/
def hexValue (digits : List Char) : Nat := digits.foldl (fun n c => 16 * n + digitValue c) 0

theorem digitValue_digitChar {d : Nat} (h : d < 16) : digitValue (Nat.digitChar d) = d := by
  revert d
  decide

@[simp] theorem hexValue_hex_zero (n : Nat) : hexValue (hex 0 n) = 0 := rfl

@[simp] theorem hexValue_hex_succ (width n : Nat) :
    hexValue (hex (width + 1) n) = 16 * hexValue (hex width (n / 16)) + n % 16 := by
  rw [hex, hexValue, List.foldl_append, List.foldl_cons, List.foldl_nil,
    digitValue_digitChar (Nat.mod_lt n (by decide))]
  rfl

theorem lf_notMem_hex (width n : Nat) : '\n' ∉ hex width n := by
  have hdigit : ∀ d < 16, '\n' ≠ Nat.digitChar d := by decide
  induction width generalizing n with
  | zero => simp [hex]
  | succ width ih =>
    rw [hex, List.mem_append, List.mem_singleton, not_or]
    exact ⟨ih _, hdigit _ (Nat.mod_lt n (by decide))⟩

/-! ## Characters -/

/-- How many digits follow behind a letter that a backslash stands before. -/
def width? (letter : Char) : Option Nat :=
  if letter = 'x' then some 2
  else if letter = 'u' then some 4
  else if letter = 'U' then some 8
  else none

/-- The character that a backslash and another character stand for, if no digits follow. -/
def unescape (c : Char) : Char :=
  if c = 't' then '\t' else if c = 'n' then '\n' else if c = 'r' then '\r' else c

/-- The first character of a text between quotes, and what stands behind it. -/
def readChar : List Char → Option (Char × List Char)
  | [] => none
  | '\\' :: c :: cs =>
    match width? c with
    | some n => some (Char.ofNat (hexValue (cs.take n)), cs.drop n)
    | none => some (unescape c, cs)
  | c :: cs => some (c, cs)

/-- The two characters that may stand around a text. -/
def IsMark (q : Char) : Prop := q = '\x27' ∨ q = '"'

theorem isMark_mark (cs : List Char) : IsMark (mark cs) := by
  unfold mark
  split
  · exact .inr rfl
  · exact .inl rfl

theorem readChar_code {letter : Char} {n : Nat} (hletter : width? letter = some n) {c : Char}
    (hc : hexValue (hex n c.toNat) = c.toNat) (cs : List Char) :
    readChar ('\\' :: letter :: hex n c.toNat ++ cs) = some (c, cs) := by
  have htake : (hex n c.toNat ++ cs).take n = hex n c.toNat := by
    rw [List.take_append_of_le_length (by simp), List.take_of_length_le (by simp)]
  have hdrop : (hex n c.toNat ++ cs).drop n = cs := by
    rw [List.drop_append_of_le_length (by simp), List.drop_of_length_le (by simp), List.nil_append]
  simp only [List.cons_append, readChar, hletter, htake, hdrop, hc, Char.ofNat_toNat]

/-- **Reading an escape gives the character back**, and what stands behind it. -/
theorem readChar_escape {q : Char} (hq : IsMark q) (c : Char) (cs : List Char) :
    readChar (escape q c ++ cs) = some (c, cs) := by
  fun_cases escape q c with
  | case1 hc =>
    have hself : c = '\x27' ∨ c = '"' ∨ c = '\\' := by
      rcases hc with rfl | rfl
      · exact hq.imp_right .inl
      · exact .inr (.inr rfl)
    rcases hself with rfl | rfl | rfl <;> rfl
  | case2 _ hc => rw [hc]; rfl
  | case3 _ _ hc => rw [hc]; rfl
  | case4 _ _ _ hc => rw [hc]; rfl
  | case5 hc =>
    have hbackslash : c ≠ '\\' := fun h => hc (.inr h)
    simp [readChar, hbackslash]
  | case6 _ _ _ _ _ hlt =>
    refine readChar_code rfl ?_ cs
    simp only [hexValue_hex_succ, hexValue_hex_zero]
    omega
  | case7 _ _ _ _ _ _ hlt =>
    refine readChar_code rfl ?_ cs
    simp only [hexValue_hex_succ, hexValue_hex_zero]
    omega
  | case8 =>
    have hlt : c.toNat < 0x110000 := by
      have := c.valid
      unfold UInt32.isValidChar Nat.isValidChar at this
      have : c.toNat = c.val.toNat := rfl
      omega
    refine readChar_code rfl ?_ cs
    simp only [hexValue_hex_succ, hexValue_hex_zero]
    omega

theorem lf_notMem_escape {q : Char} (hq : IsMark q) (c : Char) : '\n' ∉ escape q c := by
  fun_cases escape q c with
  | case1 hc =>
    have hne : '\n' ≠ c := by
      rintro rfl
      rcases hc with hc | hc
      · rcases hq with rfl | rfl <;> cases hc
      · cases hc
    simp [hne]
  | case2 | case3 | case4 => simp
  | case5 _ _ hlf _ _ => simpa using Ne.symm hlf
  | case6 | case7 | case8 => simp [lf_notMem_hex]

/-! ## Texts -/

theorem flatMap_escape_injective {q : Char} (hq : IsMark q) :
    Function.Injective (List.flatMap (escape q)) := by
  intro cs
  induction cs with
  | nil =>
    intro ds h
    cases ds with
    | nil => rfl
    | cons d ds =>
      have hread := congrArg readChar h
      rw [List.flatMap_cons, readChar_escape hq] at hread
      cases hread
  | cons c cs ih =>
    intro ds h
    have hread := congrArg readChar h
    rw [List.flatMap_cons, readChar_escape hq] at hread
    cases ds with
    | nil => cases hread
    | cons d ds =>
      rw [List.flatMap_cons, readChar_escape hq] at hread
      obtain ⟨rfl, hrest⟩ := Prod.mk.inj (Option.some.inj hread)
      rw [ih hrest]

theorem encode_injective : Function.Injective encode := by
  intro cs ds h
  obtain ⟨hmark, hrest⟩ := List.cons.inj h
  rw [← hmark] at hrest
  exact flatMap_escape_injective (isMark_mark cs) (List.append_cancel_right hrest)

theorem lf_notMem_encode (cs : List Char) : '\n' ∉ encode cs := by
  have hmark : '\n' ≠ mark cs := by
    rcases isMark_mark cs with h | h <;> rw [h] <;> decide
  simp only [encode, List.mem_cons, List.mem_append, List.mem_flatMap, List.not_mem_nil]
  rintro ((h | ⟨c, -, hc⟩) | h | h)
  · exact hmark h
  · exact lf_notMem_escape (isMark_mark cs) c hc
  · exact hmark h
  · exact h

end Quoted

/-- **No two texts have the same quoted form.** -/
theorem quote_injective : Function.Injective quote := by
  intro s t h
  exact String.toList_inj.1 (Quoted.encode_injective (String.ofList_injective h))

/-- The quoted form of a text is on one line. -/
theorem lf_notMem_quote (s : String) : '\n' ∉ (quote s).toList := by
  rw [quote, String.toList_ofList]
  exact Quoted.lf_notMem_encode s.toList

end MacroModules.Text
