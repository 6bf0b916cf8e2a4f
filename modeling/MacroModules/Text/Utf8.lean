import MacroModules.Text.Quoted

/-!
# UTF-8

Bytes as text. A character takes one to four bytes; the first says how many, and within which bounds
the second has to lie, so that no character has two encodings and no surrogate has one.

* `Utf8.Lead`: what a first byte announces.
* `Utf8.decode`: the text of some bytes, or the first sequence that encodes no character
  (`Utf8.Fault`).
* `Utf8.encode`: the bytes of a text.
-/

namespace MacroModules.Utf8

/-- What the first byte of a longer sequence announces. -/
structure Lead where
  /-- The number of bytes to follow. -/
  owed : Nat
  /-- The least value of the next byte. -/
  low : Nat
  /-- The greatest value of the next byte. -/
  high : Nat
  /-- The bits of the character that the byte itself carries. -/
  bits : Nat

/-- What a byte announces as the first of a sequence of several. -/
def lead? (b : Nat) : Option Lead :=
  if b < 0xC2 then none
  else if b < 0xE0 then some ⟨1, 0x80, 0xBF, b - 0xC0⟩
  else if b < 0xF0 then
    some ⟨2, if b = 0xE0 then 0xA0 else 0x80, if b = 0xED then 0x9F else 0xBF, b - 0xE0⟩
  else if b < 0xF5 then
    some ⟨3, if b = 0xF0 then 0x90 else 0x80, if b = 0xF4 then 0x8F else 0xBF, b - 0xF0⟩
  else none

/-- What is wrong with a sequence of bytes. -/
inductive Reason where
  | invalidStart
  | invalidContinuation
  | unexpectedEnd
  deriving DecidableEq

/-- The wording of a reason. -/
def Reason.message : Reason → String
  | invalidStart => "invalid start byte"
  | invalidContinuation => "invalid continuation byte"
  | unexpectedEnd => "unexpected end of data"

/-- Bytes that encode no character: from `start` up to and excluding `stop`, the first of them being
`byte`. -/
structure Fault where
  start : Nat
  stop : Nat
  byte : Nat
  reason : Reason
  deriving DecidableEq

/-- The wording of a fault. -/
def Fault.message (f : Fault) : String :=
  "'utf-8' codec can't decode " ++
    (if f.stop = f.start + 1 then
      "byte 0x" ++ String.ofList (Text.Quoted.hex 2 f.byte) ++ " in position " ++ Nat.repr f.start
    else "bytes in position " ++ Nat.repr f.start ++ "-" ++ Nat.repr (f.stop - 1)) ++
    ": " ++ f.reason.message

/-- The code point that a first byte and the bytes behind it make up, or how many bytes of the
sequence are good and what is wrong then; `taken` bytes are good already. -/
def codePoint (taken : Nat) (l : Lead) : List UInt8 → Except (Nat × Reason) Nat
  | [] => if l.owed = 0 then .ok l.bits else .error (taken, .unexpectedEnd)
  | b :: bs =>
    if l.owed = 0 then .ok l.bits
    else if l.low ≤ b.toNat ∧ b.toNat ≤ l.high then
      codePoint (taken + 1) ⟨l.owed - 1, 0x80, 0xBF, l.bits * 64 + (b.toNat - 0x80)⟩ bs
    else .error (taken, .invalidContinuation)

/-- The characters of some bytes, the first of which is at `offset`. -/
def decodeFrom (offset : Nat) : List UInt8 → Except Fault (List Char)
  | [] => .ok []
  | b :: bs =>
    if b.toNat < 0x80 then (decodeFrom (offset + 1) bs).map (Char.ofNat b.toNat :: ·)
    else
      match lead? b.toNat with
      | none => .error ⟨offset, offset + 1, b.toNat, .invalidStart⟩
      | some l =>
        match codePoint 1 l bs with
        | .error (taken, reason) => .error ⟨offset, offset + taken, b.toNat, reason⟩
        | .ok code =>
          (decodeFrom (offset + 1 + l.owed) (bs.drop l.owed)).map (Char.ofNat code :: ·)
termination_by bs => bs.length
decreasing_by
  · simp
  · simp only [List.length_drop, List.length_cons]; omega

/-- The text of some bytes. -/
def decode (bytes : List UInt8) : Except Fault String :=
  (decodeFrom 0 bytes).map String.ofList

/-- The bytes of a text. -/
def encode (text : String) : List UInt8 :=
  text.toList.flatMap String.utf8EncodeChar

end MacroModules.Utf8
