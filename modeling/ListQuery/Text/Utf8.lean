/-
Characters as octets, and octets read back as characters.

`encode` writes each character as its UTF-8 octets.  `decode` reads any octets at all: what is no
UTF-8 gives the replacement character U+FFFD, one for each longest stretch of octets that a character
could have started with.  The reader is a machine of one step an octet; between characters its state
is `none`, inside a character it holds what is still owed.

Design notes: the bounds of the next octet sit in the state, so over-long forms, surrogates and
numbers past U+10FFFF are refused at the first octet that rules them out.
-/
namespace ListQuery.Text.Utf8

/-- The UTF-8 octets of some characters. -/
def encode (cs : List Char) : List UInt8 :=
  cs.flatMap String.utf8EncodeChar

/-- The character that stands for octets that are no UTF-8. -/
def replacement : Char := '\uFFFD'

/-- Where the reader stands inside a character: the octets owed, the bounds of the next one, and the
bits read so far. -/
structure Pending where
  owed : Nat
  low : Nat
  high : Nat
  bits : Nat

/-- What a character's first octet says of the rest; `none` where no character starts so. -/
def Pending.ofFirst? (b : Nat) : Option Pending :=
  if 0xC2 ≤ b ∧ b ≤ 0xDF then some ⟨1, 0x80, 0xBF, b - 0xC0⟩
  else if b = 0xE0 then some ⟨2, 0xA0, 0xBF, 0⟩
  else if b = 0xED then some ⟨2, 0x80, 0x9F, 0xD⟩
  else if 0xE1 ≤ b ∧ b ≤ 0xEF then some ⟨2, 0x80, 0xBF, b - 0xE0⟩
  else if b = 0xF0 then some ⟨3, 0x90, 0xBF, 0⟩
  else if 0xF1 ≤ b ∧ b ≤ 0xF3 then some ⟨3, 0x80, 0xBF, b - 0xF0⟩
  else if b = 0xF4 then some ⟨3, 0x80, 0x8F, 4⟩
  else none

/-- An octet read between characters: the characters it settles, and the state after it. -/
def first (b : Nat) : List Char × Option Pending :=
  if b < 0x80 then ([Char.ofNat b], none)
  else
    match Pending.ofFirst? b with
    | some p => ([], some p)
    | none => ([replacement], none)

/-- One octet: the characters it settles, and the state after it.  An octet that cannot go on with the
character at hand settles it as a replacement and is read afresh. -/
def step : Option Pending → Nat → List Char × Option Pending
  | none, b => first b
  | some p, b =>
    if p.low ≤ b ∧ b ≤ p.high then
      let bits := p.bits * 64 + (b - 0x80)
      if p.owed ≤ 1 then ([Char.ofNat bits], none)
      else ([], some ⟨p.owed - 1, 0x80, 0xBF, bits⟩)
    else
      let (settled, next) := first b
      (replacement :: settled, next)

/-- The characters of some octets, read from a state. -/
def decodeFrom : Option Pending → List UInt8 → List Char
  | none, [] => []
  | some _, [] => [replacement]
  | state, b :: rest =>
    let (settled, next) := step state b.toNat
    settled ++ decodeFrom next rest

/-- The characters of some octets, what is no UTF-8 being replaced. -/
def decode (octets : List UInt8) : List Char :=
  decodeFrom none octets

end ListQuery.Text.Utf8
