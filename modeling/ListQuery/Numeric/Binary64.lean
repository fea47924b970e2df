/-
Binary64 numbers as exact values.

A finite number is `significand · 2 ^ scale` units of `2 ^ -1074` with a sign, so every comparison is
one of integers and rounding is division of natural numbers.  The significand has at most 53 bits, and
all 53 unless the scale is zero: each number has one form, the two zeros apart.

* `ofRatio` and `ofDecimal` round to the nearest number, a half going to the even significand, and
  give an infinity past the greatest number;
* `order?` compares by value: the zeros are equal and a number that is none compares with nothing.

Design notes: `2 ^ 1074` units make one, so a ratio is scaled by that before it is divided.  The bound
on the scale is the only part of the form that rounding can break, which is why `ofForm` reads a
refused form as overflow.
-/
import ListQuery.Text.Digit

namespace ListQuery.Numeric

/-- A significand and a scale in the one form of their value. -/
def Canonical (significand scale : Nat) : Prop :=
  significand < Nat.pow 2 53 ∧ scale ≤ 2045 ∧ (scale = 0 ∨ Nat.pow 2 52 ≤ significand)

instance (significand scale : Nat) : Decidable (Canonical significand scale) :=
  inferInstanceAs (Decidable (_ ∧ _ ∧ _))

/-- A finite binary64 number. -/
structure FiniteFloat where
  negative : Bool
  significand : Nat
  scale : Nat
  canonical : Canonical significand scale
deriving DecidableEq

namespace FiniteFloat

/-- The units of `2 ^ -1074` in the number, its sign left out. -/
def units (x : FiniteFloat) : Nat :=
  x.significand * Nat.pow 2 x.scale

/-- The number in units of `2 ^ -1074`. -/
def scaled (x : FiniteFloat) : Int :=
  if x.negative then -(x.units : Int) else x.units

/-- Zero with either sign. -/
def zero (negative : Bool) : FiniteFloat :=
  ⟨negative, 0, 0, by decide⟩

end FiniteFloat

/-- The units in one. -/
def unitsPerOne : Nat := Nat.pow 2 1074

/-- A binary64 number, the infinities and the number that is none included. -/
inductive Binary64 where
  | nan
  | infinity (negative : Bool)
  | finite (x : FiniteFloat)
deriving DecidableEq

/-- The natural number nearest to `num / den`, a half going to the even neighbour. -/
def roundHalfEven (num den : Nat) : Nat :=
  let below := num / den
  let twice := 2 * (num % den)
  if twice < den ∨ (twice = den ∧ below % 2 = 0) then below else below + 1

namespace Binary64

/-- The number of a form, or the infinity where the form is past the greatest number. -/
def ofForm (negative : Bool) (significand scale : Nat) : Binary64 :=
  if h : Canonical significand scale then .finite ⟨negative, significand, scale, h⟩
  else .infinity negative

/-- The number nearest to `num / den`, with a sign. -/
def ofRatio (negative : Bool) (num den : Nat) : Binary64 :=
  let num := num * unitsPerOne
  let scale := Nat.log2 (num / den) - 52
  let significand := roundHalfEven num (den * Nat.pow 2 scale)
  if significand = Nat.pow 2 53 then ofForm negative (Nat.pow 2 52) (scale + 1)
  else ofForm negative significand scale

/-- The number nearest to an integer. -/
def ofInt (n : Int) : Binary64 :=
  ofRatio (n < 0) n.natAbs 1

/-- The number nearest to `coefficient · 10 ^ exponent`, with a sign.  Values past `10 ^ 400` and
below `10 ^ -400` are settled by their length, before any power is taken. -/
def ofDecimal (negative : Bool) (coefficient : Nat) (exponent : Int) : Binary64 :=
  let magnitude := exponent + Text.decimalLength coefficient
  if coefficient = 0 ∨ magnitude < -400 then .finite (.zero negative)
  else if 400 < magnitude then .infinity negative
  else
    match exponent with
    | .ofNat e => ofRatio negative (coefficient * Nat.pow 10 e) 1
    | .negSucc e => ofRatio negative coefficient (Nat.pow 10 (e + 1))

/-- Whether a number is neither infinite nor none. -/
def isFinite : Binary64 → Bool
  | .finite _ => true
  | _ => false

/-- How two numbers compare by value; none where one of them is no number. -/
def order? : Binary64 → Binary64 → Option Ordering
  | .nan, _ | _, .nan => none
  | .finite x, .finite y => some (compare x.scaled y.scaled)
  | .infinity a, .infinity b => some (compare b a)
  | .infinity a, .finite _ => some (if a then .lt else .gt)
  | .finite _, .infinity b => some (if b then .gt else .lt)

/-- Whether two numbers are equal by value: the zeros are, and a number that is none equals nothing. -/
def agrees (x y : Binary64) : Bool :=
  order? x y == some .eq

end Binary64

end ListQuery.Numeric
