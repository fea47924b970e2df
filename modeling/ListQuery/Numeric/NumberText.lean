/-
Texts of numbers, read.

`NumberText.scan` splits a whole text into sign, digits before and after the point, and exponent,
and decides nothing else; each format then says which of the splits it takes:

* `integer?` — an optional sign and digits, as an integer of 64 bits;
* `float?` — an optional sign, digits on at least one side of an optional point, an optional exponent;
  or a name of an infinity or of no number, in any case.
-/
import ListQuery.Numeric.Binary64

namespace ListQuery.Numeric

/-- A sign in front of digits. -/
inductive Sign where
  | plus
  | minus
deriving DecidableEq

/-- The sign that starts a text, if there is one, and what follows it. -/
def Sign.take : List Char → Option Sign × List Char
  | '-' :: rest => (some .minus, rest)
  | '+' :: rest => (some .plus, rest)
  | cs => (none, cs)

/-- The parts of a decimal text. -/
structure NumberText where
  sign : Option Sign
  /-- The digits before the point. -/
  whole : List Char
  /-- The digits after the point, where there is a point. -/
  fraction : Option (List Char)
  /-- The sign and digits of the exponent, where there is one. -/
  exponent : Option (Option Sign × List Char)
deriving DecidableEq

namespace NumberText

/-- The exponent that the rest of a text holds: nothing at all, or a letter, a sign and digits. -/
def scanExponent : List Char → Option (Option (Option Sign × List Char))
  | [] => some none
  | c :: rest =>
    let (sign, digits) := Sign.take rest
    if (c = 'e' ∨ c = 'E') ∧ digits.all Char.isDigit then some (some (sign, digits)) else none

/-- The parts of a text that is nothing but a number; runs of digits may be empty. -/
def scan (cs : List Char) : Option NumberText :=
  let (sign, cs) := Sign.take cs
  let whole := cs.takeWhile Char.isDigit
  match cs.dropWhile Char.isDigit with
  | '.' :: rest =>
    (scanExponent (rest.dropWhile Char.isDigit)).map
      (⟨sign, whole, some (rest.takeWhile Char.isDigit), ·⟩)
  | rest => (scanExponent rest).map (⟨sign, whole, none, ·⟩)

/-- The value of a run of decimal digits. -/
def natOf (ds : List Char) : Nat :=
  Text.ofDigits 10 (ds.map fun c => c.toNat - '0'.toNat)

/-- Whether an exponent, where there is one, has digits. -/
def hasExponentDigits (t : NumberText) : Bool :=
  t.exponent.all fun (_, ds) => !ds.isEmpty

/-- Whether the number has a minus sign. -/
def isNegative (t : NumberText) : Bool :=
  t.sign = some .minus

/-- The integer before the point, with its sign. -/
def wholeValue (t : NumberText) : Int :=
  if t.isNegative then -(natOf t.whole : Int) else natOf t.whole

/-- The power of ten that the exponent names. -/
def exponentValue (t : NumberText) : Int :=
  match t.exponent with
  | none => 0
  | some (some .minus, ds) => -(natOf ds : Int)
  | some (_, ds) => natOf ds

/-- The number nearest to the text's value. -/
def toBinary64 (t : NumberText) : Binary64 :=
  let fraction := t.fraction.getD []
  .ofDecimal t.isNegative (natOf (t.whole ++ fraction)) (t.exponentValue - fraction.length)

/-- Whether the text is a sign and digits and nothing more. -/
def isInteger (t : NumberText) : Bool :=
  !t.whole.isEmpty && t.fraction.isNone && t.exponent.isNone

end NumberText

/-- The integers of 64 bits with a sign. -/
def inInt64 (n : Int) : Bool :=
  decide (Int64.minValue.toInt ≤ n ∧ n ≤ Int64.maxValue.toInt)

/-- An integer as one of 64 bits, where it fits. -/
def int64? (n : Int) : Option Int64 :=
  if inInt64 n then some (Int64.ofInt n) else none

/-- The integer of 64 bits that a text spells: an optional sign and decimal digits. -/
def integer? (cs : List Char) : Option Int64 :=
  match NumberText.scan cs with
  | some t => if t.isInteger then int64? t.wholeValue else none
  | none => none

/-- The number that a word names, in any case of its letters. -/
def named? (negative : Bool) (cs : List Char) : Option Binary64 :=
  match (String.ofList (cs.map Char.toLower)) with
  | "inf" | "infinity" => some (.infinity negative)
  | "nan" => some .nan
  | _ => none

/-- The binary64 number that a text spells. -/
def float? (cs : List Char) : Option Binary64 :=
  match NumberText.scan cs with
  | some t =>
    if !(t.whole ++ t.fraction.getD []).isEmpty && t.hasExponentDigits then some t.toBinary64
    else none
  | none =>
    let (sign, word) := Sign.take cs
    named? (sign = some .minus) word

end ListQuery.Numeric
