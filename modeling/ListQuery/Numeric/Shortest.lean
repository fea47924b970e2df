/-
The shortest decimal text of a binary64 number.

Among the decimals that read back as the number, `shortest` takes one of the fewest digits, and of
those the nearest.  It looks at the number's two neighbours on the grid of one digit, of two, and so
on up to seventeen: the first grid with a neighbour that reads back wins.  What remains open is which
of two equally near neighbours is taken, and where digits give way to an exponent; these are the
fields of a `FloatStyle`.

* `plain` — the style of texts for people: never an exponent, a whole number without a point;
* `compact` — the style of data: an exponent outside `10 ^ -5` to `10 ^ 16`, always a point before it.

Design notes: reading back is decided by reading, so that it holds of the result by definition; the
exact expansion stands behind the search, which never reaches it.
-/
import ListQuery.Numeric.Binary64

namespace ListQuery.Numeric

/-- A decimal `d.ddd · 10 ^ exponent`, its digits without zeros at the end. -/
structure Scientific where
  digits : List Char
  exponent : Int
deriving DecidableEq

/-- Which of two equally near decimals is taken. -/
inductive Tie where
  | awayFromZero
  | toEven
deriving DecidableEq

/-- The decimal of `coefficient · 10 ^ exponent`. -/
def Scientific.ofCoefficient (coefficient : Nat) (exponent : Int) : Scientific :=
  let digits := Text.decimal coefficient
  let significant := (digits.reverse.dropWhile (· == '0')).reverse
  ⟨if significant = [] then ['0'] else significant, exponent + (digits.length - 1 : Nat)⟩

namespace FiniteFloat

/-- The power of ten of the first digit of a number other than zero. -/
def leadingExponent (x : FiniteFloat) : Int :=
  (Text.decimalLength (x.units * Nat.pow 10 400 / unitsPerOne) : Int) - 401

/-- Whether `coefficient · 10 ^ exponent` reads back as the number. -/
def ReadsBack (x : FiniteFloat) (coefficient : Nat) (exponent : Int) : Prop :=
  Binary64.ofDecimal x.negative coefficient exponent = .finite x

instance (x : FiniteFloat) (coefficient : Nat) (exponent : Int) :
    Decidable (x.ReadsBack coefficient exponent) :=
  inferInstanceAs (Decidable (_ = _))

/-- The multiple of `10 ^ exponent` that the search takes for a number, if a neighbour of the number
on that grid reads back. -/
def nearestOnGrid (tie : Tie) (x : FiniteFloat) (exponent : Int) : Option Nat :=
  let num := x.units * Nat.pow 10 (-exponent).toNat
  let den := unitsPerOne * Nat.pow 10 exponent.toNat
  let below := num / den
  let twice := 2 * (num % den)
  let upper :=
    if twice = den then (tie = .awayFromZero ∨ below % 2 = 1 : Bool) else decide (den < twice)
  match decide (x.ReadsBack below exponent), decide (x.ReadsBack (below + 1) exponent) with
  | true, true => some (if upper then below + 1 else below)
  | true, false => some below
  | false, true => some (below + 1)
  | false, false => none

/-- The shortest decimal that reads back as the number, its sign left out. -/
def shortest (tie : Tie) (x : FiniteFloat) : Scientific :=
  if x.units = 0 then ⟨['0'], 0⟩
  else
    let lead := x.leadingExponent
    let found := (List.range 17).findSome? fun (more : Nat) =>
      let exponent := lead - more
      (x.nearestOnGrid tie exponent).map (Scientific.ofCoefficient · exponent)
    found.getD (.ofCoefficient (x.units * Nat.pow 5 1074) (-1074))

end FiniteFloat

/-- The choices that a text of a number leaves open. -/
structure FloatStyle where
  /-- Which of two equally near decimals is written. -/
  tie : Tie
  /-- Whether a decimal of this exponent is written without one. -/
  positional : Int → Bool
  /-- What follows the digits of a whole number written without an exponent. -/
  wholeEnd : List Char

namespace FloatStyle

/-- The style of texts for people: no exponent, and no point in a whole number. -/
def plain : FloatStyle :=
  ⟨.awayFromZero, fun _ => true, []⟩

/-- The style of data: an exponent below `10 ^ -5` and from `10 ^ 16` on, and a whole number ends
in `.0`. -/
def compact : FloatStyle :=
  ⟨.toEven, fun e => decide (-5 ≤ e ∧ e < 16), ['.', '0']⟩

/-- A decimal without an exponent. -/
def positionalText (style : FloatStyle) (d : Scientific) : List Char :=
  match d.exponent with
  | .negSucc e => '0' :: '.' :: List.replicate e '0' ++ d.digits
  | .ofNat e =>
    if d.digits.length ≤ e + 1 then
      d.digits ++ List.replicate (e + 1 - d.digits.length) '0' ++ style.wholeEnd
    else d.digits.take (e + 1) ++ '.' :: d.digits.drop (e + 1)

/-- A decimal with an exponent and its sign. -/
def exponentText (d : Scientific) : List Char :=
  let tail :=
    match d.exponent with
    | .ofNat e => 'e' :: '+' :: Text.decimal e
    | .negSucc e => 'e' :: '-' :: Text.decimal (e + 1)
  match d.digits with
  | [] => tail
  | [c] => c :: tail
  | c :: rest => c :: '.' :: rest ++ tail

/-- The text of a finite number. -/
def text (style : FloatStyle) (x : FiniteFloat) : List Char :=
  let d := x.shortest style.tie
  let digits := if style.positional d.exponent then style.positionalText d else exponentText d
  if x.negative then '-' :: digits else digits

end FloatStyle

/-- The text of a number for people; what is not finite has a name. -/
def Binary64.plainText : Binary64 → List Char
  | .nan => ['N', 'a', 'N']
  | .infinity negative => (if negative then ['-'] else []) ++ ['i', 'n', 'f']
  | .finite x => FloatStyle.plain.text x

end ListQuery.Numeric
