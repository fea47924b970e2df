/-
Digits: characters as the numbers they stand for, and numbers as digits.

* `digit?` reads one digit of a base up to sixteen, letters in either case;
* `ofDigits` is the number that digits spell, the first one weighing most;
* `decimal` is the decimal text of a natural number, and `hexUpper` and `hexLower` write one digit
  of base sixteen.
-/
namespace ListQuery.Text

/-- The value of a digit `0`–`9`, `a`–`f` or `A`–`F`, where the base has that digit. -/
def digit? (base : Nat) (c : Char) : Option Nat :=
  let value :=
    if c.isDigit then c.toNat - '0'.toNat
    else if 'a' ≤ c ∧ c ≤ 'f' then c.toNat - 'a'.toNat + 10
    else if 'A' ≤ c ∧ c ≤ 'F' then c.toNat - 'A'.toNat + 10
    else base
  if value < base then some value else none

/-- The digits of a text that holds nothing else. -/
def digits? (base : Nat) (cs : List Char) : Option (List Nat) :=
  cs.mapM (digit? base)

/-- The number that digits spell, the first one weighing most. -/
def ofDigits (base : Nat) (ds : List Nat) : Nat :=
  ds.foldl (fun n d => n * base + d) 0

/-- The decimal digits of a natural number, without leading zeros. -/
def decimal (n : Nat) : List Char :=
  Nat.toDigits 10 n

/-- A natural number as a text. -/
def decimalText (n : Nat) : String :=
  String.ofList (decimal n)

/-- The number of decimal digits of a natural number; zero has one. -/
def decimalLength (n : Nat) : Nat :=
  (decimal n).length

/-- A digit of base sixteen, `A` to `F` for ten to fifteen. -/
def hexUpper (n : Nat) : Char :=
  if n < 10 then Char.ofNat ('0'.toNat + n) else Char.ofNat ('A'.toNat + (n - 10))

/-- A digit of base sixteen, `a` to `f` for ten to fifteen. -/
def hexLower (n : Nat) : Char :=
  if n < 10 then Char.ofNat ('0'.toNat + n) else Char.ofNat ('a'.toNat + (n - 10))

/-- The decimal text of an integer, with a minus sign below zero. -/
def signed : Int → List Char
  | .ofNat n => decimal n
  | .negSucc n => '-' :: decimal (n + 1)

end ListQuery.Text
