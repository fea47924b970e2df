/-
Words of TOML: the values without quotes or brackets.

A word is a truth value, a number or a moment.  Digits may be grouped by underscores, each between two
digits.  An integer fits 64 bits with a sign; in base sixteen, eight and two it has none.  A moment is a
date, a time of day, or a date with a time and maybe an offset.
-/
import ListQuery.Numeric.NumberText
import ListQuery.Toml.Basic

namespace ListQuery.Toml

open Numeric

/-- Whether a character may stand in a word. -/
def isWordChar (c : Char) : Bool :=
  c.isAlphanum || c == '+' || c == '-' || c == '.' || c == ':' || c == '_'

/-! ### Numbers -/

/-- Digits without the underscores between them. -/
def ungroup? (isDigit : Char → Bool) : List Char → Option (List Char)
  | [] => none
  | [c] => if isDigit c then some [c] else none
  | c :: '_' :: rest => if isDigit c then (ungroup? isDigit rest).map (c :: ·) else none
  | c :: rest => if isDigit c then (ungroup? isDigit rest).map (c :: ·) else none

/-- The digits of a decimal integer: no zero stands in front of others. -/
def wholeDigits? (cs : List Char) : Option (List Char) :=
  if cs.head? = some '0' ∧ cs ≠ ['0'] then none else ungroup? Char.isDigit cs

/-- The integer of 64 bits with these digits. -/
def integerOf? (base : Nat) (negative : Bool) (cs : List Char) : Option Toml :=
  match Text.digits? base cs with
  | some ds =>
    let n := if negative then -(Text.ofDigits base ds : Int) else Text.ofDigits base ds
    if inInt64 n then some (.integer n) else none
  | none => none

/-- The integer without a sign in another base than ten. -/
def basedInteger? (base : Nat) (cs : List Char) : Option Toml :=
  (ungroup? (fun c => (Text.digit? base c).isSome) cs).bind (integerOf? base false)

/-- The integer that a word spells. -/
def integer? : List Char → Option Toml
  | '0' :: 'x' :: rest => basedInteger? 16 rest
  | '0' :: 'o' :: rest => basedInteger? 8 rest
  | '0' :: 'b' :: rest => basedInteger? 2 rest
  | cs =>
    let (sign, cs) := Sign.take cs
    (wholeDigits? cs).bind (integerOf? 10 (sign = some .minus))

/-- The text in front of the first character of a sort, and the text after it where there is one. -/
def cut (p : Char → Bool) (cs : List Char) : List Char × Option (List Char) :=
  match cs.dropWhile (!p ·) with
  | [] => (cs, none)
  | _ :: rest => (cs.takeWhile (!p ·), some rest)

/-- The digits of an optional part of a number; a part that is there needs digits. -/
def partDigits? : Option (List Char) → Option (Option (List Char))
  | none => some none
  | some cs => (ungroup? Char.isDigit cs).map some

/-- The number with a point or an exponent that a word spells. -/
def number? (cs : List Char) : Option Toml :=
  let (sign, cs) := Sign.take cs
  let (mantissa, exponent) := cut (fun c => c == 'e' || c == 'E') cs
  let (whole, fraction) := cut (· == '.') mantissa
  let (exponentSign, exponent) :=
    match exponent with
    | some e => ((Sign.take e).1, some (Sign.take e).2)
    | none => (none, none)
  match wholeDigits? whole, partDigits? fraction, partDigits? exponent with
  | some whole, some fraction, some exponent =>
    if fraction.isNone && exponent.isNone then none
    else
      match (NumberText.mk sign whole fraction (exponent.map (exponentSign, ·))).toBinary64 with
      | .infinity false => none
      | x => some (.float x)
  | _, _, _ => none

/-- The number without digits that a word names. -/
def namedNumber? (cs : List Char) : Option Toml :=
  let (sign, cs) := Sign.take cs
  if cs = ['i', 'n', 'f'] then some (.float (.infinity (sign = some .minus)))
  else if cs = ['n', 'a', 'n'] then some (.float .nan)
  else none

/-! ### Moments -/

/-- The number that two digits spell, and what follows them. -/
def twoDigits? : List Char → Option (Nat × List Char)
  | a :: b :: rest =>
    match Text.digits? 10 [a, b] with
    | some ds => some (Text.ofDigits 10 ds, rest)
    | none => none
  | _ => none

/-- The number of days of a month. -/
def daysOf (year month : Nat) : Nat :=
  if month = 2 then
    if year % 4 = 0 ∧ (year % 100 ≠ 0 ∨ year % 400 = 0) then 29 else 28
  else if month = 4 ∨ month = 6 ∨ month = 9 ∨ month = 11 then 30
  else 31

/-- What follows a date. -/
def afterDate? (cs : List Char) : Option (List Char) := do
  let (century, cs) ← twoDigits? cs
  let (years, cs) ← twoDigits? cs
  match cs with
  | '-' :: cs =>
    let (month, cs) ← twoDigits? cs
    match cs with
    | '-' :: cs =>
      let (day, cs) ← twoDigits? cs
      if 1 ≤ month ∧ month ≤ 12 ∧ 1 ≤ day ∧ day ≤ daysOf (century * 100 + years) month then
        some cs
      else none
    | _ => none
  | _ => none

/-- What follows a time of day. -/
def afterTime? (cs : List Char) : Option (List Char) := do
  let (hour, cs) ← twoDigits? cs
  match cs with
  | ':' :: cs =>
    let (minute, cs) ← twoDigits? cs
    match cs with
    | ':' :: cs =>
      let (second, cs) ← twoDigits? cs
      if hour ≤ 23 ∧ minute ≤ 59 ∧ second ≤ 60 then
        match cs with
        | '.' :: c :: rest => if c.isDigit then some (rest.dropWhile Char.isDigit) else none
        | cs => some cs
      else none
    | _ => none
  | _ => none

/-- What follows an offset, if there is one. -/
def afterOffset? : List Char → Option (List Char)
  | 'Z' :: rest | 'z' :: rest => some rest
  | '+' :: rest | '-' :: rest => do
    let (hour, cs) ← twoDigits? rest
    match cs with
    | ':' :: cs =>
      let (minute, cs) ← twoDigits? cs
      if hour ≤ 23 ∧ minute ≤ 59 then some cs else none
    | _ => none
  | cs => some cs

/-- Whether a word is a date, or a time of day, or both with an optional offset. -/
def isMoment (cs : List Char) : Bool :=
  match afterDate? cs with
  | some [] => true
  | some (c :: rest) =>
    (c == 'T' || c == 't' || c == ' ') && ((afterTime? rest).bind afterOffset?) == some []
  | none => afterTime? cs == some []

/-! ### Words -/

/-- The value that a word spells. -/
def word? (cs : List Char) : Option Toml :=
  if cs = ['t', 'r', 'u', 'e'] then some (.boolean true)
  else if cs = ['f', 'a', 'l', 's', 'e'] then some (.boolean false)
  else if isMoment cs then some (.moment (String.ofList cs))
  else (integer? cs).or ((number? cs).or (namedNumber? cs))

/-- The word that a text starts with, and what follows it.  A date and a time may have one space between
them. -/
def takeWord (cs : List Char) : List Char × List Char :=
  let first := cs.takeWhile isWordChar
  match afterDate? first, cs.dropWhile isWordChar with
  | some [], ' ' :: rest =>
    let second := rest.takeWhile isWordChar
    if (afterTime? second).isSome then (first ++ ' ' :: second, rest.dropWhile isWordChar)
    else (first, ' ' :: rest)
  | _, rest => (first, rest)

end ListQuery.Toml
