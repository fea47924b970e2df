/-
The tokens of JSON text.

`tokens?` splits a text into brackets, commas, colons, strings, numbers and the three words; blanks
between tokens are dropped, and one character that no token can start or a token of wrong spelling
refuses the whole text.

* A string is read in two steps: `Unit16.scan` resolves the escapes up to the closing quote, an escape of
  four digits giving one unit of UTF-16, and `Unit16.join` puts the units together; half a pair alone
  refuses the string.
* A number without point and exponent is an integer if it fits 64 bits with a sign or without; else it
  is the nearest binary64 number, and one past the greatest is refused.  Minus zero is not an integer.

Design notes: the nearest number is a choice that round trips rely on.  Readers that prefer speed to
exactness miss it by one step on some texts, `3e23` among them, and what they read is not followed here.
-/
import ListQuery.Json.Basic
import ListQuery.Numeric.NumberText

namespace ListQuery.Json

open Numeric

/-- A token of JSON text; an atom is a value that holds no other. -/
inductive Token where
  | openBracket
  | closeBracket
  | openBrace
  | closeBrace
  | comma
  | colon
  | string (s : String)
  | atom (v : Json)

/-! ### Strings -/

/-- A part of a string: a character as it stands, or one unit of UTF-16 from an escape. -/
inductive Unit16 where
  | char (c : Char)
  | escaped (n : Nat)

namespace Unit16

/-- The part that a backslash and this character stand for. -/
def ofEscape? : Char → Option Unit16
  | '"' => some (.char '"')
  | '\\' => some (.char '\\')
  | '/' => some (.char '/')
  | 'b' => some (.char '\x08')
  | 'f' => some (.char '\x0c')
  | 'n' => some (.char '\n')
  | 'r' => some (.char '\r')
  | 't' => some (.char '\t')
  | _ => none

/-- The parts of a string up to its closing quote, and what follows the quote. -/
def scan : List Char → Option (List Unit16 × List Char)
  | [] => none
  | '"' :: rest => some ([], rest)
  | '\\' :: 'u' :: a :: b :: c :: d :: rest =>
    match Text.digits? 16 [a, b, c, d], scan rest with
    | some ds, some (parts, rest) => some (.escaped (Text.ofDigits 16 ds) :: parts, rest)
    | _, _ => none
  | '\\' :: e :: rest =>
    match ofEscape? e, scan rest with
    | some part, some (parts, rest) => some (part :: parts, rest)
    | _, _ => none
  | c :: rest =>
    if c = '\\' ∨ c.toNat < 0x20 then none
    else
      match scan rest with
      | some (parts, rest) => some (.char c :: parts, rest)
      | none => none

/-- Whether a unit is the first half of a pair. -/
def isHigh (n : Nat) : Bool :=
  decide (0xD800 ≤ n ∧ n < 0xDC00)

/-- Whether a unit is the second half of a pair. -/
def isLow (n : Nat) : Bool :=
  decide (0xDC00 ≤ n ∧ n < 0xE000)

/-- The characters of some parts, each first half of a pair followed by its second. -/
def join : List Unit16 → Option (List Char)
  | [] => some []
  | .char c :: rest => (join rest).map (c :: ·)
  | .escaped a :: .escaped b :: rest =>
    if isHigh a then
      if isLow b then
        (join rest).map (Char.ofNat (0x10000 + (a - 0xD800) * 0x400 + (b - 0xDC00)) :: ·)
      else none
    else if isLow a then none
    else (join (.escaped b :: rest)).map (Char.ofNat a :: ·)
  | .escaped a :: rest =>
    if isHigh a || isLow a then none else (join rest).map (Char.ofNat a :: ·)

theorem length_of_scan {cs rest : List Char} {parts : List Unit16}
    (h : scan cs = some (parts, rest)) : rest.length < cs.length := by
  fun_induction scan cs generalizing parts rest <;> simp_all <;> grind

end Unit16

/-! ### Numbers and words -/

/-- Whether a character can stand in a number. -/
def isNumberChar (c : Char) : Bool :=
  c.isDigit || c == '-' || c == '+' || c == '.' || c == 'e' || c == 'E'

/-- Whether the parts of a number are spelt as JSON asks: digits before the point, without a zero in
front of others, and digits after a point and in an exponent. -/
def isNumber (t : NumberText) : Bool :=
  t.sign != some .plus && !t.whole.isEmpty && (t.whole.length == 1 || t.whole.head? != some '0') &&
    t.fraction.all (fun ds => !ds.isEmpty) && t.hasExponentDigits

/-- The value of a number's parts. -/
def ofNumber? (t : NumberText) : Option Json :=
  if t.isInteger ∧ (Int64.minValue.toInt ≤ t.wholeValue ∧ t.wholeValue < UInt64.size)
      ∧ ¬(t.isNegative ∧ t.wholeValue = 0) then
    some (.integer t.wholeValue)
  else
    match t.toBinary64 with
    | .finite x => some (.float x)
    | _ => none

/-- The value that a number's text spells. -/
def number? (cs : List Char) : Option Json :=
  match NumberText.scan cs with
  | some t => if isNumber t then ofNumber? t else none
  | none => none

/-- The value that a word spells. -/
def word? (cs : List Char) : Option Json :=
  if cs = ['n', 'u', 'l', 'l'] then some .null
  else if cs = ['t', 'r', 'u', 'e'] then some (.bool true)
  else if cs = ['f', 'a', 'l', 's', 'e'] then some (.bool false)
  else none

/-! ### The whole text -/

/-- Whether a character may stand between tokens. -/
def isSpace (c : Char) : Bool :=
  c == ' ' || c == '\t' || c == '\n' || c == '\r'

/-- The token that is one character. -/
def Token.ofChar? : Char → Option Token
  | '[' => some .openBracket
  | ']' => some .closeBracket
  | '\x7b' => some .openBrace
  | '\x7d' => some .closeBrace
  | ',' => some .comma
  | ':' => some .colon
  | _ => none

theorem length_dropWhile_le (p : Char → Bool) (cs : List Char) :
    (cs.dropWhile p).length ≤ cs.length :=
  (List.dropWhile_sublist p).length_le

/-- The first token of a text that starts with this character, and what follows the token. -/
def Token.next? (c : Char) (rest : List Char) : Option (Token × List Char) :=
  match Token.ofChar? c with
  | some t => some (t, rest)
  | none =>
    if c = '"' then
      match Unit16.scan rest with
      | some (parts, rest) => (Unit16.join parts).map fun cs => (.string (String.ofList cs), rest)
      | none => none
    else if isNumberChar c then
      (number? (c :: rest.takeWhile isNumberChar)).map
        fun v => (.atom v, rest.dropWhile isNumberChar)
    else
      (word? (c :: rest.takeWhile Char.isAlpha)).map
        fun v => (.atom v, rest.dropWhile Char.isAlpha)

theorem Token.length_of_next? {c : Char} {rest after : List Char} {t : Token}
    (h : Token.next? c rest = some (t, after)) : after.length ≤ rest.length := by
  unfold Token.next? at h
  split at h
  · simp_all
  · split at h
    · split at h
      · rename_i hs
        have := Unit16.length_of_scan hs
        simp only [Option.map_eq_some_iff, Prod.mk.injEq] at h
        obtain ⟨_, _, _, rfl⟩ := h
        omega
      · simp at h
    · split at h <;>
      · simp only [Option.map_eq_some_iff, Prod.mk.injEq] at h
        obtain ⟨_, _, _, rfl⟩ := h
        exact length_dropWhile_le _ _

/-- The tokens of a text. -/
def tokens? : List Char → Option (List Token)
  | [] => some []
  | c :: rest =>
    if isSpace c then tokens? rest
    else
      match _h : Token.next? c rest with
      | some (t, after) => (tokens? after).map (t :: ·)
      | none => none
termination_by cs => cs.length
decreasing_by
  · simp
  · have := Token.length_of_next? _h
    simp only [List.length_cons]
    omega

end ListQuery.Json
