/-
JSON values as text.

The text has no blanks.  A string escapes the quote, the backslash and the control characters below
U+0020, and nothing else; a number that is no integer is written in `FloatStyle.compact`.
-/
import ListQuery.Json.Basic
import ListQuery.Numeric.Shortest

namespace ListQuery.Json

open Numeric

/-- A character inside a string. -/
def charText (c : Char) : List Char :=
  match c with
  | '"' => ['\\', '"']
  | '\\' => ['\\', '\\']
  | '\x08' => ['\\', 'b']
  | '\x0c' => ['\\', 'f']
  | '\n' => ['\\', 'n']
  | '\r' => ['\\', 'r']
  | '\t' => ['\\', 't']
  | c =>
    if c.toNat < 0x20 then
      ['\\', 'u', '0', '0', Text.hexLower (c.toNat / 16), Text.hexLower (c.toNat % 16)]
    else [c]

/-- A string with its quotes. -/
def stringText (s : String) : List Char :=
  '"' :: s.toList.flatMap charText ++ ['"']

mutual

/-- The characters of a value. -/
def chars : Json → List Char
  | .null => ['n', 'u', 'l', 'l']
  | .bool true => ['t', 'r', 'u', 'e']
  | .bool false => ['f', 'a', 'l', 's', 'e']
  | .integer n => Text.signed n
  | .float x => FloatStyle.compact.text x
  | .string s => stringText s
  | .array [] => ['[', ']']
  | .array (v :: vs) => '[' :: chars v ++ itemsTail vs
  | .object [] => ['\x7b', '\x7d']
  | .object ((n, v) :: ms) => '\x7b' :: stringText n ++ ':' :: chars v ++ membersTail ms

/-- The items after the first one, with the bracket that ends them. -/
def itemsTail : List Json → List Char
  | [] => [']']
  | v :: vs => ',' :: chars v ++ itemsTail vs

/-- The members after the first one, with the brace that ends them. -/
def membersTail : List (String × Json) → List Char
  | [] => ['\x7d']
  | (n, v) :: ms => ',' :: stringText n ++ ':' :: chars v ++ membersTail ms

end

/-- The text of a value. -/
def text (v : Json) : String :=
  String.ofList v.chars

end ListQuery.Json
