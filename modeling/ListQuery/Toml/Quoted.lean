/-
Strings of TOML.

There are four: in double quotes, where a backslash escapes, and in single quotes, where nothing does;
each in one line or, with three quotes, in several.  A control character other than a tab stands in
none of them.  In several lines a line end is a line feed, however it is written, and one right after
the opening quotes is dropped; a backslash at the end of a line takes with it the blanks and line ends
that follow, and up to two quotes may stand in front of the closing ones.
-/
import ListQuery.Text.Digit

namespace ListQuery.Toml

/-- Whether a character is a blank inside a line. -/
def isSpace (c : Char) : Bool :=
  c == ' ' || c == '\t'

/-- Whether a character may stand as it is in a string or a comment. -/
def isVisible (c : Char) : Bool :=
  c == '\t' || (decide (0x20 ≤ c.toNat) && c.toNat != 0x7F)

/-- What follows a line end, if the text starts with one. -/
def lineEnd? : List Char → Option (List Char)
  | '\n' :: rest => some rest
  | '\r' :: '\n' :: rest => some rest
  | _ => none

/-- The character that a backslash and this character stand for. -/
def shortEscape? : Char → Option Char
  | 'b' => some '\x08'
  | 't' => some '\t'
  | 'n' => some '\n'
  | 'f' => some '\x0c'
  | 'r' => some '\r'
  | '"' => some '"'
  | '\\' => some '\\'
  | _ => none

/-- The character of a code point in digits of base sixteen. -/
def codePoint? (cs : List Char) : Option Char :=
  match Text.digits? 16 cs with
  | some ds =>
    let n := Text.ofDigits 16 ds
    if n.isValidChar then some (Char.ofNat n) else none
  | none => none

/-- A character in front of what has been read. -/
def push (c? : Option Char) (read : Option (List Char × List Char)) :
    Option (List Char × List Char) :=
  match c?, read with
  | some c, some (cs, rest) => some (c :: cs, rest)
  | _, _ => none

/-- The characters up to a closing double quote, and what follows it. -/
def basic? : List Char → Option (List Char × List Char)
  | [] => none
  | '"' :: rest => some ([], rest)
  | '\\' :: 'u' :: a :: b :: c :: d :: rest => push (codePoint? [a, b, c, d]) (basic? rest)
  | '\\' :: 'U' :: a :: b :: c :: d :: e :: f :: g :: h :: rest =>
    push (codePoint? [a, b, c, d, e, f, g, h]) (basic? rest)
  | '\\' :: c :: rest => push (shortEscape? c) (basic? rest)
  | c :: rest => if isVisible c && c != '\\' then push (some c) (basic? rest) else none

/-- The characters up to a closing single quote, and what follows it. -/
def literal? : List Char → Option (List Char × List Char)
  | [] => none
  | '\'' :: rest => some ([], rest)
  | c :: rest => if isVisible c then push (some c) (literal? rest) else none

/-- The quotes that belong to a string in front of its closing three, the first three being passed. -/
def closing (quote : Char) (rest : List Char) : List Char × List Char :=
  let more := (rest.take 2).takeWhile (· == quote)
  (more, rest.drop more.length)

/-- Whether nothing but blanks stands before the next line end. -/
def endsLine (cs : List Char) : Bool :=
  (lineEnd? (cs.dropWhile isSpace)).isSome

/-- The characters up to three closing double quotes, and what follows them; `skip` says that blanks and
line ends are passed over. -/
def basicLines? (skip : Bool) : List Char → Option (List Char × List Char)
  | [] => none
  | '"' :: '"' :: '"' :: rest => some (closing '"' rest)
  | '\n' :: rest => if skip then basicLines? true rest else push (some '\n') (basicLines? false rest)
  | '\r' :: '\n' :: rest =>
    if skip then basicLines? true rest else push (some '\n') (basicLines? false rest)
  | '\\' :: 'u' :: a :: b :: c :: d :: rest =>
    push (codePoint? [a, b, c, d]) (basicLines? false rest)
  | '\\' :: 'U' :: a :: b :: c :: d :: e :: f :: g :: h :: rest =>
    push (codePoint? [a, b, c, d, e, f, g, h]) (basicLines? false rest)
  | '\\' :: c :: rest =>
    if endsLine (c :: rest) then basicLines? true (c :: rest)
    else push (shortEscape? c) (basicLines? false rest)
  | c :: rest =>
    if skip && isSpace c then basicLines? true rest
    else if isVisible c && c != '\\' then push (some c) (basicLines? false rest)
    else none

/-- The characters up to three closing single quotes, and what follows them. -/
def literalLines? : List Char → Option (List Char × List Char)
  | [] => none
  | '\'' :: '\'' :: '\'' :: rest => some (closing '\'' rest)
  | '\n' :: rest => push (some '\n') (literalLines? rest)
  | '\r' :: '\n' :: rest => push (some '\n') (literalLines? rest)
  | c :: rest => if isVisible c then push (some c) (literalLines? rest) else none

/-- The text without the line end that it starts with, if it does. -/
def dropLineEnd (cs : List Char) : List Char :=
  (lineEnd? cs).getD cs

/-- The string of one line that a text starts with, and what follows it. -/
def quotedLine? : List Char → Option (String × List Char)
  | '"' :: rest => (basic? rest).map fun (cs, rest) => (String.ofList cs, rest)
  | '\'' :: rest => (literal? rest).map fun (cs, rest) => (String.ofList cs, rest)
  | _ => none

/-- The string that a text starts with, and what follows it. -/
def quoted? : List Char → Option (String × List Char)
  | '"' :: '"' :: '"' :: rest =>
    (basicLines? false (dropLineEnd rest)).map fun (cs, rest) => (String.ofList cs, rest)
  | '\'' :: '\'' :: '\'' :: rest =>
    (literalLines? (dropLineEnd rest)).map fun (cs, rest) => (String.ofList cs, rest)
  | cs => quotedLine? cs

end ListQuery.Toml
