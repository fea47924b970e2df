/-
TOML text read as a document.

The text is read line by line: a key with its value, a header in brackets, a comment, or nothing.
Values may hold others, an array over several lines and with comments, a table in braces in one line.

* `read?` — the entries of the document of a text; nothing where the text is no TOML;
* `maxNesting` — how deep values nest, and how many parts a key has.

Design notes: a value is read from the front of a text and leaves a rest.  The number of characters
bounds the steps, since each step leaves a shorter text; `room` is the number of brackets and braces
that may still be opened inside each other.
-/
import ListQuery.Toml.Document
import ListQuery.Toml.Quoted
import ListQuery.Toml.Word

namespace ListQuery.Toml

/-- The text without the blanks at its start. -/
def skipSpace (cs : List Char) : List Char :=
  cs.dropWhile isSpace

/-- The most arrays and tables that values open inside each other, and the most parts of a key.  The two
are counted apart, and each value and each key anew. -/
def maxNesting : Nat := 79

/-! ### Keys -/

/-- Whether a character may stand in a key without quotes. -/
def isKeyChar (c : Char) : Bool :=
  c.isAlphanum || c == '_' || c == '-'

/-- The part of a key that a text starts with, and what follows it and its blanks. -/
def keyPart? (cs : List Char) : Option (String × List Char) :=
  match quotedLine? cs with
  | some (key, rest) => some (key, skipSpace rest)
  | none =>
    match cs.takeWhile isKeyChar with
    | [] => none
    | key => some (String.ofList key, skipSpace (cs.dropWhile isKeyChar))

/-- The parts of the key that a text starts with, blanks around its dots aside, and what follows; nothing
where there are more parts than are allowed. -/
def keyParts? : Nat → List Char → Option (List String × List Char)
  | 0, _ => none
  | most + 1, cs =>
    match keyPart? (skipSpace cs) with
    | some (part, '.' :: rest) =>
      (keyParts? most rest).map fun (parts, rest) => (part :: parts, rest)
    | some (part, rest) => some ([part], rest)
    | none => none

/-- The key that a text starts with, the parts before its last one apart, and what follows. -/
def key? (cs : List Char) : Option ((List String × String) × List Char) :=
  match keyParts? maxNesting cs with
  | some (parts, rest) => parts.getLast?.map fun key => ((parts.dropLast, key), rest)
  | none => none

/-! ### Values -/

/-- What follows a comment, if the text starts with one and it is sound. -/
def comment? : List Char → Option (List Char)
  | '#' :: rest =>
    let after := rest.dropWhile isVisible
    if after.isEmpty || (lineEnd? after).isSome then some after else none
  | _ => none

/-- What follows the rest of a line that says nothing more; nothing where it says more. -/
def endOfLine? (cs : List Char) : Option (List Char) :=
  let cs := skipSpace cs
  let cs := if cs.head? = some '#' then comment? cs else some cs
  match cs with
  | some [] => some []
  | some cs => lineEnd? cs
  | none => none

/-- The text without the blanks, line ends and comments at its start, read inside a comment or outside;
a comment with a character that may not stand in it is left at that character. -/
def skipFrom (comment : Bool) : List Char → List Char
  | [] => []
  | '\n' :: rest => skipFrom false rest
  | '\r' :: '\n' :: rest => skipFrom false rest
  | c :: rest =>
    if comment then if isVisible c then skipFrom true rest else c :: rest
    else if isSpace c then skipFrom false rest
    else if c = '#' then skipFrom true rest
    else c :: rest

/-- The text without the blanks, line ends and comments at its start. -/
def skipGap (cs : List Char) : List Char :=
  skipFrom false cs

mutual

/-- The value that a text starts with, and what follows it; nothing where it nests deeper than there is
room. -/
def takeValue? : Nat → Nat → List Char → Option (Toml × List Char)
  | 0, _, _ => none
  | fuel + 1, room, cs =>
    match cs, room with
    | '[' :: rest, room + 1 => (arrayItems? fuel room rest).map fun (vs, rest) => (.array vs, rest)
    | '\x7b' :: rest, room + 1 => do
      let (pairs, rest) ← braces? fuel room (skipSpace rest)
      return (.table .inline (← inlineEntries? pairs), rest)
    | '"' :: _, _ | '\'' :: _, _ => (quoted? cs).map fun (s, rest) => (.string s, rest)
    | _, _ => (word? (takeWord cs).1).map (·, (takeWord cs).2)

/-- The items of an array up to its closing bracket, and what follows the bracket. -/
def arrayItems? : Nat → Nat → List Char → Option (List Toml × List Char)
  | 0, _, _ => none
  | fuel + 1, room, cs =>
    match skipGap cs with
    | ']' :: rest => some ([], rest)
    | cs => do
      let (v, rest) ← takeValue? fuel room cs
      match skipGap rest with
      | ']' :: rest => return ([v], rest)
      | ',' :: rest => do
        let (vs, rest) ← arrayItems? fuel room rest
        return (v :: vs, rest)
      | _ => none

/-- The pairs of a table up to its closing brace, and what follows the brace. -/
def braces? : Nat → Nat → List Char → Option (List (List String × String × Toml) × List Char)
  | 0, _, _ => none
  | fuel + 1, room, cs =>
    match cs with
    | '\x7d' :: rest => some ([], rest)
    | cs => members? fuel room cs

/-- The pairs of a table that holds some, up to its closing brace, and what follows the brace. -/
def members? : Nat → Nat → List Char → Option (List (List String × String × Toml) × List Char)
  | 0, _, _ => none
  | fuel + 1, room, cs =>
    match key? cs with
    | some ((path, key), '=' :: rest) => do
      let (v, rest) ← takeValue? fuel room (skipSpace rest)
      match skipSpace rest with
      | '\x7d' :: rest => return ([(path, key, v)], rest)
      | ',' :: rest => do
        let (pairs, rest) ← members? fuel room rest
        return ((path, key, v) :: pairs, rest)
      | _ => none
    | _ => none

end

/-- The value that a text starts with, and what follows it.  Each two steps leave a shorter text. -/
def readValue? (cs : List Char) : Option (Toml × List Char) :=
  takeValue? (2 * cs.length + 2) maxNesting cs

/-! ### Lines -/

/-- The header that a text starts with after its opening brackets, and what follows. -/
def headerLine? (isItem : Bool) (cs : List Char) : Option (Line × List Char) :=
  match key? cs, isItem with
  | some ((path, key), ']' :: ']' :: rest), true => (endOfLine? rest).map (.item path key, ·)
  | some ((path, key), ']' :: rest), false => (endOfLine? rest).map (.header path key, ·)
  | _, _ => none

/-- The key with its value that a text starts with, and what follows the line. -/
def pairLine? (cs : List Char) : Option (Line × List Char) :=
  match key? cs with
  | some ((path, key), '=' :: rest) => do
    let (v, rest) ← readValue? (skipSpace rest)
    return (.pair path key v, ← endOfLine? rest)
  | _ => none

/-- The line that a text starts with, and what follows it. -/
def line? : List Char → Option (Line × List Char)
  | '[' :: '[' :: rest => headerLine? true rest
  | '[' :: rest => headerLine? false rest
  | cs => pairLine? cs

/-- The lines of a text. -/
def lines? : Nat → List Char → Option (List Line)
  | 0, _ => none
  | fuel + 1, cs =>
    match skipGap cs with
    | [] => some []
    | cs =>
      match line? cs with
      | some (line, rest) => (lines? fuel rest).map (line :: ·)
      | none => none

/-- The entries of the document of a text, which may start with a byte order mark. -/
def read? (s : String) : Option Entries :=
  let cs := s.toList
  let cs := if cs.head? = some '\uFEFF' then cs.drop 1 else cs
  (lines? (cs.length + 1) cs).bind Document.ofLines

end ListQuery.Toml
