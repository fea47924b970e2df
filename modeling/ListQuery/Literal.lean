/-
Literals: the values that a filter compares with.

A literal is null, a truth value, an integer of 64 bits, a binary64 number, a text, or a list of
literals.  `ofJson?` reads one from JSON, where objects have no literal, and `toJson` writes it back;
`inline` is its text in SQL that is only read by people.

* `agrees` — equality by value: the two zeros agree, and a number that is none agrees with nothing,
  not even itself.
-/
import ListQuery.Json.Basic
import ListQuery.Numeric.NumberText
import ListQuery.Numeric.Shortest

namespace ListQuery

open Numeric

/-- A value that a filter compares with. -/
inductive Literal where
  | null
  | bool (b : Bool)
  | int (n : Int64)
  | float (x : Binary64)
  | text (s : String)
  | list (items : List Literal)
deriving Inhabited

/-- What sort of value a literal is. -/
inductive LiteralKind where
  | null
  | boolean
  | integer
  | float
  | string
  | list
deriving DecidableEq

/-- The name of a sort of value. -/
def LiteralKind.name : LiteralKind → String
  | .null => "null"
  | .boolean => "boolean"
  | .integer => "integer"
  | .float => "float"
  | .string => "string"
  | .list => "list"

namespace Literal

/-- The sort of a literal. -/
def kind : Literal → LiteralKind
  | .null => .null
  | .bool _ => .boolean
  | .int _ => .integer
  | .float _ => .float
  | .text _ => .string
  | .list _ => .list

/-- Whether the literal is null. -/
def isNull (v : Literal) : Bool :=
  v.kind = .null

/-- Whether the literal is a single value. -/
def isScalar (v : Literal) : Bool :=
  v.kind ≠ .list

/-- The literal of an integer: exact in 64 bits, and the nearest binary64 number past them. -/
def ofInt (n : Int) : Literal :=
  match int64? n with
  | some i => .int i
  | none => .float (.ofInt n)

mutual

/-- The literal of a JSON value; an object has none, and neither has an array that holds one. -/
def ofJson? : Json → Option Literal
  | .null => some .null
  | .bool b => some (.bool b)
  | .integer n => some (ofInt n)
  | .float x => some (.float (.finite x))
  | .string s => some (.text s)
  | .array items => (ofItems? items).map .list
  | .object _ => none

/-- The literals of the items of an array. -/
def ofItems? : List Json → Option (List Literal)
  | [] => some []
  | v :: vs =>
    match ofJson? v, ofItems? vs with
    | some l, some ls => some (l :: ls)
    | _, _ => none

end

mutual

/-- The JSON value of a literal; a number that is not finite becomes null. -/
def toJson : Literal → Json
  | .null => .null
  | .bool b => .bool b
  | .int n => .integer n.toInt
  | .float x => .ofBinary64 x
  | .text s => .string s
  | .list items => .array (toItems items)

/-- The JSON values of some literals. -/
def toItems : List Literal → List Json
  | [] => []
  | l :: ls => toJson l :: toItems ls

end

/-- A text in single quotes, a quote inside it being written twice. -/
def quoted (s : String) : List Char :=
  '\'' :: s.toList.flatMap (fun c => if c = '\'' then ['\'', '\''] else [c]) ++ ['\'']

mutual

/-- The characters of a literal inside SQL that people read. -/
def inlineChars : Literal → List Char
  | .null => ['N', 'U', 'L', 'L']
  | .bool true => ['T', 'R', 'U', 'E']
  | .bool false => ['F', 'A', 'L', 'S', 'E']
  | .int n => Text.signed n.toInt
  | .float x => x.plainText
  | .text s => quoted s
  | .list [] => ['(', ')']
  | .list (l :: ls) => '(' :: inlineChars l ++ inlineTail ls

/-- The items after the first one, with the parenthesis that ends them. -/
def inlineTail : List Literal → List Char
  | [] => [')']
  | l :: ls => ',' :: ' ' :: inlineChars l ++ inlineTail ls

end

/-- A literal inside SQL that people read. -/
def inline (l : Literal) : String :=
  String.ofList l.inlineChars

/-- A literal without quotes: a text as it stands, any other inline. -/
def bare : Literal → String
  | .text s => s
  | l => l.inline

mutual

/-- Whether two literals are equal by value. -/
def agrees : Literal → Literal → Bool
  | .null, .null => true
  | .bool a, .bool b => a == b
  | .int m, .int n => m == n
  | .float x, .float y => x.agrees y
  | .text s, .text t => s == t
  | .list as, .list bs => agreeItems as bs
  | _, _ => false

/-- Whether two lists hold literals equal by value in the same places. -/
def agreeItems : List Literal → List Literal → Bool
  | [], [] => true
  | a :: as, b :: bs => agrees a b && agreeItems as bs
  | _, _ => false

end

/-- How two numbers compare by value, an integer being rounded where the other one is not an integer;
what is no number compares with nothing. -/
def order? : Literal → Literal → Option Ordering
  | .int m, .int n => some (compare m.toInt n.toInt)
  | .int m, .float y => (Binary64.ofInt m.toInt).order? y
  | .float x, .int n => x.order? (.ofInt n.toInt)
  | .float x, .float y => x.order? y
  | _, _ => none

end Literal

end ListQuery
