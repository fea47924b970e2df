/-
The types of fields, and the literals that belong to each.

`coerce` fits a single value to a type: what belongs to the type stays as it is, a text may spell a
value of the type, and a number may become a text.  Null belongs to every type; whether null is
allowed is for the operator to say.
-/
import ListQuery.Literal
import ListQuery.Operator
import ListQuery.Text.Blank

namespace ListQuery

open Numeric

/-- The type of a field. -/
inductive FieldType where
  | text
  | integer
  | float
  | boolean
  /-- A moment in time, kept as a text. -/
  | timestamp
  /-- A UUID in its hyphenated form. -/
  | uuid
deriving DecidableEq, Repr

/-- Why a literal does not fit a type. -/
inductive Misfit where
  | list
  | kind (expected : FieldType) (got : LiteralKind)
deriving DecidableEq

namespace FieldType

/-- The name of a type. -/
def name : FieldType → String
  | .text => "text"
  | .integer => "integer"
  | .float => "float"
  | .boolean => "boolean"
  | .timestamp => "timestamp"
  | .uuid => "uuid"

/-- The type of a name. -/
def ofName? : String → Option FieldType
  | "text" => some .text
  | "integer" => some .integer
  | "float" => some .float
  | "boolean" => some .boolean
  | "timestamp" => some .timestamp
  | "uuid" => some .uuid
  | _ => none

/-- The operators that make sense on a type. -/
def operators : FieldType → List Operator
  | .text => Operator.all
  | .integer | .float | .timestamp =>
    [.comparison .eq, .comparison .notEq, .comparison .lt, .comparison .gt, .comparison .lteq,
     .comparison .gteq, .oneOf, .range]
  | .boolean | .uuid => [.comparison .eq, .comparison .notEq, .oneOf]

end FieldType

/-- Whether a character is a digit of base sixteen. -/
def isHexDigit (c : Char) : Bool :=
  (Text.digit? 16 c).isSome

/-- Whether characters are groups of hexadecimal digits of the given lengths, a hyphen between two. -/
def isHyphenated : List Nat → List Char → Bool
  | [], cs => cs.isEmpty
  | [n], cs => cs.length == n && cs.all isHexDigit
  | n :: ns, cs =>
    (cs.take n).length == n && (cs.take n).all isHexDigit &&
      match cs.drop n with
      | '-' :: rest => isHyphenated ns rest
      | _ => false

/-- Whether a text is a UUID: 8, 4, 4, 4 and 12 hexadecimal digits. -/
def isUuid (s : String) : Bool :=
  isHyphenated [8, 4, 4, 4, 12] s.toList

/-- A literal of a type; null passes, and a list never does. -/
def FieldType.coerce (type : FieldType) (v : Literal) : Except Misfit Literal :=
  let misfit := Except.error (.kind type v.kind)
  match type, v with
  | _, .null => .ok .null
  | _, .list _ => .error .list
  | .integer, .int n => .ok (.int n)
  | .integer, .text s =>
    match integer? (Text.trimChars s.toList) with
    | some n => .ok (.int n)
    | none => misfit
  | .float, .int n => .ok (.int n)
  | .float, .float x => .ok (.float x)
  | .float, .text s =>
    match float? (Text.trimChars s.toList) with
    | some (.finite x) => .ok (.float (.finite x))
    | _ => misfit
  | .boolean, .bool b => .ok (.bool b)
  | .boolean, .text s =>
    match Text.trim s with
    | "true" => .ok (.bool true)
    | "false" => .ok (.bool false)
    | _ => misfit
  | .text, .text s => .ok (.text s)
  | .text, .int n => .ok (.text (Literal.int n).inline)
  | .text, .float x => .ok (.text (Literal.float x).inline)
  | .timestamp, .text s => if Text.isBlankText s then misfit else .ok (.text s)
  | .uuid, .text s => if isUuid s then .ok (.text s) else misfit
  | _, _ => misfit

/-- Why a literal does not fit, in words. -/
def Misfit.message : Misfit → String
  | .list => "expected a single value, got a list"
  | .kind expected got => s!"expected {expected.name}, got {got.name}"

end ListQuery
