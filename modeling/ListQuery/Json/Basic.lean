/-
JSON values.

Integers and other numbers are kept apart: `1` is an integer and `1.0` is not.  An object is the list
of its members in the order in which they are written; `insert` keeps such a list sorted by name and
lets the last value of a name stand, which is the form in which the reader hands objects out.
-/
import ListQuery.Numeric.Binary64

namespace ListQuery

open Numeric

/-- A JSON value. -/
inductive Json where
  | null
  | bool (b : Bool)
  | integer (n : Int)
  | float (x : FiniteFloat)
  | string (s : String)
  | array (items : List Json)
  | object (members : List (String × Json))
deriving Inhabited

namespace Json

/-- The members of an object. -/
abbrev Members := List (String × Json)

/-- The value of a name among members; the first one counts. -/
def memberOf? (name : String) (members : Members) : Option Json :=
  List.lookup name members

/-- Members with one more, sorted by the code points of the names; a name that is there already takes
the new value. -/
def Members.insert (name : String) (value : Json) : Members → Members
  | [] => [(name, value)]
  | (n, v) :: rest =>
    if name = n then (name, value) :: rest
    else if name < n then (name, value) :: (n, v) :: rest
    else (n, v) :: Members.insert name value rest

/-- Members sorted by name, the last value of each name kept. -/
def Members.ofList (members : List (String × Json)) : Members :=
  members.foldl (fun sorted (n, v) => Members.insert n v sorted) []

/-- The object of some members, sorted by name. -/
def ofMembers (members : List (String × Json)) : Json :=
  .object (Members.ofList members)

/-- The number a binary64 value is in JSON; what is not finite has no number and becomes `null`. -/
def ofBinary64 : Binary64 → Json
  | .finite x => .float x
  | _ => .null

/-- Whether the value is `null`. -/
def isNull : Json → Bool
  | .null => true
  | _ => false

/-- The value of a name among members, where it is not `null`. -/
def presentOf? (name : String) (members : Members) : Option Json :=
  (memberOf? name members).filter (!·.isNull)

end Json

end ListQuery
