/-
Directions of an ordering.
-/
import ListQuery.QueryError

namespace ListQuery

/-- Whether an ordering goes up or down. -/
inductive Direction where
  | asc
  | desc
deriving DecidableEq, Repr

namespace Direction

/-- The name in requests. -/
def name : Direction → String
  | .asc => "asc"
  | .desc => "desc"

/-- The keyword in SQL. -/
def keyword : Direction → String
  | .asc => "ASC"
  | .desc => "DESC"

/-- The direction of a name. -/
def ofName? : String → Option Direction
  | "asc" => some .asc
  | "desc" => some .desc
  | _ => none

theorem ofName?_name (d : Direction) : ofName? d.name = some d := by
  cases d <;> rfl

/-- The direction that a request names, blanks around it and the case of its letters aside. -/
def read (text : String) : Except QueryError Direction :=
  match ofName? (String.ofList ((Text.trimChars text.toList).map Char.toLower)) with
  | some d => .ok d
  | none => .error (.direction text)

end Direction

end ListQuery
