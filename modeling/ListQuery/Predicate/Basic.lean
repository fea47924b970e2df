/-
Predicates: conditions on the columns of a table.

A predicate is what a condition becomes once its fields are columns.  A range and a membership are
tests of their own, a comparison with null is a test for null, and a pattern is ready for `LIKE`.
-/
import ListQuery.Literal
import ListQuery.Operator
import ListQuery.Sql.Identifier

namespace ListQuery

/-- A column of a table. -/
structure Column where
  table : String
  name : String
deriving DecidableEq

/-- A condition on columns. -/
inductive Predicate where
  | compare (column : Column) (op : Comparison) (value : Literal)
  | isNull (column : Column)
  | isNotNull (column : Column)
  /-- The pattern has its wildcards, and what is to match literally is escaped. -/
  | like (column : Column) (kind : Placement) (pattern : String)
  | oneOf (column : Column) (values : List Literal)
  | range (column : Column) (lower upper : Literal) (closed : Bool)
  | and (children : List Predicate)
  | or (children : List Predicate)
  | not (child : Predicate)

/-- The pattern for a text at a place: the text escaped, with a wildcard where more may stand. -/
def Placement.pattern (kind : Placement) (text : String) : String :=
  match kind with
  | .contains => "%" ++ Sql.literalPattern text ++ "%"
  | .startsWith => Sql.literalPattern text ++ "%"
  | .endsWith => "%" ++ Sql.literalPattern text

namespace Predicate

mutual

/-- The columns of the tests, from left to right. -/
def columns : Predicate → List Column
  | .compare column _ _ | .isNull column | .isNotNull column | .like column _ _
  | .oneOf column _ | .range column _ _ _ => [column]
  | .and children | .or children => columnsOf children
  | .not child => columns child

/-- The columns of the tests of some predicates. -/
def columnsOf : List Predicate → List Column
  | [] => []
  | p :: ps => columns p ++ columnsOf ps

end

end Predicate

end ListQuery
