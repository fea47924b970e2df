/-
Predicates as SQL.

A predicate is first a list of fragments, in which columns and operands are still apart from the text
around them.  The fragments become a statement of a dialect, its operands bound, or one line for
people, its operands inline and its columns without their table.

* `fragments` — every child of a group stands in parentheses, so no rule of precedence is needed.
-/
import ListQuery.Predicate.Basic
import ListQuery.Sql.Statement

namespace ListQuery

/-- A part of a predicate in SQL. -/
inductive Fragment where
  | text (s : String)
  | column (c : Column)
  | operand (v : Literal)
  /-- The place where a dialect names the escape of a pattern. -/
  | escapeClause

/-- The sign of a comparison. -/
def Comparison.sign : Comparison → String
  | .eq => "="
  | .notEq => "<>"
  | .lt => "<"
  | .gt => ">"
  | .lteq => "<="
  | .gteq => ">="

namespace Predicate

/-- The operands of a list, a comma between two. -/
def listFragments : List Literal → List Fragment
  | [] => []
  | [v] => [.operand v]
  | v :: vs => .operand v :: .text ", " :: listFragments vs

mutual

/-- The parts of a predicate. -/
def fragments : Predicate → List Fragment
  | .compare c op v => [.column c, .text (" " ++ op.sign ++ " "), .operand v]
  | .isNull c => [.column c, .text " IS NULL"]
  | .isNotNull c => [.column c, .text " IS NOT NULL"]
  | .like c _ pattern => [.column c, .text " LIKE ", .operand (.text pattern), .escapeClause]
  | .oneOf c vs => .column c :: .text " IN (" :: listFragments vs ++ [.text ")"]
  | .range c lower upper closed =>
    [.column c, .text " >= ", .operand lower, .text " AND ", .column c,
     .text (if closed then " <= " else " < "), .operand upper]
  | .and [] => [.text "TRUE"]
  | .and (p :: ps) => .text "(" :: fragments p ++ .text ")" :: groupTail " AND " ps
  | .or [] => [.text "FALSE"]
  | .or (p :: ps) => .text "(" :: fragments p ++ .text ")" :: groupTail " OR " ps
  | .not p => .text "NOT (" :: fragments p ++ [.text ")"]

/-- The children of a group after the first one. -/
def groupTail (connective : String) : List Predicate → List Fragment
  | [] => []
  | p :: ps =>
    .text connective :: .text "(" :: fragments p ++ .text ")" :: groupTail connective ps

end

end Predicate

namespace Sql.Statement

/-- The statement with a fragment at its end. -/
def add (s : Statement) : Fragment → Statement
  | .text t => s.push t
  | .column c => s.pushColumn c.table c.name
  | .operand v => s.bind v
  | .escapeClause => s.push s.dialect.escapeClause

end Sql.Statement

/-- A fragment in a line for people. -/
def Fragment.inline : Fragment → String
  | .text t => t
  | .column c => Sql.quote c.name
  | .operand v => v.inline
  | .escapeClause => ""

namespace Predicate

/-- The predicate as a statement of a dialect. -/
def toSql (p : Predicate) (dialect : Sql.Dialect) : Sql.Statement :=
  p.fragments.foldl Sql.Statement.add (.empty dialect)

/-- The predicate in a line for people. -/
def inline (p : Predicate) : String :=
  String.join (p.fragments.map Fragment.inline)

end Predicate

end ListQuery
