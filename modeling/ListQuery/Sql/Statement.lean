/-
SQL statements with bound parameters.

A statement is text with placeholders, and the literals that are bound to them, in the order of the
placeholders.  Values never stand in the text.  How a placeholder and the escape clause of a pattern
are written is for the dialect to say.
-/
import ListQuery.Literal
import ListQuery.Sql.Identifier
import ListQuery.Text.Digit

namespace ListQuery.Sql

/-- A dialect of SQL. -/
inductive Dialect where
  | postgres
  | mysql
  | sqlite
deriving DecidableEq

namespace Dialect

/-- The placeholder of the parameter with this number, the first being one. -/
def placeholder (d : Dialect) (number : Nat) : String :=
  match d with
  | .postgres => "$" ++ Text.decimalText number
  | .mysql | .sqlite => "?"

/-- The clause that makes the backslash the escape of a pattern.  Where string literals have escapes of
their own, the backslash is written twice. -/
def escapeClause : Dialect → String
  | .mysql => " ESCAPE '\\\\'"
  | .postgres | .sqlite => " ESCAPE '\\'"

end Dialect

/-- A statement with the literals bound so far. -/
structure Statement where
  dialect : Dialect
  text : String
  params : List Literal

namespace Statement

/-- The statement without text. -/
def empty (dialect : Dialect) : Statement :=
  ⟨dialect, "", []⟩

/-- The number of the parameter that is bound next. -/
def nextNumber (s : Statement) : Nat :=
  s.params.length + 1

/-- The statement with more text. -/
def push (s : Statement) (text : String) : Statement :=
  { s with text := s.text ++ text }

/-- The statement with a literal bound, its placeholder at the end. -/
def bind (s : Statement) (v : Literal) : Statement :=
  { s with text := s.text ++ s.dialect.placeholder s.nextNumber, params := s.params ++ [v] }

/-- The statement with a name at the end. -/
def pushName (s : Statement) (name : String) : Statement :=
  s.push (quote name)

/-- The statement with a column and its table at the end. -/
def pushColumn (s : Statement) (table column : String) : Statement :=
  s.push (qualified table column)

end Statement

end ListQuery.Sql
