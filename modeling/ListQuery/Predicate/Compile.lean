/-
Conditions compiled into predicates.

Every leaf is looked up in the registry again, and every group has to have its least number of
children, so that a condition built by hand is held to the same rules as one that was read.

* `Condition.compile` — the predicate of a condition, or the first fault from the left, that of a group
  coming before those of its children.
-/
import ListQuery.Condition.Basic
import ListQuery.Predicate.Basic
import ListQuery.Registry

namespace ListQuery

/-- A table under which columns are named: that of a registry, or an alias. -/
structure TableRef where
  registry : Registry
  alias? : Option String

namespace TableRef

/-- The table of a registry under its own name. -/
def ofRegistry (r : Registry) : TableRef :=
  ⟨r, none⟩

/-- The name before the columns. -/
def qualifier (t : TableRef) : String :=
  t.alias?.getD t.registry.table

/-- The column of a field. -/
def column (t : TableRef) (f : Field) : Column :=
  ⟨t.qualifier, f.column⟩

/-- The column of a field that filters may test with an operator. -/
def columnFor (t : TableRef) (field : String) (op : Operator) : Except QueryError Column := do
  let f ← t.registry.filterField field
  if f.allows op then return t.column f
  else .error (.operator field op.tag (.notPermitted f.type))

end TableRef

/-- The predicate of a test on a column. -/
def Test.onColumn (column : Column) : Test → Predicate
  | .compare .eq .null => .isNull column
  | .compare .notEq .null => .isNotNull column
  | .compare op v => .compare column op v
  | .pattern kind text => .like column kind (kind.pattern text)
  | .oneOf values => .oneOf column values
  | .range i => .range column i.lower i.upper i.closed

/-- The predicate of a group. -/
def Combinator.predicate (kind : Combinator) (children : List Predicate) : Predicate :=
  match kind, children with
  | .and, ps => .and ps
  | .or, ps => .or ps
  | .not, [p] => .not p
  | .not, ps => .and (ps.map .not)

namespace Condition

mutual

/-- The predicate of a condition on a table. -/
def compile (t : TableRef) : Condition → Except QueryError Predicate
  | .leaf field test => do
    let column ← t.columnFor field test.operator
    return test.onColumn column
  | .group kind children => do
    checkArity kind children.length
    return kind.predicate (← compileAll t children)

/-- The predicates of some conditions on a table. -/
def compileAll (t : TableRef) : List Condition → Except QueryError (List Predicate)
  | [] => .ok []
  | c :: cs => do
    let p ← compile t c
    let ps ← compileAll t cs
    return p :: ps

end

end Condition

end ListQuery
