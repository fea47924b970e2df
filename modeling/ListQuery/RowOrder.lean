/-
Orders of rows.

A request may name a field and a direction; what it leaves open comes from the registry.  The primary
key follows as a second term, unless it is the first one, so that rows of equal value keep their places
from page to page.

* `OrderRequest.resolve` — the order of a request, the named field being one that may be ordered by.
-/
import ListQuery.Registry
import ListQuery.Sql.Identifier

namespace ListQuery

/-- What a request says about the order of rows. -/
structure OrderRequest where
  orderBy : Option String
  direction : Option String
deriving DecidableEq

namespace OrderRequest

/-- The request that says nothing. -/
def empty : OrderRequest :=
  ⟨none, none⟩

/-- Whether a request says nothing. -/
def isEmpty (o : OrderRequest) : Bool :=
  o.orderBy.isNone && o.direction.isNone

/-- What a request says, with another one for what it leaves open. -/
def or (o fallback : OrderRequest) : OrderRequest :=
  ⟨o.orderBy.or fallback.orderBy, o.direction.or fallback.direction⟩

end OrderRequest

/-- A column to order by. -/
structure OrderTerm where
  field : String
  column : String
  direction : Direction
deriving DecidableEq

/-- The term of a field. -/
def OrderTerm.ofField (f : Field) (direction : Direction) : OrderTerm :=
  ⟨f.name, f.column, direction⟩

/-- An order of the rows of a table. -/
structure RowOrder where
  table : String
  primary : OrderTerm
  /-- The primary key, where it is not the first term. -/
  tiebreak : Option OrderTerm
deriving DecidableEq

namespace RowOrder

/-- The terms, the first deciding first. -/
def terms (o : RowOrder) : List OrderTerm :=
  o.primary :: o.tiebreak.toList

/-- A term in SQL. -/
def termSql (o : RowOrder) (t : OrderTerm) : String :=
  Sql.qualified o.table t.column ++ " " ++ t.direction.keyword

/-- What follows `ORDER BY` in SQL. -/
def toSql (o : RowOrder) : String :=
  ", ".intercalate (o.terms.map o.termSql)

end RowOrder

/-- The field that a request orders by. -/
def OrderRequest.field (o : OrderRequest) (r : Registry) : Except QueryError Field :=
  match o.orderBy with
  | none => .ok r.defaultOrderBy
  | some name =>
    match r.sortable? name with
    | some f => .ok f
    | none => .error (.field name .notSortable)

/-- The order of a request. -/
def OrderRequest.resolve (o : OrderRequest) (r : Registry) : Except QueryError RowOrder := do
  let f ← o.field r
  let direction ←
    match o.direction with
    | none => pure r.defaultDirection
    | some text => Direction.read text
  let tiebreak := (r.primaryKey.filter (·.name ≠ f.name)).map (OrderTerm.ofField · .asc)
  return ⟨r.table, .ofField f direction, tiebreak⟩

end ListQuery
