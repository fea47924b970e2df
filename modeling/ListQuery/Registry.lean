/-
Registries: the fields that requests for one resource may use, with limits and defaults.

A `Registry.Draft` collects settings and `build` checks them; a `Registry` is what comes out, with the
primary key and the default order resolved to fields.

* `Draft.build` — the limits are positive and in order, every field suits its type, and the named
  fields exist.
-/
import ListQuery.Direction
import ListQuery.Field

namespace ListQuery

/-- The fields, limits and defaults of a resource. -/
structure Registry where
  resource : String
  table : String
  primaryKey : Option Field
  fields : Fields
  maxItems : Nat
  defaultItems : Nat
  defaultOrderBy : Field
  defaultDirection : Direction
deriving DecidableEq

namespace Registry

/-- The field of a name. -/
def get? (r : Registry) (name : String) : Option Field :=
  r.fields.get? name

/-- The field of a name, if filters may use it. -/
def filterable? (r : Registry) (name : String) : Option Field :=
  (r.get? name).filter (·.filterable)

/-- The field of a name, if orderings may use it. -/
def sortable? (r : Registry) (name : String) : Option Field :=
  (r.get? name).filter (·.sortable)

/-- The fields that text search covers. -/
def textFields (r : Registry) : List Field :=
  r.fields.filter (·.textSearch)

/-- Whether filters may use an operator on a field. -/
def allows (r : Registry) (name : String) (op : Operator) : Bool :=
  (r.get? name).any (·.allows op)

/-- The field of a name for a filter, or why there is none. -/
def filterField (r : Registry) (name : String) : Except QueryError Field :=
  match r.get? name with
  | none => .error (.field name .unknown)
  | some f => if f.filterable then .ok f else .error (.field name .notFilterable)

/-- The page size where a request names none, unless a registry says otherwise. -/
def usualItems : Nat := 25

/-- The greatest page size, unless a registry says otherwise. -/
def usualMaxItems : Nat := 500

/-- The settings of a registry before they are checked. -/
structure Draft where
  resource : String
  table : Option String
  primaryKey : Option String
  fields : Fields
  maxItems : Nat
  defaultItems : Nat
  defaultOrderBy : Option String
  defaultDirection : Direction

namespace Draft

/-- The settings of a resource of which only the name is known. -/
def ofResource (resource : String) : Draft :=
  ⟨resource, none, none, [], usualMaxItems, usualItems, none, .asc⟩

/-- The settings with another table. -/
def withTable (d : Draft) (table : String) : Draft :=
  { d with table := some table }

/-- The settings with another primary key. -/
def withPrimaryKey (d : Draft) (name : String) : Draft :=
  { d with primaryKey := some name }

/-- The settings with another greatest page size. -/
def withMaxItems (d : Draft) (n : Nat) : Draft :=
  { d with maxItems := n }

/-- The settings with another usual page size. -/
def withDefaultItems (d : Draft) (n : Nat) : Draft :=
  { d with defaultItems := n }

/-- The settings with another usual ordering. -/
def withDefaultSort (d : Draft) (name : String) (direction : Direction) : Draft :=
  { d with defaultOrderBy := some name, defaultDirection := direction }

/-- The settings with one more field. -/
def withField (d : Draft) (f : Field) : Draft :=
  { d with fields := d.fields.insert f }

/-- Checks that a field suits its type and can do what it is marked for. -/
def checkField (resource : String) (f : Field) : Except QueryError Unit :=
  match f.operators.find? fun op => !f.type.operators.contains op with
  | some op => .error (.config (.operatorOfOtherType resource f.name op f.type))
  | none =>
    if !f.textSearch then .ok ()
    else if f.type ≠ .text then .error (.config (.searchOfOtherType resource f.name))
    else if !f.filterable then .error (.config (.searchNotFilterable resource f.name))
    else if !f.operators.contains (.pattern .contains) then
      .error (.config (.searchWithoutContains resource f.name))
    else .ok ()

/-- Checks that the page sizes are positive and in order. -/
def checkItems (d : Draft) : Except QueryError Unit :=
  if d.maxItems = 0 then .error (.config (.maxItems d.resource))
  else if d.defaultItems = 0 ∨ d.maxItems < d.defaultItems then
    .error (.config (.defaultItems d.resource d.maxItems))
  else .ok ()

/-- The field that is the primary key, where one is named. -/
def resolvePrimaryKey (d : Draft) : Except QueryError (Option Field) :=
  match d.primaryKey with
  | none => .ok none
  | some name =>
    match d.fields.get? name with
    | some f => .ok (some f)
    | none => .error (.config (.unknownPrimaryKey d.resource name))

/-- The field of the usual ordering: the one named for it, or the primary key. -/
def resolveOrder (d : Draft) : Except QueryError Field :=
  match d.defaultOrderBy.or d.primaryKey with
  | none => .error (.config (.noOrder d.resource))
  | some name =>
    match d.fields.get? name with
    | some f => .ok f
    | none => .error (.config (.unknownOrder d.resource name))

/-- The registry of some settings, or the first thing that is wrong with them. -/
def build (d : Draft) : Except QueryError Registry := do
  d.checkItems
  d.fields.forM (checkField d.resource)
  let primaryKey ← d.resolvePrimaryKey
  let order ← d.resolveOrder
  return ⟨d.resource, d.table.getD d.resource, primaryKey, d.fields, d.maxItems, d.defaultItems,
    order, d.defaultDirection⟩

end Draft

end Registry

end ListQuery
