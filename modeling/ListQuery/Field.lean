/-
Fields of a resource: what a request may say about each.

A field has a name in requests, a column, a type, and the operators that it accepts.  It may be
excluded from filters, and has to be included in orderings and in text search.
-/
import ListQuery.FieldType

namespace ListQuery

/-- A field of a resource. -/
structure Field where
  name : String
  column : String
  type : FieldType
  operators : List Operator
  filterable : Bool
  sortable : Bool
  textSearch : Bool
deriving DecidableEq

namespace Field

/-- A field with the operators of its type, for filters only, its column named like itself. -/
def ofType (name : String) (type : FieldType) : Field :=
  ⟨name, name, type, type.operators, true, false, false⟩

/-- Whether filters may use an operator on the field. -/
def allows (f : Field) (op : Operator) : Bool :=
  f.filterable && f.operators.contains op

end Field

/-- Fields in order of registration. -/
abbrev Fields := List Field

namespace Fields

/-- The field of a name. -/
def get? (fields : Fields) (name : String) : Option Field :=
  fields.find? (·.name == name)

/-- The fields with one more; a field of the same name gives its place to the new one. -/
def insert (f : Field) : Fields → Fields
  | [] => [f]
  | g :: rest => if g.name = f.name then f :: rest else g :: Fields.insert f rest

theorem name_of_get? {fields : Fields} {name : String} {f : Field}
    (h : fields.get? name = some f) : f.name = name := by
  simpa using List.find?_some h

theorem mem_of_get? {fields : Fields} {name : String} {f : Field}
    (h : fields.get? name = some f) : f ∈ fields :=
  List.mem_of_find?_eq_some h

theorem get?_insert (f : Field) (fields : Fields) : (fields.insert f).get? f.name = some f := by
  induction fields with
  | nil => simp [Fields.insert, get?]
  | cons g rest ih =>
    by_cases h : g.name = f.name
    · simp [Fields.insert, get?, h]
    · simpa [Fields.insert, get?, h, List.find?_cons] using ih

end Fields

end ListQuery
