/-
Conditions of the shorter forms of a request.

A parameter may ask that a field equals its value, and a text may be looked for in all fields that text
search covers.

* `Registry.equalityCondition` — the conjunction of the equalities;
* `Registry.textCondition` — the disjunction over the fields; a text of blanks asks for nothing.
-/
import ListQuery.Condition.Basic
import ListQuery.Registry
import ListQuery.Request.Pairs

namespace ListQuery.Registry

/-- The condition that a field equals the value that a text spells. -/
def equality (r : Registry) (name raw : String) : Except QueryError Condition := do
  let f ← r.filterField name
  if !f.allows (.comparison .eq) then
    .error (.operator name (Operator.comparison .eq).tag .noEquality)
  else
    match f.type.coerce (.text raw) with
    | .ok v => return .leaf f.name (.compare .eq v)
    | .error why => .error (.value name (Operator.comparison .eq).tag (.misfit why))

/-- The condition that all fields equal their values, if there are any. -/
def equalityCondition (r : Registry) (equalities : Pairs) :
    Except QueryError (Option Condition) := do
  return Condition.all (← equalities.mapM fun (name, raw) => r.equality name raw)

/-- The condition that some field contains a text, if the text is not blank. -/
def textCondition (r : Registry) (text : String) : Except QueryError (Option Condition) :=
  let wanted := Text.trim text
  if wanted.isEmpty then .ok none
  else
    match r.textFields with
    | [] => .error (.filter (.noTextSearch r.resource))
    | fields =>
      .ok (Condition.any (fields.map fun f => .leaf f.name (.pattern .contains wanted)))

end ListQuery.Registry
