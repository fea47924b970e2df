/-
The operands of the operators, read into tests.

An operand is checked against the type of its field, and a fault names the tag under which the request
gave it.  A range is given by its two bounds or by the text of an interval.

* `Test.read` — the test of an operator with its operand.
-/
import ListQuery.Condition.Basic
import ListQuery.Condition.IntervalText
import ListQuery.Field

namespace ListQuery

namespace Field

/-- The value that an operand gives for a field. -/
def readValue (f : Field) (tag : String) (operand : Json) : Except QueryError Literal :=
  match Literal.ofJson? operand with
  | none => .error (.value f.name tag .map)
  | some v =>
    match f.type.coerce v with
    | .ok v => .ok v
    | .error why => .error (.value f.name tag (.misfit why))

/-- The value that an operand gives for a field, null not being one. -/
def readPresent (f : Field) (tag : String) (operand : Json) : Except QueryError Literal := do
  let v ← f.readValue tag operand
  if v.isNull then .error (.value f.name tag .null) else .ok v

/-- The value for a comparison: only equality takes null. -/
def readCompared (f : Field) (tag : String) (op : Comparison) (operand : Json) :
    Except QueryError Literal :=
  if op = .eq ∨ op = .notEq then f.readValue tag operand else f.readPresent tag operand

/-- The text for a pattern. -/
def readPattern (f : Field) (tag : String) (operand : Json) : Except QueryError String := do
  match FieldType.text.coerce (← f.readPresent tag operand) with
  | .ok (.text s) => if s.isEmpty then .error (.value f.name tag .noText) else .ok s
  | _ => .error (.value f.name tag .noText)

/-- The values for a membership test. -/
def readChoices (f : Field) (tag : String) : Json → Except QueryError (List Literal)
  | .array [] => .error (.value f.name tag .emptyList)
  | .array items => items.mapM (f.readPresent tag)
  | _ => .error (.value f.name tag .notAList)

end Field

/-! ### Intervals -/

/-- One bound of an interval. -/
def Field.readBound (f : Field) (tag : String) (interval : String) (side : Side)
    (bound : List Char) : Except QueryError Literal :=
  if bound = [] then .error (.range f.name (.blankBound interval))
  else
    match f.readPresent tag (.string (String.ofList bound)) with
    | .ok v => .ok v
    | .error _ =>
      .error (.range f.name (.unreadableBound interval side (String.ofList bound) f.type))

/-- The interval of a text. -/
def Field.readInterval (f : Field) (tag : String) : Json → Except QueryError Interval
  | .string s =>
    match IntervalText.ofChars? (Text.trimChars s.toList) with
    | none => .error (.range f.name (.malformed s))
    | some parts => do
      let lower ← f.readBound tag s .lower parts.lower
      let upper ← f.readBound tag s .upper parts.upper
      return ⟨lower, upper, parts.closed⟩
  | _ => .error (.range f.name .notAString)

/-- The interval that the members of a range give, its bounds in any order. -/
def Field.readForms (f : Field) (tag : String) (members : Json.Members) :
    Except QueryError Interval :=
  match Json.memberOf? "from" members, Json.memberOf? "to" members,
    Json.memberOf? "interval" members with
  | none, none, none => .error (.range f.name .noForm)
  | none, none, some interval => f.readInterval tag interval
  | some lower, some upper, none => do
    return ⟨← f.readPresent tag lower, ← f.readPresent tag upper, false⟩
  | _, _, none => .error (.range f.name .missingBound)
  | _, _, some _ => .error (.range f.name .bothForms)

/-- Whether a key may stand in a range. -/
def isRangeKey (key : String) : Bool :=
  key == "from" || key == "to" || key == "interval"

/-- The interval of a range operand: no other members, and bounds in order where they are numbers. -/
def Field.readRange (f : Field) (tag : String) : Json → Except QueryError Interval
  | .object members =>
    match members.find? fun (key, _) => !isRangeKey key with
    | some (key, _) => .error (.range f.name (.unexpectedKey key))
    | none => do
      let interval ← f.readForms tag members
      if interval.lower.order? interval.upper = some .gt then .error (.range f.name .inverted)
      else return interval
  | _ => .error (.range f.name .notAMap)

/-- The test of an operator with its operand. -/
def Test.read (f : Field) (tag : String) (op : Operator) (operand : Json) :
    Except QueryError Test :=
  match op with
  | .comparison op => (f.readCompared tag op operand).map (.compare op)
  | .pattern kind => (f.readPattern tag operand).map (.pattern kind)
  | .oneOf => (f.readChoices tag operand).map .oneOf
  | .range => (f.readRange tag operand).map .range

end ListQuery
