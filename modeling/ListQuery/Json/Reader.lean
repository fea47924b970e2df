/-
JSON text read as a value.

The reader takes one token at a time.  Its state holds the brackets that are open, each with what it
holds so far, and says what may come next; a token that may not refuses the text.  At most 127
brackets are open at once.

* `read?` — the value of a text: the tokens run through `Reader.step`, ending in `done`.

Design notes: a run is a fold of `step`, so the run over a value's tokens followed by others is the
run over the others from the state with the value delivered.
-/
import ListQuery.Json.Token

namespace ListQuery.Json

/-- An open bracket with what stands in it so far, the last first. -/
inductive Frame where
  | items (before : List Json)
  | members (before : List (String × Json)) (key : String)

/-- What may come next. -/
inductive Reader where
  /-- A value. -/
  | value (stack : List Frame)
  /-- The first item of an array, or its end. -/
  | firstItem (stack : List Frame)
  /-- A comma after an item, or the end of the array. -/
  | afterItem (before : List Json) (stack : List Frame)
  /-- The first name of an object, or its end. -/
  | firstName (stack : List Frame)
  /-- A name. -/
  | name (before : List (String × Json)) (stack : List Frame)
  /-- The colon after a name. -/
  | colon (before : List (String × Json)) (key : String) (stack : List Frame)
  /-- A comma after a member, or the end of the object. -/
  | afterMember (before : List (String × Json)) (stack : List Frame)
  /-- Nothing. -/
  | done (v : Json)

namespace Reader

/-- The most brackets open at once. -/
def maxDepth : Nat := 127

/-- The state after a whole value. -/
def deliver (v : Json) : List Frame → Reader
  | [] => .done v
  | .items before :: stack => .afterItem (v :: before) stack
  | .members before key :: stack => .afterMember ((key, v) :: before) stack

/-- The state after a token where a value may stand. -/
def value? (stack : List Frame) : Token → Option Reader
  | .openBracket => if stack.length < maxDepth then some (.firstItem stack) else none
  | .openBrace => if stack.length < maxDepth then some (.firstName stack) else none
  | .string s => some (deliver (.string s) stack)
  | .atom v => some (deliver v stack)
  | _ => none

/-- The state after a token. -/
def step : Reader → Token → Option Reader
  | .value stack, t => value? stack t
  | .firstItem stack, .closeBracket => some (deliver (.array []) stack)
  | .firstItem stack, t => value? (.items [] :: stack) t
  | .afterItem before stack, .comma => some (.value (.items before :: stack))
  | .afterItem before stack, .closeBracket => some (deliver (.array before.reverse) stack)
  | .firstName stack, .closeBrace => some (deliver (.object []) stack)
  | .firstName stack, .string s => some (.colon [] s stack)
  | .name before stack, .string s => some (.colon before s stack)
  | .colon before key stack, .colon => some (.value (.members before key :: stack))
  | .afterMember before stack, .comma => some (.name before stack)
  | .afterMember before stack, .closeBrace => some (deliver (.ofMembers before.reverse) stack)
  | _, _ => none

end Reader

/-- The value that a text's characters spell. -/
def readChars? (cs : List Char) : Option Json :=
  match tokens? cs with
  | none => none
  | some ts =>
    match ts.foldlM Reader.step (.value []) with
    | some (.done v) => some v
    | _ => none

/-- The value that a text spells. -/
def read? (s : String) : Option Json :=
  readChars? s.toList

end ListQuery.Json
