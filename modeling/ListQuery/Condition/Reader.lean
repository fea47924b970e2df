/-
Filters read as conditions.

A filter is an object.  A key that is a combinator holds a filter or a list of filters; any other key
is a field, and holds an object of operators with their operands.  Several entries of one object are
joined by a conjunction.  An operator that is no comparison may be negated by `not_` in front.

* `Condition.read` — the condition of a filter, every leaf checked against a registry;
* `Condition.maxDepth` — objects that are nested deeper are refused.

Design notes: the recursion is on the filter.  The depth is checked on entering an object, before any
of its members is looked at.
-/
import ListQuery.Condition.Operand
import ListQuery.Registry

namespace ListQuery

/-- What follows `not_` in a tag that starts so. -/
def negatedTag? (tag : String) : Option String :=
  match tag.toList with
  | 'n' :: 'o' :: 't' :: '_' :: rest => some (String.ofList rest)
  | _ => none

/-- The operator that a tag names, and whether the tag negates it. -/
def Operator.resolve? (tag : String) : Option (Operator × Bool) :=
  match Operator.ofTag? tag with
  | some op => some (op, false)
  | none =>
    match (negatedTag? tag).bind Operator.ofTag? with
    | some op => if op.isComparison then none else some (op, true)
    | none => none

namespace Condition

/-- The most objects in each other. -/
def maxDepth : Nat := 32

/-- The condition of one operator on a field. -/
def readOperation (f : Field) (tag : String) (operand : Json) : Except QueryError Condition :=
  match Operator.resolve? tag with
  | none => .error (.operator f.name tag .unknown)
  | some (op, negated) =>
    if f.allows op then do
      let c := leaf f.name (← Test.read f tag op operand)
      return if negated then c.negate else c
    else .error (.operator f.name tag (.notPermitted f.type))

/-- The conditions of the operators on a field. -/
def readField (r : Registry) (name : String) (operations : Json) :
    Except QueryError (List Condition) := do
  let f ← r.filterField name
  match operations with
  | .object [] => .error (.filter (.noOperator name))
  | .object members => members.mapM fun (tag, operand) => readOperation f tag operand
  | _ => .error (.filter (.fieldOperand name))

/-- Refuses an object that would be this deep. -/
def checkDepth (depth : Nat) : Except QueryError Unit :=
  if depth ≤ maxDepth then .ok () else .error (.filter (.tooDeep maxDepth))

/-- The conditions that an entry of a group's list adds to its children. -/
def entryChildren (kind : Combinator) (conditions : List Condition) :
    Except QueryError (List Condition) :=
  match kind with
  | .not => .ok conditions
  | _ =>
    match all conditions with
    | some c => .ok [c]
    | none => .error (.filter (.emptyEntry kind))

mutual

/-- The conditions of the members of an object at a depth. -/
def readMembers (r : Registry) (depth : Nat) :
    List (String × Json) → Except QueryError (List Condition)
  | [] => .ok []
  | (key, value) :: rest => do
    let here ←
      match Combinator.ofKey? key with
      | some kind => do
        let children ← readGroup r depth kind value
        let c ← join kind children
        pure [c]
      | none => readField r key value
    let others ← readMembers r depth rest
    return here ++ others

/-- The children of a group in an object at a depth. -/
def readGroup (r : Registry) (depth : Nat) (kind : Combinator) :
    Json → Except QueryError (List Condition)
  | .array items => readEntries r depth kind items
  | .object members => do
    checkDepth (depth + 1)
    readMembers r (depth + 1) members
  | _ => .error (.filter (.groupOperand kind))

/-- The children that the entries of a group's list give. -/
def readEntries (r : Registry) (depth : Nat) (kind : Combinator) :
    List Json → Except QueryError (List Condition)
  | [] => .ok []
  | .object members :: rest => do
    checkDepth (depth + 1)
    let conditions ← readMembers r (depth + 1) members
    let here ← entryChildren kind conditions
    let others ← readEntries r depth kind rest
    return here ++ others
  | _ :: _ => .error (.filter (.groupEntry kind))

end

/-- The condition of a filter. -/
def read (r : Registry) : Json → Except QueryError Condition
  | .object members => do
    match all (← readMembers r 1 members) with
    | some c => return c
    | none => .error (.filter .empty)
  | _ => .error (.filter .notAMap)

end Condition

end ListQuery
