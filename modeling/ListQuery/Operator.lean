/-
The operators and combinators of filters.

An operator tests one field.  The six comparisons take a single value; three patterns take a text, and
`oneOf` and `range` take a list and an interval.  A combinator joins conditions.

* `Operator.ofTag?` reads a tag or one of its aliases, and `Operator.tag` is the tag that is written;
* `ofTag?_tag` — each written tag is read as its operator.
-/
namespace ListQuery

/-- An order or equality between a field and one value. -/
inductive Comparison where
  | eq
  | notEq
  | lt
  | gt
  | lteq
  | gteq
deriving DecidableEq, Repr

/-- Where a text has to stand in a field. -/
inductive Placement where
  | contains
  | startsWith
  | endsWith
deriving DecidableEq, Repr

/-- A test that a filter may make on a field. -/
inductive Operator where
  | comparison (op : Comparison)
  | pattern (kind : Placement)
  | oneOf
  | range
deriving DecidableEq, Repr

namespace Operator

/-- Every operator, in the order in which they are listed. -/
def all : List Operator :=
  [.comparison .eq, .comparison .notEq, .comparison .lt, .comparison .gt, .comparison .lteq,
   .comparison .gteq, .pattern .contains, .pattern .startsWith, .pattern .endsWith, .oneOf, .range]

/-- The tag that is written. -/
def tag : Operator → String
  | .comparison .eq => "eq"
  | .comparison .notEq => "not_eq"
  | .comparison .lt => "lt"
  | .comparison .gt => "gt"
  | .comparison .lteq => "lteq"
  | .comparison .gteq => "gteq"
  | .pattern .contains => "contains"
  | .pattern .startsWith => "starts_with"
  | .pattern .endsWith => "ends_with"
  | .oneOf => "in"
  | .range => "range"

/-- The operator of a tag or one of its aliases. -/
def ofTag? : String → Option Operator
  | "eq" | "equal" => some (.comparison .eq)
  | "not_eq" | "not_equal" => some (.comparison .notEq)
  | "lt" | "less_than" => some (.comparison .lt)
  | "gt" | "greater_than" => some (.comparison .gt)
  | "lteq" | "less_than_or_equal" => some (.comparison .lteq)
  | "gteq" | "greater_than_or_equal" => some (.comparison .gteq)
  | "contains" | "contain" => some (.pattern .contains)
  | "starts_with" | "start_with" => some (.pattern .startsWith)
  | "ends_with" | "end_with" => some (.pattern .endsWith)
  | "in" => some .oneOf
  | "range" | "in_range" => some .range
  | _ => none

theorem ofTag?_tag (op : Operator) : ofTag? op.tag = some op := by
  rcases op with ⟨_ | _ | _ | _ | _ | _⟩ | ⟨_ | _ | _⟩ | _ | _ <;> rfl

/-- Whether the operator takes a single value. -/
def isComparison : Operator → Bool
  | .comparison _ => true
  | _ => false

/-- Whether the operator looks for a text inside the field. -/
def isPattern : Operator → Bool
  | .pattern _ => true
  | _ => false

/-- The comparison that an operator is. -/
def comparison? : Operator → Option Comparison
  | .comparison op => some op
  | _ => none

end Operator

/-- A way to join conditions. -/
inductive Combinator where
  /-- Every child holds. -/
  | and
  /-- At least one child holds. -/
  | or
  /-- No child holds. -/
  | not
deriving DecidableEq, Repr

namespace Combinator

/-- The key that stands for the combinator in a filter. -/
def key : Combinator → String
  | .and => "and"
  | .or => "or"
  | .not => "not"

/-- The combinator of a key. -/
def ofKey? : String → Option Combinator
  | "and" => some .and
  | "or" => some .or
  | "not" => some .not
  | _ => none

theorem ofKey?_key (kind : Combinator) : ofKey? kind.key = some kind := by
  cases kind <;> rfl

/-- The least number of children. -/
def minChildren : Combinator → Nat
  | .and | .or => 2
  | .not => 1

end Combinator

end ListQuery
