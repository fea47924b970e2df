/-
Conditions: filters as trees.

A leaf makes one test on a field; a group joins conditions by a combinator.  `all` and `any` join
whatever conditions are there, `all` taking the children of groups that are conjunctions already.

* `agrees` — equality of trees, literals being equal by value.
-/
import ListQuery.QueryError

namespace ListQuery

/-- An interval from a bound that belongs to it up to one that may. -/
structure Interval where
  lower : Literal
  upper : Literal
  /-- Whether the upper bound belongs to the interval. -/
  closed : Bool

/-- A test on a field. -/
inductive Test where
  | compare (op : Comparison) (value : Literal)
  | pattern (kind : Placement) (text : String)
  | oneOf (values : List Literal)
  | range (interval : Interval)

/-- The operator of a test. -/
def Test.operator : Test → Operator
  | .compare op _ => .comparison op
  | .pattern kind _ => .pattern kind
  | .oneOf _ => .oneOf
  | .range _ => .range

/-- A filter as a tree. -/
inductive Condition where
  | leaf (field : String) (test : Test)
  | group (kind : Combinator) (children : List Condition)

namespace Condition

/-- Refuses a group of too few children. -/
def checkArity (kind : Combinator) (count : Nat) : Except QueryError Unit :=
  if count < kind.minChildren then .error (.arity kind.key kind.minChildren count) else .ok ()

/-- The group of some conditions, if they are as many as the combinator needs. -/
def join (kind : Combinator) (children : List Condition) : Except QueryError Condition := do
  checkArity kind children.length
  return .group kind children

/-- The negation of a condition. -/
def negate (c : Condition) : Condition :=
  .group .not [c]

/-- The condition alone where it is one, and otherwise the group. -/
def collapse (kind : Combinator) : List Condition → Option Condition
  | [] => none
  | [c] => some c
  | children => some (.group kind children)

/-- The conditions whose conjunction a condition is. -/
def conjuncts : Condition → List Condition
  | .group .and children => children
  | c => [c]

/-- The conjunction of some conditions, if there are any. -/
def all (cs : List Condition) : Option Condition :=
  collapse .and (cs.flatMap conjuncts)

/-- The disjunction of some conditions, if there are any. -/
def any (cs : List Condition) : Option Condition :=
  collapse .or cs

/-- The operator of a leaf. -/
def operator? : Condition → Option Operator
  | .leaf _ test => some test.operator
  | .group .. => none

mutual

/-- The fields of the leaves, from left to right. -/
def fields : Condition → List String
  | .leaf field _ => [field]
  | .group _ children => fieldsOf children

/-- The fields of the leaves of some conditions. -/
def fieldsOf : List Condition → List String
  | [] => []
  | c :: cs => fields c ++ fieldsOf cs

end

mutual

/-- The number of levels; a leaf is one. -/
def depth : Condition → Nat
  | .leaf .. => 1
  | .group _ children => 1 + depthOf children

/-- The number of levels of the deepest of some conditions. -/
def depthOf : List Condition → Nat
  | [] => 0
  | c :: cs => max (depth c) (depthOf cs)

end

end Condition

/-- Whether two tests are equal, literals by value. -/
def Test.agrees : Test → Test → Bool
  | .compare op v, .compare op' v' => op = op' && v.agrees v'
  | .pattern kind s, .pattern kind' s' => kind = kind' && s == s'
  | .oneOf vs, .oneOf vs' => Literal.agreeItems vs vs'
  | .range i, .range i' =>
    i.lower.agrees i'.lower && i.upper.agrees i'.upper && i.closed == i'.closed
  | _, _ => false

namespace Condition

mutual

/-- Whether two conditions are equal, literals by value. -/
def agrees : Condition → Condition → Bool
  | .leaf field test, .leaf field' test' => field == field' && test.agrees test'
  | .group kind cs, .group kind' cs' => kind = kind' && agreeAll cs cs'
  | _, _ => false

/-- Whether two lists hold equal conditions in the same places. -/
def agreeAll : List Condition → List Condition → Bool
  | [], [] => true
  | c :: cs, c' :: cs' => agrees c c' && agreeAll cs cs'
  | _, _ => false

end

end Condition

end ListQuery
