/-
The value of a predicate on a row, in the logic of three values.

A database decides the tests of single columns in its own way: how it orders two texts, or what it makes
of a number beside a text, is not for this library to say.  The groups are decided alike everywhere.

* `Predicate.value` — the value of a predicate, given what its tests give;
* `Engine.tests` — what the tests give on a row, from how an engine compares single values.

Design notes: a membership is equality with some element, and a range is two comparisons, as the standard
has them, so an engine answers for comparisons, for null and for patterns only.
-/
import ListQuery.Predicate.Basic

namespace ListQuery

/-! ### Three values -/

/-- What a condition may be on a row. -/
inductive Truth where
  | false
  | unknown
  | true
deriving DecidableEq

namespace Truth

/-- The value of a condition that is never unknown. -/
def ofBool : Bool → Truth
  | .true => .true
  | .false => .false

/-- The value of a negation. -/
def not : Truth → Truth
  | .false => .true
  | .unknown => .unknown
  | .true => .false

/-- The value of a conjunction: false if a side is, else unknown if a side is. -/
def and : Truth → Truth → Truth
  | .false, _ => .false
  | .true, t => t
  | .unknown, .false => .false
  | .unknown, _ => .unknown

/-- The value of a disjunction: true if a side is, else unknown if a side is. -/
def or : Truth → Truth → Truth
  | .true, _ => .true
  | .false, t => t
  | .unknown, .true => .true
  | .unknown, _ => .unknown

/-- The value of the conjunction of some conditions. -/
def all (ts : List Truth) : Truth :=
  ts.foldr and .true

/-- The value of the disjunction of some conditions. -/
def any (ts : List Truth) : Truth :=
  ts.foldr or .false

theorem and_assoc (a b c : Truth) : (a.and b).and c = a.and (b.and c) := by
  cases a <;> cases b <;> cases c <;> rfl

theorem or_assoc (a b c : Truth) : (a.or b).or c = a.or (b.or c) := by
  cases a <;> cases b <;> cases c <;> rfl

@[simp] theorem and_true (a : Truth) : a.and .true = a := by
  cases a <;> rfl

@[simp] theorem or_false (a : Truth) : a.or .false = a := by
  cases a <;> rfl

end Truth

/-! ### Predicates -/

/-- What the tests of single columns give. -/
structure TestValues where
  compare : Column → Comparison → Literal → Truth
  isNull : Column → Truth
  isNotNull : Column → Truth
  like : Column → Placement → String → Truth
  oneOf : Column → List Literal → Truth
  range : Column → Literal → Literal → Bool → Truth

namespace Predicate

mutual

/-- The value of a predicate, given what the tests of single columns give. -/
def value (t : TestValues) : Predicate → Truth
  | .compare c op v => t.compare c op v
  | .isNull c => t.isNull c
  | .isNotNull c => t.isNotNull c
  | .like c kind pattern => t.like c kind pattern
  | .oneOf c vs => t.oneOf c vs
  | .range c lower upper closed => t.range c lower upper closed
  | .and children => Truth.all (values t children)
  | .or children => Truth.any (values t children)
  | .not child => (value t child).not

/-- The values of some predicates. -/
def values (t : TestValues) : List Predicate → List Truth
  | [] => []
  | p :: ps => value t p :: values t ps

end

end Predicate

/-! ### Rows -/

/-- How an engine compares the values in its columns. -/
structure Engine (V : Type) where
  /-- The value that a literal is bound as. -/
  ofLiteral : Literal → V
  isNull : V → Bool
  compare : Comparison → V → V → Truth
  /-- Whether a value matches a pattern, in which a text may have been named the escape. -/
  like : V → V → Option String → Truth

namespace Engine

/-- Whether a value is equal to some element of a list. -/
def oneOf {V : Type} (E : Engine V) (v : V) (vs : List V) : Truth :=
  Truth.any (vs.map (E.compare .eq v))

/-- What the tests of single columns give on a row.  The escape of a pattern is the backslash. -/
def tests {V : Type} (E : Engine V) (row : Column → V) : TestValues where
  compare c op v := E.compare op (row c) (E.ofLiteral v)
  isNull c := .ofBool (E.isNull (row c))
  isNotNull c := .ofBool (!E.isNull (row c))
  like c _ pattern := E.like (row c) (E.ofLiteral (.text pattern)) (some "\\")
  oneOf c vs := E.oneOf (row c) (vs.map E.ofLiteral)
  range c lower upper closed :=
    (E.compare .gteq (row c) (E.ofLiteral lower)).and
      (E.compare (if closed then .lteq else .lt) (row c) (E.ofLiteral upper))

end Engine

end ListQuery
