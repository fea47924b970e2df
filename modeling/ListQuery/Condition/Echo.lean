/-
Conditions written as filters.

The echo of a condition is a filter that reads as the same condition: written tags, values of the
fields' types, one operator a field.  A closed interval is the text `[a,b]`, any other names its two
bounds.
-/
import ListQuery.Condition.Basic

namespace ListQuery

/-- The operand of a test in a filter. -/
def Test.operand : Test → Json
  | .compare _ v => v.toJson
  | .pattern _ s => .string s
  | .oneOf vs => .array (Literal.toItems vs)
  | .range i =>
    if i.closed then .object [("interval", .string s!"[{i.lower.bare},{i.upper.bare}]")]
    else .object [("from", i.lower.toJson), ("to", i.upper.toJson)]

namespace Condition

mutual

/-- The filter that reads as the condition. -/
def toJson : Condition → Json
  | .leaf field test => .object [(field, .object [(test.operator.tag, test.operand)])]
  | .group kind children => .object [(kind.key, .array (toItems children))]

/-- The filters that read as some conditions. -/
def toItems : List Condition → List Json
  | [] => []
  | c :: cs => toJson c :: toItems cs

end

end Condition

end ListQuery
