/-
What can be wrong with a request or a registry.

Each constructor of `QueryError` is a kind of error, and carries its cause; `message` is the one place
where causes have words.  A kind has a code, a short description and a name for diagnostics.  Where
the cause is none that this library finds itself, `other` holds the words.

* `isClientError` — whether the request is at fault, and not the registry.
-/
import ListQuery.FieldType

namespace ListQuery

/-- Why a field cannot be used. -/
inductive FieldFault where
  | unknown
  | notFilterable
  | notSortable
  | other (words : String)
deriving DecidableEq

/-- Why an operator cannot be used on a field. -/
inductive OperatorFault where
  | unknown
  | notPermitted (type : FieldType)
  | noEquality
  | other (words : String)
deriving DecidableEq

/-- One of the two bounds of an interval. -/
inductive Side where
  | lower
  | upper
deriving DecidableEq

/-- What is wrong with a range. -/
inductive RangeFault where
  | notAMap
  | unexpectedKey (key : String)
  | bothForms
  | noForm
  | missingBound
  | notAString
  | malformed (interval : String)
  | blankBound (interval : String)
  | unreadableBound (interval : String) (side : Side) (bound : String) (type : FieldType)
  | inverted
  | other (words : String)
deriving DecidableEq

/-- What is wrong with the value of an operator. -/
inductive ValueFault where
  | misfit (why : Misfit)
  | map
  | null
  | noText
  | notAList
  | emptyList
  | other (words : String)
deriving DecidableEq

/-- What is wrong with the shape of a filter or of the request around it. -/
inductive FilterFault where
  | notAMap
  | empty
  | tooDeep (levels : Nat)
  | groupEntry (kind : Combinator)
  | emptyEntry (kind : Combinator)
  | groupOperand (kind : Combinator)
  | fieldOperand (field : String)
  | noOperator (field : String)
  | notJson
  | bodyShape (got : String)
  | sortingShape
  | noTextSearch (resource : String)
  | other (words : String)
deriving DecidableEq

/-- What is wrong with a paging parameter. -/
inductive PagingFault where
  | notANumber (text : String)
  | notAnInteger (text : String)
  | wrongType (got : String)
  | notAnObject
  | mixedStyles
  | other (words : String)
deriving DecidableEq

/-- What is wrong with the settings of a registry. -/
inductive ConfigFault where
  | maxItems (resource : String)
  | defaultItems (resource : String) (maxItems : Nat)
  | operatorOfOtherType (resource field : String) (op : Operator) (type : FieldType)
  | searchOfOtherType (resource field : String)
  | searchNotFilterable (resource field : String)
  | searchWithoutContains (resource field : String)
  | unknownPrimaryKey (resource key : String)
  | noOrder (resource : String)
  | unknownOrder (resource field : String)
  | unknownOperator (resource field tag : String)
  | other (words : String)
deriving DecidableEq

/-- An error of a request or a registry. -/
inductive QueryError where
  | field (name : String) (fault : FieldFault)
  | operator (field : String) (tag : String) (fault : OperatorFault)
  | range (field : String) (fault : RangeFault)
  | arity (combinator : String) (required count : Nat)
  | value (field : String) (tag : String) (fault : ValueFault)
  | filter (fault : FilterFault)
  | direction (text : String)
  | paging (parameter : String) (fault : PagingFault)
  | config (fault : ConfigFault)
  /-- The text of a registry is no TOML, or not of a registry's shape. -/
  | toml
  /-- The file of a registry cannot be read. -/
  | file (path : String)
deriving DecidableEq

/-! ### Words of the causes -/

/-- The cause in words. -/
def FieldFault.message : FieldFault → String
  | .unknown => "is not a recognised field"
  | .notFilterable => "is not filterable"
  | .notSortable => "is not a sortable field"
  | .other words => words

/-- The cause in words. -/
def OperatorFault.message : OperatorFault → String
  | .unknown => "unknown operator"
  | .notPermitted type => s!"not permitted on {type.name} field"
  | .noEquality => "equality filtering is not permitted on this field"
  | .other words => words

/-- The name of a bound. -/
def Side.name : Side → String
  | .lower => "lower"
  | .upper => "upper"

/-- The cause in words. -/
def RangeFault.message : RangeFault → String
  | .notAMap => "expected a map with `from`/`to` or `interval`"
  | .unexpectedKey key => s!"unexpected key `{key}`"
  | .bothForms => "give either `from`/`to` or `interval`, not both"
  | .noForm => "expected `from`/`to` or `interval`"
  | .missingBound => "`from` and `to` must both be given"
  | .notAString => "`interval` must be a string"
  | .malformed interval => s!"malformed interval `{interval}`, expected `[a,b)` or `[a,b]`"
  | .blankBound interval => s!"interval `{interval}` is missing a bound"
  | .unreadableBound interval side bound type =>
    s!"interval `{interval}` has an invalid {side.name} bound `{bound}` for a {type.name} field"
  | .inverted => "lower bound is greater than upper bound"
  | .other words => words

/-- The cause in words. -/
def ValueFault.message : ValueFault → String
  | .misfit why => why.message
  | .map => "expected a single value, got a map"
  | .null => "null is not allowed here"
  | .noText => "expected non-empty text"
  | .notAList => "expected a list of values"
  | .emptyList => "list must not be empty"
  | .other words => words

/-- The cause in words. -/
def FilterFault.message : FilterFault → String
  | .notAMap => "filter must be a map"
  | .empty => "filter must contain at least one condition"
  | .tooDeep levels => s!"filter is nested deeper than {Text.decimalText levels} levels"
  | .groupEntry kind => s!"`{kind.key}` entries must be filter maps"
  | .emptyEntry kind => s!"`{kind.key}` entries must not be empty"
  | .groupOperand kind => s!"`{kind.key}` must hold a filter map or a list of filter maps"
  | .fieldOperand field =>
    s!"field `{field}` must map to operators, e.g. " ++ "\x7b\"eq\": value\x7d"
  | .noOperator field => s!"field `{field}` names no operator"
  | .notJson => "filter parameter is not valid JSON"
  | .bodyShape got => s!"request body must be an object, got {got}"
  | .sortingShape => "sorting must be an object"
  | .noTextSearch resource => s!"{resource} does not support text search"
  | .other words => words

/-- The cause in words. -/
def PagingFault.message : PagingFault → String
  | .notANumber text => s!"'{text}' is not a number"
  | .notAnInteger text => s!"'{text}' is not an integer"
  | .wrongType got => s!"expected a number, got {got}"
  | .notAnObject => "must be an object"
  | .mixedStyles => "offset/limit cannot be combined with page/items"
  | .other words => words

/-- The cause in words. -/
def ConfigFault.message : ConfigFault → String
  | .maxItems resource => s!"`{resource}`: max_items must be at least 1"
  | .defaultItems resource most =>
    s!"`{resource}`: default_items must be between 1 and {Text.decimalText most}"
  | .operatorOfOtherType resource field op type =>
    s!"`{resource}.{field}`: operator `{op.tag}` does not apply to {type.name} fields"
  | .searchOfOtherType resource field =>
    s!"`{resource}.{field}`: only text fields can be text-searchable"
  | .searchNotFilterable resource field =>
    s!"`{resource}.{field}`: text-searchable fields must be filterable"
  | .searchWithoutContains resource field =>
    s!"`{resource}.{field}`: text-searchable fields must allow `contains`"
  | .unknownPrimaryKey resource key =>
    s!"`{resource}`: primary key `{key}` is not a registered field"
  | .noOrder resource => s!"`{resource}`: a default order or a primary key is required"
  | .unknownOrder resource field =>
    s!"`{resource}`: default order field `{field}` is not registered"
  | .unknownOperator resource field tag => s!"`{resource}.{field}`: unknown operator `{tag}`"
  | .other words => words

/-! ### Kinds -/

/-- The code of a kind of error, for programs. -/
inductive ErrorCode where
  | invalidField
  | invalidOperator
  | invalidRange
  | invalidArity
  | invalidValue
  | invalidFilter
  | invalidDirection
  | invalidPaging
  | invalidConfiguration
deriving DecidableEq

namespace ErrorCode

/-- The code as it is written. -/
def text : ErrorCode → String
  | .invalidField => "F1001"
  | .invalidOperator => "F1002"
  | .invalidRange => "F1003"
  | .invalidArity => "F1004"
  | .invalidValue => "F1005"
  | .invalidFilter => "F1006"
  | .invalidDirection => "F2001"
  | .invalidPaging => "F3001"
  | .invalidConfiguration => "F7001"

/-- What the code stands for. -/
def description : ErrorCode → String
  | .invalidField => "Invalid field"
  | .invalidOperator => "Invalid operator"
  | .invalidRange => "Invalid range"
  | .invalidArity => "Invalid combinator arity"
  | .invalidValue => "Invalid value"
  | .invalidFilter => "Invalid filter"
  | .invalidDirection => "Invalid sort direction"
  | .invalidPaging => "Invalid paging"
  | .invalidConfiguration => "Invalid configuration"

end ErrorCode

namespace QueryError

/-- The error in words. -/
def message : QueryError → String
  | .field name fault => s!"invalid field `{name}`: {fault.message}"
  | .operator name tag fault => s!"invalid operator `{tag}` for field `{name}`: {fault.message}"
  | .range name fault => s!"invalid range for field `{name}`: {fault.message}"
  | .arity combinator required count =>
    s!"`{combinator}` requires at least {Text.decimalText required} condition(s), got "
      ++ Text.decimalText count
  | .value name tag fault => s!"invalid value for `{name}` `{tag}`: {fault.message}"
  | .filter fault => s!"invalid filter: {fault.message}"
  | .direction text => s!"invalid sort direction `{text}`, expected `asc` or `desc`"
  | .paging parameter fault => s!"invalid paging parameter `{parameter}`: {fault.message}"
  | .config fault => s!"configuration error: {fault.message}"
  | .toml => "failed to parse registry TOML"
  | .file path => s!"failed to read file: {path}"

/-- The code of the error's kind. -/
def code : QueryError → ErrorCode
  | .field .. => .invalidField
  | .operator .. => .invalidOperator
  | .range .. => .invalidRange
  | .arity .. => .invalidArity
  | .value .. => .invalidValue
  | .filter .. => .invalidFilter
  | .direction .. => .invalidDirection
  | .paging .. => .invalidPaging
  | .config .. | .toml | .file .. => .invalidConfiguration

/-- The name of the error's kind in diagnostics. -/
def diagnostic : QueryError → String
  | .field .. => "sift::filter::invalid_field"
  | .operator .. => "sift::filter::invalid_operator"
  | .range .. => "sift::filter::invalid_range"
  | .arity .. => "sift::filter::invalid_combinator_arity"
  | .value .. => "sift::filter::invalid_value"
  | .filter .. => "sift::filter::invalid_filter"
  | .direction .. => "sift::sort::invalid_direction"
  | .paging .. => "sift::paging::invalid_paging"
  | .config .. => "sift::config::invalid"
  | .toml => "sift::config::toml_error"
  | .file .. => "sift::config::io_error"

/-- What to do about the error, where there is more to say than its message. -/
def help? : QueryError → Option String
  | .range .. =>
    some "use either \x7b\"from\": a, \"to\": b\x7d or \x7b\"interval\": \"[a,b)\"\x7d"
  | _ => none

/-- The field that the error is about. -/
def field? : QueryError → Option String
  | .field name _ => some name
  | .operator name .. | .range name _ | .value name .. => some name
  | _ => none

/-- The operator or combinator that the error is about. -/
def operator? : QueryError → Option String
  | .operator _ tag _ | .value _ tag _ => some tag
  | .arity combinator .. => some combinator
  | _ => none

/-- Whether the request is at fault. -/
def isClientError (e : QueryError) : Bool :=
  e.code ≠ .invalidConfiguration

end QueryError

end ListQuery
