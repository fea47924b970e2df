/-
Requests for a list: what a client says about filter, order and paging.

A request comes as pairs of a query string, and a JSON body may be laid over it.  A parameter whose name
the library does not know is carried along, so that links keep it; one named `filter_` and a field asks
for equality with its value.

* `Request.ofPairs` — the request of some parameters, the last value of a name counting;
* `Request.overlay` — the request with a body laid over it: what the body sets is as the body says.
-/
import ListQuery.FormEncoding
import ListQuery.Json.Printer
import ListQuery.Json.Reader
import ListQuery.Paging.Window
import ListQuery.Request.Pairs
import ListQuery.RowOrder

namespace ListQuery

open Numeric

/-- What a client says about the list that it wants. -/
structure Request where
  filter : Option Json
  order : OrderRequest
  paging : PageRequest
  text : Option String
  /-- The values that fields are to equal. -/
  equalities : Pairs
  /-- The parameters that are only carried along. -/
  carried : Pairs

/-- What a parameter of a query string sets. -/
inductive Slot where
  | filter
  | orderBy
  | direction
  | page
  | items
  | offset
  | limit
  | text
  | equality (field : String)
  | carried
deriving DecidableEq

/-- What marks a parameter that asks for equality. -/
def equalityMark : String := "filter_"

/-- The field after the mark in the name of a parameter. -/
def equalityField? (name : String) : Option String :=
  let mark := equalityMark.toList
  let cs := name.toList
  if cs.take mark.length = mark ∧ mark.length < cs.length then
    some (String.ofList (cs.drop mark.length))
  else none

/-- What the parameter of a name sets. -/
def Slot.ofName (name : String) : Slot :=
  match name with
  | "filter" => .filter
  | "order_by" => .orderBy
  | "direction" => .direction
  | "page" => .page
  | "items" => .items
  | "offset" => .offset
  | "limit" => .limit
  | "text" => .text
  | _ =>
    match equalityField? name with
    | some field => .equality field
    | none => .carried

/-- The name of a JSON type. -/
def Json.typeName : Json → String
  | .null => "null"
  | .bool _ => "boolean"
  | .integer _ | .float _ => "number"
  | .string _ => "string"
  | .array _ => "array"
  | .object _ => "object"

/-- The integer that a paging parameter spells, blanks around it aside. -/
def readCount (parameter text : String) : Except QueryError Int64 :=
  match integer? (Text.trimChars text.toList) with
  | some n => .ok n
  | none => .error (.paging parameter (.notANumber text))

/-- The integer that a paging parameter is in JSON, where it is set. -/
def readJsonCount (parameter : String) : Option Json → Except QueryError (Option Int64)
  | none | some .null => .ok none
  | some (.integer n) =>
    match int64? n with
    | some i => .ok (some i)
    | none => .error (.paging parameter (.notAnInteger (Json.integer n).text))
  | some (.float x) => .error (.paging parameter (.notAnInteger (Json.float x).text))
  | some (.string s) => (readCount parameter s).map some
  | some v => .error (.paging parameter (.wrongType v.typeName))

/-- The text that a value stands for: a string as it is, anything else its JSON text, and null none. -/
def readJsonText : Option Json → Option String
  | none | some .null => none
  | some (.string s) => some s
  | some v => some v.text

namespace Request

/-- The request that says nothing. -/
def empty : Request :=
  ⟨none, .empty, .empty, none, [], []⟩

/-- The request with one parameter set. -/
def set (q : Request) (name value : String) : Except QueryError Request :=
  match Slot.ofName name with
  | .filter =>
    match Json.read? value with
    | some v => .ok { q with filter := some v }
    | none => .error (.filter .notJson)
  | .orderBy => .ok { q with order := { q.order with orderBy := some value } }
  | .direction => .ok { q with order := { q.order with direction := some value } }
  | .page => do return { q with paging := { q.paging with page := some (← readCount name value) } }
  | .items => do return { q with paging := { q.paging with items := some (← readCount name value) } }
  | .offset => do return { q with paging := { q.paging with offset := some (← readCount name value) } }
  | .limit => do return { q with paging := { q.paging with limit := some (← readCount name value) } }
  | .text => .ok { q with text := some value }
  | .equality field => .ok { q with equalities := q.equalities.set field value }
  | .carried => .ok { q with carried := q.carried.set name value }

/-- The request of some parameters. -/
def ofPairs (ps : List (String × String)) : Except QueryError Request :=
  ps.foldlM (fun q (name, value) => q.set name value) empty

/-- The request of a query string, which may start with a question mark. -/
def ofQueryString (query : String) : Except QueryError Request :=
  let cs := query.toList
  ofPairs (FormEncoding.decode (String.ofList (if cs.head? = some '?' then cs.drop 1 else cs)))

end Request

/-! ### Bodies -/

/-- What the part of a body that is named for sorting says about the order of rows. -/
def OrderRequest.ofJson : Option Json → Except QueryError OrderRequest
  | none => .ok .empty
  | some (.object members) =>
    .ok ⟨readJsonText (Json.memberOf? "order_by" members), readJsonText (Json.memberOf? "direction" members)⟩
  | some _ => .error (.filter .sortingShape)

/-- What the part of a body that is named for paging says. -/
def PageRequest.ofJson : Option Json → Except QueryError PageRequest
  | none => .ok .empty
  | some (.object members) => do
    let page ← readJsonCount "page" (Json.memberOf? "page" members)
    let items ← readJsonCount "items" (Json.memberOf? "items" members)
    let offset ← readJsonCount "offset" (Json.memberOf? "offset" members)
    let limit ← readJsonCount "limit" (Json.memberOf? "limit" members)
    return ⟨page, items, offset, limit⟩
  | some _ => .error (.paging "paging" .notAnObject)

namespace Request

/-- The request with a body laid over it; a body that is null says nothing. -/
def overlay (q : Request) : Json → Except QueryError Request
  | .null => .ok q
  | .object body => do
    let order ← OrderRequest.ofJson (Json.presentOf? "sorting" body)
    let paging ← PageRequest.ofJson (Json.presentOf? "paging" body)
    return { q with
      filter := (Json.presentOf? "filter" body).or q.filter
      order := order.or q.order
      paging := paging.or q.paging }
  | v => .error (.filter (.bodyShape v.typeName))

/-- The request with another filter. -/
def withFilter (q : Request) (filter : Json) : Request :=
  { q with filter := some filter }

/-- The request with another order. -/
def withOrder (q : Request) (order : OrderRequest) : Request :=
  { q with order := order }

/-- The request with other paging. -/
def withPaging (q : Request) (paging : PageRequest) : Request :=
  { q with paging := paging }

/-- The request with a text to search for. -/
def withText (q : Request) (text : String) : Request :=
  { q with text := some text }

/-- The request with a value that a field is to equal. -/
def withEquality (q : Request) (field value : String) : Request :=
  { q with equalities := q.equalities.set field value }

end Request

end ListQuery
