/-
Plans: requests that have been checked, ready for a backend.

A plan holds the condition of a request and its predicate, the order and the window of the rows, and
the links to other pages.  The links carry the request in its normal form.

* `Plan.build` — the first fault counts, looked for in filter, equalities, text, order and paging;
* `Plan.run` — asks a backend for the number of rows and then for the rows of the window.

Design notes: a backend is a pair of actions in any monad, so a run can be reasoned about in a pure one.
-/
import ListQuery.Condition.Echo
import ListQuery.Condition.Reader
import ListQuery.Json.Printer
import ListQuery.Paging.Links
import ListQuery.Predicate.Compile
import ListQuery.Predicate.Text
import ListQuery.Request.Basic
import ListQuery.Request.Shortcuts

namespace ListQuery

/-- A request that has been checked. -/
structure Plan where
  condition : Option Condition
  predicate : Option Predicate
  order : RowOrder
  window : Window
  links : Links

/-- Whether a filter asks for nothing. -/
def Json.isBlankFilter : Json → Bool
  | .null | .object [] => true
  | _ => false

/-- The condition of the filter of a request, if it has one. -/
def Request.filterCondition (q : Request) (r : Registry) : Except QueryError (Option Condition) :=
  match q.filter with
  | some raw => if raw.isBlankFilter then .ok none else (Condition.read r raw).map some
  | none => .ok none

/-- The condition of the text that a request looks for, if it has one. -/
def Request.searchCondition (q : Request) (r : Registry) : Except QueryError (Option Condition) :=
  match q.text with
  | some text => r.textCondition text
  | none => .ok none

/-- The parameters of the links of a request: filter, equalities, text, order, and what is carried
along. -/
def Request.linkParams (q : Request) (filter : Option Condition) (searches : Bool)
    (order : RowOrder) : List (String × String) :=
  (filter.map fun c => ("filter", c.toJson.text)).toList
    ++ q.equalities.map (fun (name, value) => (equalityMark ++ name, value))
    ++ (if searches then q.text.toList.map fun text => ("text", Text.trim text) else [])
    ++ [("order_by", order.primary.field), ("direction", order.primary.direction.name)]
    ++ q.carried

/-- The predicate of a condition that may be missing. -/
def Condition.compile? (t : TableRef) : Option Condition → Except QueryError (Option Predicate)
  | none => .ok none
  | some c => (c.compile t).map some

/-- What a backend answers about the rows of a table. -/
structure Backend (m : Type → Type) (Row : Type) where
  count : Option Predicate → m Nat
  fetch : Option Predicate → RowOrder → Window → m (List Row)

/-- What is said about a page of rows. -/
structure Metadata where
  /-- The filter in its normal form. -/
  filter : Json
  orderBy : String
  direction : Direction
  paging : PageInfo

/-- The order of rows in JSON. -/
def RowOrder.sortingJson (orderBy : String) (direction : Direction) : Json :=
  .object [("order_by", .string orderBy), ("direction", .string direction.name)]

/-- What is said about a page, in JSON. -/
def Metadata.toJson (m : Metadata) : Json :=
  .object
    [("filter", m.filter), ("sorting", RowOrder.sortingJson m.orderBy m.direction),
     ("paging", m.paging.toJson)]

/-- The rows of a page, and what is said about it. -/
structure Page (Row : Type) where
  rows : List Row
  metadata : Metadata

namespace Plan

/-- The plan of a request, its links starting with a path. -/
def build (q : Request) (r : Registry) (basePath : String) : Except QueryError Plan := do
  let filter ← q.filterCondition r
  let equalities ← r.equalityCondition q.equalities
  let search ← q.searchCondition r
  let condition := Condition.all (filter.toList ++ equalities.toList ++ search.toList)
  let predicate ← Condition.compile? (.ofRegistry r) condition
  let order ← q.order.resolve r
  let window ← q.paging.resolve r
  return ⟨condition, predicate, order, window, ⟨basePath, q.linkParams filter search.isSome order⟩⟩

/-- The filter of the plan in its normal form; an empty object where nothing is filtered. -/
def filterJson (p : Plan) : Json :=
  match p.condition with
  | some c => c.toJson
  | none => .object []

/-- What is said about the plan's page of this many rows in all. -/
def metadata (p : Plan) (total : Nat) : Metadata :=
  ⟨p.filterJson, p.order.primary.field, p.order.primary.direction,
   .ofWindow p.window total p.links⟩

/-- The page that a backend gives for the plan. -/
def run {m : Type → Type} [Monad m] {Row : Type} (p : Plan) (b : Backend m Row) : m (Page Row) := do
  let total ← b.count p.predicate
  let rows ← b.fetch p.predicate p.order p.window
  return ⟨rows, p.metadata total⟩

end Plan

end ListQuery
