/-
Links between pages.

A link carries the parameters of a request and ends in the number and the size of a page, so that
following it asks the same question about other rows.

* `PageInfo.ofWindow` — what a window shows of a list: where it stands, and the links around it.
-/
import ListQuery.FormEncoding
import ListQuery.Json.Basic
import ListQuery.Paging.Window

namespace ListQuery

/-- What all links of a request share. -/
structure Links where
  basePath : String
  params : List (String × String)
deriving DecidableEq

namespace Links

/-- Links without parameters of their own. -/
def ofPath (basePath : String) : Links :=
  ⟨basePath, []⟩

/-- The links with one more parameter at the end. -/
def push (l : Links) (name value : String) : Links :=
  { l with params := l.params ++ [(name, value)] }

/-- The parameters of the link to a page. -/
def pageParams (l : Links) (page items : Nat) : List (String × String) :=
  l.params ++ [("page", Text.decimalText page), ("items", Text.decimalText items)]

/-- The link to a page. -/
def page (l : Links) (page items : Nat) : String :=
  l.basePath ++ "?" ++ FormEncoding.encode (l.pageParams page items)

end Links

/-- Where a window stands in a list of rows. -/
structure PageInfo where
  page : Nat
  items : Nat
  total : Nat
  /-- The number of pages; none if there are no rows. -/
  pageCount : Nat
  current : String
  previous : Option String
  next : Option String
deriving DecidableEq

namespace PageInfo

/-- Where a window stands in a list of this many rows. -/
def ofWindow (w : Window) (total : Nat) (links : Links) : PageInfo :=
  ⟨w.page, w.limit, total, w.pageCount total, links.page w.page w.limit,
   (w.previous? total).map (links.page · w.limit), (w.next? total).map (links.page · w.limit)⟩

/-- A link that may be missing, in JSON. -/
def linkJson : Option String → Json
  | none => .null
  | some link => .string link

/-- The information in JSON. -/
def toJson (i : PageInfo) : Json :=
  .object
    [("page", .integer i.page), ("items", .integer i.items), ("total", .integer i.total),
     ("max_page", .integer i.pageCount), ("current", .string i.current),
     ("previous", linkJson i.previous), ("next", linkJson i.next)]

end PageInfo

end ListQuery
