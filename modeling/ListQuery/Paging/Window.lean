/-
Windows of rows.

A request asks for a page of some size, or for rows from an offset on; what it asks is fitted into the
limits of a registry and becomes a window, `limit` rows after `offset`.

* `PageRequest.resolve` — sizes are fitted to one up to the greatest, a page below one is the first, an
  offset below zero is zero, and the two styles of paging do not mix;
* `Window.page` and `Window.pageCount` — where the window starts, and how many pages there are.

Design notes: counts are natural numbers; `maxCount` is the greatest that fits 64 bits, and an offset
past it is cut down to it.
-/
import ListQuery.Registry

namespace ListQuery

/-- The greatest count of 64 bits. -/
def maxCount : Nat := UInt64.size - 1

/-- What a request says about paging. -/
structure PageRequest where
  page : Option Int64
  items : Option Int64
  offset : Option Int64
  limit : Option Int64
deriving DecidableEq

namespace PageRequest

/-- The request that says nothing. -/
def empty : PageRequest :=
  ⟨none, none, none, none⟩

/-- Whether the request asks for rows from an offset on. -/
def usesOffset (p : PageRequest) : Bool :=
  p.offset.isSome || p.limit.isSome

/-- Whether the request asks for a page. -/
def usesPage (p : PageRequest) : Bool :=
  p.page.isSome || p.items.isSome

/-- Whether a request says nothing. -/
def isEmpty (p : PageRequest) : Bool :=
  !p.usesPage && !p.usesOffset

/-- What a request says, with another one for what it leaves open; a style that the other one does not
use is kept pure. -/
def or (p fallback : PageRequest) : PageRequest :=
  if (p.usesOffset && !fallback.usesOffset) || (p.usesPage && !fallback.usesPage) then p
  else
    ⟨p.page.or fallback.page, p.items.or fallback.items, p.offset.or fallback.offset,
     p.limit.or fallback.limit⟩

end PageRequest

/-- Some rows of a list. -/
structure Window where
  /-- The number of rows before the window. -/
  offset : Nat
  /-- The greatest number of rows in the window. -/
  limit : Nat
deriving DecidableEq

namespace Window

/-- The number of the page on which the window starts; a window without rows is on the first. -/
def page (w : Window) : Nat :=
  if w.limit = 0 then 1 else w.offset / w.limit + 1

/-- The number of pages that hold this many rows. -/
def pageCount (w : Window) (total : Nat) : Nat :=
  if w.limit = 0 then 1 else (total + w.limit - 1) / w.limit

/-- The number of the last page; there always is a first one. -/
def lastPage (w : Window) (total : Nat) : Nat :=
  max 1 (w.pageCount total)

/-- The page before the window, or the last page of a window past it. -/
def previous? (w : Window) (total : Nat) : Option Nat :=
  let p := min (max (w.page - 1) 1) (w.lastPage total)
  if p < w.page then some p else none

/-- The page after the window. -/
def next? (w : Window) (total : Nat) : Option Nat :=
  let p := min (w.page + 1) (w.lastPage total)
  if w.page < p then some p else none

/-- The window in SQL. -/
def toSql (w : Window) : String :=
  "LIMIT " ++ Text.decimalText w.limit ++ " OFFSET " ++ Text.decimalText w.offset

end Window

/-- The page size of a request, from one up to the registry's greatest. -/
def Registry.pageSize (r : Registry) : Option Int64 → Nat
  | none => r.defaultItems
  | some n => if n.toInt < 1 then 1 else min n.toInt.toNat r.maxItems

/-- The window of a request. -/
def PageRequest.resolve (p : PageRequest) (r : Registry) : Except QueryError Window :=
  if p.usesOffset then
    if p.usesPage then
      .error (.paging (if p.offset.isSome then "offset" else "limit") .mixedStyles)
    else .ok ⟨(p.offset.getD 0).toInt.toNat, r.pageSize p.limit⟩
  else
    let items := r.pageSize p.items
    let before := (p.page.getD 1).toInt.toNat - 1
    .ok ⟨min (before * items) maxCount, items⟩

end ListQuery
