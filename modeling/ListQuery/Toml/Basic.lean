/-
TOML values.

A table remembers how it came about, since that decides who may add to it: by a header of its own, by a
longer header or a longer key that names it on the way, or written out in braces.  The entries of a
table stand in the order in which they came.
-/
import ListQuery.Numeric.Binary64

namespace ListQuery

open Numeric

/-- How a table came about. -/
inductive TableForm where
  /-- By its own header; the whole document counts as one. -/
  | header
  /-- By a header of a table inside it. -/
  | implied
  /-- By a key with dots. -/
  | dotted
  /-- Written out in braces. -/
  | inline
deriving DecidableEq

/-- A TOML value. -/
inductive Toml where
  | string (s : String)
  | integer (n : Int)
  | float (x : Binary64)
  | boolean (b : Bool)
  /-- A date, a time, or both, as it is written. -/
  | moment (text : String)
  | array (items : List Toml)
  | table (form : TableForm) (entries : List (String × Toml))
  /-- Tables that share a header in double brackets; the last one may still grow. -/
  | tables (before : List (List (String × Toml))) (last : List (String × Toml))
deriving Inhabited

namespace Toml

/-- The entries of a table. -/
abbrev Entries := List (String × Toml)

/-- The entries with another value for a key that is there. -/
def replaceEntry (key : String) (value : Toml) (entries : Entries) : Entries :=
  entries.map fun (k, v) => if k = key then (k, value) else (k, v)

/-- The entries without a key. -/
def removeEntry (key : String) (entries : Entries) : Entries :=
  entries.filter fun (k, _) => k ≠ key

/-- The entries with one more, if its key is new. -/
def addNew? (key : String) (value : Toml) (entries : Entries) : Option Entries :=
  match List.lookup key entries with
  | some _ => none
  | none => some (entries ++ [(key, value)])

end Toml

end ListQuery
