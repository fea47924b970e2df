/-
Named values in order.

A name keeps the place at which it was first set, and has the value that was set last.

* `get?_set` and `get?_set_of_ne` — setting a name changes its value and no other.
-/
namespace ListQuery

/-- Names with their values, in the order in which the names were first set. -/
abbrev Pairs := List (String × String)

namespace Pairs

/-- The value of a name. -/
def get? (ps : Pairs) (name : String) : Option String :=
  List.lookup name ps

/-- The pairs with a value for a name. -/
def set (name value : String) : Pairs → Pairs
  | [] => [(name, value)]
  | (n, v) :: rest => if n = name then (n, value) :: rest else (n, v) :: set name value rest

theorem get?_set (name value : String) (ps : Pairs) : (ps.set name value).get? name = some value := by
  induction ps with
  | nil => simp [set, get?]
  | cons p rest ih =>
    obtain ⟨n, v⟩ := p
    by_cases h : n = name
    · simp [set, get?, h]
    · have hn : (name == n) = false := by simpa using Ne.symm h
      simpa [set, get?, h, List.lookup_cons, hn] using ih

theorem get?_set_of_ne {name other : String} (h : other ≠ name) (value : String) (ps : Pairs) :
    (ps.set name value).get? other = ps.get? other := by
  have ho : (other == name) = false := by simpa using h
  induction ps with
  | nil => simp [set, get?, List.lookup_cons, ho]
  | cons p rest ih =>
    obtain ⟨n, v⟩ := p
    by_cases hn : n = name
    · simp [set, get?, hn, List.lookup_cons, ho]
    · simp only [get?] at ih
      simp [set, get?, hn, List.lookup_cons, ih]

end Pairs

end ListQuery
