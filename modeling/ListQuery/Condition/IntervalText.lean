/-
Texts of intervals.

An interval is written `[a,b)` or `[a,b]`, in one line: the lower bound belongs to it, and the upper
bound does where a bracket closes it.  The text is taken apart by a pattern, whose first run takes as much
as it can: the comma between the bounds is the last one.  Blanks around the bounds are dropped.
-/
import ListQuery.Text.Blank
import ListQuery.Text.Pattern

namespace ListQuery

/-- The parts of an interval's text: its bounds without the blanks around them, and whether the bracket
at the end closes it. -/
structure IntervalText where
  lower : List Char
  upper : List Char
  closed : Bool
deriving DecidableEq

open Text.Pattern in
/-- The pattern `^\[(.*),(.*)(\)|\])$`. -/
def IntervalText.pattern : Text.Pattern :=
  sequence
    [start, one (.only '['), group 1 (run .inLine), one (.only ','), group 2 (run .inLine),
      group 3 (either (one (.only ')')) (one (.only ']'))), finish]

/-- The parts of a text that the pattern matches.  A group that took no part is read as empty. -/
def IntervalText.ofChars? (cs : List Char) : Option IntervalText :=
  (pattern.captures? cs).map fun groups =>
    ⟨Text.trimChars ((groups.lookup 1).getD []), Text.trimChars ((groups.lookup 2).getD []),
      groups.lookup 3 == some [']']⟩

end ListQuery
