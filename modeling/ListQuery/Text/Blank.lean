/-
Blank characters and trimming.

A character is blank when Unicode gives it the property `White_Space`: twenty-five code points, among
them the next-line control, the no-break space and the wide spaces.  `trim` drops blanks at both ends
of a text, and `isBlankText` says that nothing is left after that.

* `isBlank_of_isWhitespace` — the blanks of the standard library are blanks here;
* `trimChars_eq_nil_iff` — only a text of blanks is trimmed to nothing.
-/
namespace ListQuery.Text

/-- The code points with the property `White_Space`. -/
def blankCodePoints : List Nat :=
  [0x0009, 0x000A, 0x000B, 0x000C, 0x000D, 0x0020, 0x0085, 0x00A0, 0x1680,
   0x2000, 0x2001, 0x2002, 0x2003, 0x2004, 0x2005, 0x2006, 0x2007, 0x2008, 0x2009, 0x200A,
   0x2028, 0x2029, 0x202F, 0x205F, 0x3000]

/-- Whether a character is blank. -/
def isBlank (c : Char) : Bool :=
  blankCodePoints.contains c.toNat

theorem isBlank_of_isWhitespace {c : Char} (h : c.isWhitespace = true) : isBlank c = true := by
  simp only [Char.isWhitespace, Bool.or_eq_true, decide_eq_true_eq] at h
  rcases h with ((rfl | rfl) | rfl) | rfl <;> decide

/-- The characters without the blanks at their end. -/
def trimEnd (cs : List Char) : List Char :=
  (cs.reverse.dropWhile isBlank).reverse

/-- The characters without the blanks at both ends. -/
def trimChars (cs : List Char) : List Char :=
  trimEnd (cs.dropWhile isBlank)

theorem dropBlank_eq_nil_iff {cs : List Char} :
    cs.dropWhile isBlank = [] ↔ ∀ c ∈ cs, isBlank c = true := by
  induction cs with
  | nil => simp
  | cons c cs ih => by_cases h : isBlank c = true <;> simp [h, ih]

theorem trimEnd_eq_nil_iff {cs : List Char} : trimEnd cs = [] ↔ ∀ c ∈ cs, isBlank c = true := by
  rw [trimEnd, List.reverse_eq_nil_iff, dropBlank_eq_nil_iff]
  simp

theorem trimChars_eq_nil_iff {cs : List Char} :
    trimChars cs = [] ↔ ∀ c ∈ cs, isBlank c = true := by
  rw [trimChars, trimEnd_eq_nil_iff]
  induction cs with
  | nil => simp
  | cons c cs ih => by_cases h : isBlank c = true <;> simp_all

/-- The text without the blanks at both ends. -/
def trim (s : String) : String :=
  String.ofList (trimChars s.toList)

/-- Whether a text holds blanks only. -/
def isBlankText (s : String) : Bool :=
  s.toList.all isBlank

end ListQuery.Text
