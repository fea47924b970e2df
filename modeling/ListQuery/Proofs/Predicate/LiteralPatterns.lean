/-
What the patterns of a text match.

A text that is looked for becomes a pattern, in which a run of any characters may stand before it, after it
or on both sides.  The characters of the text stand for themselves there, whatever they are: the pattern is
matched by the texts that contain the text, start with it or end with it, and by no others.

* `Sql.patternItems`, `Sql.matchesPattern` — patterns as `LIKE` reads them, and the texts that match one;
* `Placement.Holds` — where a text stands in another one;
* `patternItems_literal` — the escaped text in a pattern is read as its own characters;
* `matchesItems_contains`, `matchesItems_startsWith`, `matchesItems_endsWith` — characters with a run on
  both sides, after them or before them;
* `Placement.matchesPattern_iff` — a text matches the pattern exactly if what is looked for stands in it;
* `Engine.value_pattern_iff` — so does the row on which the test of a pattern is true.

Design notes: a pattern is cut into its parts first, which settles what is escaped, and a text is compared
with the parts after that.  A run is tried at every length.
-/
import ListQuery.Predicate.Compile
import ListQuery.Proofs.Predicate.Value
import Mathlib.Data.List.Infix

namespace ListQuery

namespace Sql

/-! ### Patterns -/

/-- A part of a pattern. -/
inductive PatternItem where
  /-- Any run of characters, also none. -/
  | run
  /-- Any one character. -/
  | any
  | char (c : Char)
deriving DecidableEq

/-- The parts of a pattern.  A backslash takes the character after it as it is; at the end it is a
character like others. -/
def patternItems : List Char → List PatternItem
  | [] => []
  | '\\' :: c :: rest => .char c :: patternItems rest
  | '%' :: rest => .run :: patternItems rest
  | '_' :: rest => .any :: patternItems rest
  | c :: rest => .char c :: patternItems rest

/-- Whether characters are made up of what the parts of a pattern stand for, one after the other. -/
def matchesItems : List PatternItem → List Char → Bool
  | [], cs => cs.isEmpty
  | .run :: items, cs => cs.tails.any (matchesItems items)
  | .any :: _, [] => false
  | .any :: items, _ :: cs => matchesItems items cs
  | .char _ :: _, [] => false
  | .char c :: items, d :: cs => c == d && matchesItems items cs

/-- Whether a text matches a pattern, the backslash being the escape. -/
def matchesPattern (pattern text : String) : Bool :=
  matchesItems (patternItems pattern.toList) text.toList

variable {items : List PatternItem} {cs : List Char}

theorem matchesItems_nil : matchesItems [] cs = true ↔ cs = [] :=
  List.isEmpty_iff

theorem matchesItems_run : matchesItems (.run :: items) cs = true
    ↔ ∃ rest, rest <:+ cs ∧ matchesItems items rest = true := by
  rw [matchesItems, List.any_eq_true]
  simp only [List.mem_tails]

theorem matchesItems_last_run : matchesItems [.run] cs = true :=
  matchesItems_run.mpr ⟨[], List.nil_suffix, rfl⟩

/-- Characters that stand for themselves are taken off the front of a text. -/
theorem matchesItems_chars (s : List Char) : matchesItems (s.map .char ++ items) cs = true
    ↔ ∃ rest, s ++ rest = cs ∧ matchesItems items rest = true := by
  induction s generalizing cs with
  | nil => simp
  | cons c s ih =>
    cases cs with
    | nil => simp [matchesItems]
    | cons d cs =>
      rw [List.map_cons, List.cons_append, matchesItems, Bool.and_eq_true, ih, beq_iff_eq]
      simp only [List.cons_append, List.cons.injEq, and_assoc, exists_and_left]

theorem matchesItems_startsWith {s : List Char} :
    matchesItems (s.map .char ++ [.run]) cs = true ↔ s <+: cs := by
  simp only [matchesItems_chars, matchesItems_last_run, and_true]
  exact Iff.rfl

theorem matchesItems_contains {s : List Char} :
    matchesItems (.run :: (s.map .char ++ [.run])) cs = true ↔ s <:+: cs := by
  simp only [matchesItems_run, matchesItems_startsWith]
  rw [List.infix_iff_prefix_suffix]
  exact exists_congr fun rest => and_comm

theorem matchesItems_endsWith {s : List Char} :
    matchesItems (.run :: (s.map .char ++ [])) cs = true ↔ s <:+ cs := by
  simp only [matchesItems_run, matchesItems_chars, matchesItems_nil]
  constructor
  · rintro ⟨_, hrest, _, rfl, rfl⟩
    rwa [List.append_nil] at hrest
  · intro h
    exact ⟨s, h, [], List.append_nil _, rfl⟩

/-! ### Escaped texts -/

theorem patternItems_plain {c : Char} (h : isPatternChar c = false) (rest : List Char) :
    patternItems (c :: rest) = .char c :: patternItems rest := by
  rw [patternItems.eq_def]
  split <;> simp_all [isPatternChar]

/-- An escaped text is read as its own characters, whatever follows it in the pattern. -/
theorem patternItems_literal (s : String) (rest : List Char) :
    patternItems ((literalPattern s).toList ++ rest) = s.toList.map .char ++ patternItems rest := by
  rw [literalPattern, String.toList_ofList]
  induction s.toList with
  | nil => rfl
  | cons c cs ih =>
    rw [List.flatMap_cons, List.append_assoc, List.map_cons, List.cons_append, ← ih]
    cases hc : isPatternChar c with
    | true => rfl
    | false => exact patternItems_plain hc _

end Sql

/-! ### Places -/

namespace Placement

open Sql

/-- Whether characters stand at a place in others. -/
def Holds (kind : Placement) (s cs : List Char) : Prop :=
  match kind with
  | .contains => s <:+: cs
  | .startsWith => s <+: cs
  | .endsWith => s <:+ cs

/-- The parts of the pattern for a text: its characters, and a run where more may stand. -/
theorem patternItems_pattern (kind : Placement) (s : String) :
    patternItems (kind.pattern s).toList = match kind with
      | .contains => .run :: (s.toList.map .char ++ [.run])
      | .startsWith => s.toList.map .char ++ [.run]
      | .endsWith => .run :: (s.toList.map .char ++ []) := by
  have hend : patternItems (literalPattern s).toList = s.toList.map .char ++ [] := by
    rw [← List.append_nil (literalPattern s).toList]
    exact patternItems_literal s []
  have hrun : patternItems ((literalPattern s).toList ++ ['%']) = s.toList.map .char ++ [.run] :=
    patternItems_literal s ['%']
  cases kind with
  | contains =>
    simp only [pattern, String.toList_append]
    exact congrArg (.run :: ·) hrun
  | startsWith =>
    simp only [pattern, String.toList_append]
    exact hrun
  | endsWith =>
    simp only [pattern, String.toList_append]
    exact congrArg (.run :: ·) hend

theorem matchesItems_pattern (kind : Placement) (s : String) (cs : List Char) :
    matchesItems (patternItems (kind.pattern s).toList) cs = true ↔ kind.Holds s.toList cs := by
  rw [patternItems_pattern]
  cases kind with
  | contains => exact matchesItems_contains
  | startsWith => exact matchesItems_startsWith
  | endsWith => exact matchesItems_endsWith

/-- A text matches the pattern for `s` exactly if it contains `s`, starts with it or ends with it.  So no
character of `s` is a wildcard or an escape in the pattern. -/
theorem matchesPattern_iff (kind : Placement) (s text : String) :
    matchesPattern (kind.pattern s) text = true ↔ kind.Holds s.toList text.toList :=
  matchesItems_pattern kind s text.toList

/-- A wildcard in a text that is looked for is no wildcard in its pattern. -/
example : matchesPattern (Placement.contains.pattern "0%") "100%" = true
    ∧ matchesPattern (Placement.contains.pattern "0%") "1000" = false := by decide

end Placement

/-! ### Rows -/

/-- On a row with a text in the column, and for an engine that decides `LIKE` as patterns are matched, the
test of a pattern is true exactly if what is looked for stands in the text. -/
theorem Engine.value_pattern_iff {V : Type} {E : Engine V} {v : V} {text : String}
    (hlike : ∀ pattern, E.like v (E.ofLiteral (.text pattern)) (some "\\")
      = .ofBool (Sql.matchesPattern pattern text))
    {row : Column → V} {column : Column} (hrow : row column = v) (kind : Placement) (s : String) :
    ((Test.pattern kind s).onColumn column).value (E.tests row) = .true
      ↔ kind.Holds s.toList text.toList := by
  have hvalue : ((Test.pattern kind s).onColumn column).value (E.tests row)
      = .ofBool (Sql.matchesPattern (kind.pattern s) text) := by
    rw [← hlike, ← hrow]
    rfl
  rw [hvalue, ← kind.matchesItems_pattern, ← Sql.matchesPattern]
  cases Sql.matchesPattern (kind.pattern s) text with
  | false => exact ⟨Truth.noConfusion, Bool.noConfusion⟩
  | true => exact ⟨fun _ => rfl, fun _ => rfl⟩

end ListQuery
