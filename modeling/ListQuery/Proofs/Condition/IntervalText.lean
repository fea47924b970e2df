/-
Texts of intervals taken apart and put together.

The pattern of an interval has two runs that may take anything in a line.  What stands after the second
one is a single bracket at the end of the text, so that run has no choice; and the first one takes all up
to the last comma, since any longer run leaves no comma to go on with.

* `captures?_eq_some_iff` — the texts that the pattern matches, and what its groups hold;
* `ofChars?_eq_some_iff` — the texts that split into bounds, and the bounds that they split into;
* `ofChars?_enclosed` — the text of an interval splits into its bounds, if these have no blanks around
  them and no line feed, and the upper one has no comma;
* `bounds_of_ofChars?` — the bounds that a text splits into are of this sort.
-/
import ListQuery.Condition.IntervalText
import ListQuery.Proofs.Text.Pattern
import ListQuery.Proofs.Text.Trimming

namespace ListQuery.IntervalText

open Text Text.Pattern

/-- The bracket at the end of an interval. -/
def bracket (closed : Bool) : Char :=
  if closed then ']' else ')'

/-- The text of an interval with these bounds that ends in a bracket. -/
def enclosed (lower upper : List Char) (bracket : Char) : List Char :=
  '[' :: (lower ++ ',' :: upper ++ [bracket])

/-! ### The pattern -/

section Pattern

variable {offset : Nat} {cs : List Char} {groups found : Captures}

/-- The pattern from the bracket at the end on. -/
def closing : List Pattern :=
  [group 3 (either (one (.only ')')) (one (.only ']'))), finish]

/-- The pattern from the upper bound on. -/
def fromUpper : List Pattern :=
  group 2 (run .inLine) :: closing

/-- The pattern from the lower bound on. -/
def fromLower : List Pattern :=
  group 1 (run .inLine) :: one (.only ',') :: fromUpper

theorem pattern_eq : pattern = sequence (start :: one (.only '[') :: fromLower) :=
  rfl

/-- A match of one bracket, in the third group, at the end of the text. -/
theorem matchThen_bracket_eq_some_iff {c : Char} :
    (one (.only c)).matchThen offset cs groups (fun last rest groups =>
        (sequence [finish]).matchFrom? last rest ((3, cs.take (last - offset)) :: groups)) = some found
      ↔ cs = [c] ∧ found = (3, [c]) :: groups := by
  simp only [matchThen_only_eq_some_iff, matchFrom?_cons, matchFrom?_nil,
    matchThen_finish_eq_some_iff, Nat.add_sub_cancel_left]
  constructor
  · rintro ⟨_, rfl, rfl, h⟩
    exact ⟨rfl, (Option.some.inj h).symm⟩
  · rintro ⟨rfl, rfl⟩
    exact ⟨[], rfl, rfl, rfl⟩

theorem matchFrom?_closing_eq_some_iff :
    (sequence closing).matchFrom? offset cs groups = some found
      ↔ ∃ closed, cs = [bracket closed] ∧ found = (3, [bracket closed]) :: groups := by
  rw [closing, matchFrom?_cons, matchThen_group, matchThen_either_eq_some_iff,
    Option.eq_none_iff_forall_ne_some]
  simp only [ne_eq, matchThen_bracket_eq_some_iff]
  constructor
  · rintro (h | ⟨-, h⟩)
    · exact ⟨false, h⟩
    · exact ⟨true, h⟩
  · rintro ⟨closed, h⟩
    cases closed with
    | false => exact .inl h
    | true =>
      refine .inr ⟨fun found' h' => ?_, h⟩
      have hbrackets : [')'] = [']'] := h'.1.symm.trans h.1
      exact absurd hbrackets (by decide)

/-- The upper bound is all that stands before the last character. -/
theorem matchFrom?_fromUpper_eq_some_iff :
    (sequence fromUpper).matchFrom? offset cs groups = some found
      ↔ ∃ upper closed, cs = upper ++ [bracket closed] ∧ '\n' ∉ upper
          ∧ found = (3, [bracket closed]) :: (2, upper) :: groups := by
  rw [fromUpper, matchFrom?_cons, matchThen_groupRun_eq_some_iff]
  simp only [Option.eq_none_iff_forall_ne_some, ne_eq, matchFrom?_closing_eq_some_iff,
    CharClass.takes_inLine_iff]
  constructor
  · rintro ⟨upper, _, ⟨hcs, hline⟩, ⟨closed, rfl, hfound⟩, -⟩
    exact ⟨upper, closed, hcs, hline, hfound⟩
  · rintro ⟨upper, closed, hcs, hline, hfound⟩
    refine ⟨upper, _, ⟨hcs, hline⟩, ⟨closed, rfl, hfound⟩, ?_⟩
    rintro longer _ ⟨hcs', -⟩ hlt found' ⟨closed', rfl, -⟩
    have hlength := congrArg List.length (hcs.symm.trans hcs')
    simp only [List.length_append, List.length_singleton] at hlength
    omega

theorem matchFrom?_comma_eq_some_iff :
    (sequence (one (.only ',') :: fromUpper)).matchFrom? offset cs groups = some found
      ↔ ∃ upper closed, cs = ',' :: (upper ++ [bracket closed]) ∧ '\n' ∉ upper
          ∧ found = (3, [bracket closed]) :: (2, upper) :: groups := by
  rw [matchFrom?_cons, matchThen_only_eq_some_iff]
  simp only [matchFrom?_fromUpper_eq_some_iff]
  constructor
  · rintro ⟨_, hcs, upper, closed, rfl, h⟩
    exact ⟨upper, closed, hcs, h⟩
  · rintro ⟨upper, closed, hcs, h⟩
    exact ⟨_, hcs, upper, closed, rfl, h⟩

/-- A text that is split at a comma, with its last character apart, has no split of this sort further on,
if the upper bound has no comma. -/
theorem length_le_of_lastComma {lower lower' upper upper' : List Char} {b b' : Char}
    (hcomma : ',' ∉ upper)
    (h : lower ++ ',' :: (upper ++ [b]) = lower' ++ ',' :: (upper' ++ [b'])) :
    lower'.length ≤ lower.length := by
  rcases List.append_eq_append_iff.mp h with ⟨more, rfl, htail⟩ | ⟨more, rfl, -⟩
  · cases more with
    | nil => simp
    | cons c more =>
      obtain ⟨rfl, hrest⟩ := List.cons.inj htail
      have hends : upper ++ [b] = (more ++ ',' :: upper') ++ [b'] :=
        hrest.trans (List.append_assoc more (',' :: upper') [b']).symm
      obtain rfl := (List.append_inj' hends rfl).1
      exact absurd (List.mem_append_right more List.mem_cons_self) hcomma
  · simp

/-- The lower bound is all that stands before the last comma. -/
theorem matchFrom?_fromLower_eq_some_iff :
    (sequence fromLower).matchFrom? offset cs groups = some found
      ↔ ∃ lower upper closed, cs = lower ++ ',' :: (upper ++ [bracket closed])
          ∧ ',' ∉ upper ∧ '\n' ∉ lower ∧ '\n' ∉ upper
          ∧ found = (3, [bracket closed]) :: (2, upper) :: (1, lower) :: groups := by
  rw [fromLower, matchFrom?_cons, matchThen_groupRun_eq_some_iff]
  simp only [Option.eq_none_iff_forall_ne_some, ne_eq, matchFrom?_comma_eq_some_iff,
    CharClass.takes_inLine_iff]
  constructor
  · rintro ⟨lower, _, ⟨hcs, hlower⟩, ⟨upper, closed, rfl, hupper, hfound⟩, hlongest⟩
    refine ⟨lower, upper, closed, hcs, fun hcomma => ?_, hlower, hupper, hfound⟩
    -- A comma in the upper bound would leave a longer run for the lower one.
    obtain ⟨before, after, rfl⟩ := List.append_of_mem hcomma
    simp only [List.mem_append, List.mem_cons, not_or] at hupper
    refine hlongest (lower ++ ',' :: before) (',' :: (after ++ [bracket closed])) ⟨?_, ?_⟩ ?_ _
      ⟨after, closed, rfl, hupper.2.2, rfl⟩
    · rw [hcs]
      simp
    · simp only [List.mem_append, List.mem_cons, not_or]
      exact ⟨hlower, by decide, hupper.1⟩
    · simp
  · rintro ⟨lower, upper, closed, hcs, hcomma, hlower, hupper, hfound⟩
    refine ⟨lower, _, ⟨hcs, hlower⟩, ⟨upper, closed, rfl, hupper, hfound⟩, ?_⟩
    rintro longer _ ⟨hcs', -⟩ hlt found' ⟨upper', closed', rfl, -⟩
    exact absurd hlt (Nat.not_lt.mpr (length_le_of_lastComma hcomma (hcs.symm.trans hcs')))

/-- The pattern matches the texts of intervals that stand in one line.  The bounds are parted at the last
comma. -/
theorem captures?_eq_some_iff :
    pattern.captures? cs = some found
      ↔ ∃ lower upper closed, cs = enclosed lower upper (bracket closed)
          ∧ ',' ∉ upper ∧ '\n' ∉ lower ∧ '\n' ∉ upper
          ∧ found = [(3, [bracket closed]), (2, upper), (1, lower)] := by
  rw [pattern_eq, captures?_start, matchFrom?_cons, matchThen_only_eq_some_iff]
  simp only [matchFrom?_fromLower_eq_some_iff, enclosed, List.append_assoc, List.cons_append]
  constructor
  · rintro ⟨_, hcs, lower, upper, closed, rfl, h⟩
    exact ⟨lower, upper, closed, hcs, h⟩
  · rintro ⟨lower, upper, closed, hcs, h⟩
    exact ⟨_, hcs, lower, upper, closed, rfl, h⟩

end Pattern

/-! ### Texts and their parts -/

theorem trimChars_enclosed (lower upper : List Char) (closed : Bool) :
    trimChars (enclosed lower upper (bracket closed)) = enclosed lower upper (bracket closed) := by
  refine trimChars_eq_self (fun c hc => ?_) (fun c hc => ?_)
  · obtain rfl : '[' = c := by simpa [enclosed] using hc
    decide
  · rw [enclosed, ← List.cons_append, List.getLast?_concat] at hc
    obtain rfl := Option.some.inj hc
    cases closed <;> decide

/-- A text splits into bounds exactly if it is enclosed in brackets and stands in one line.  The comma
between the bounds is the last one. -/
theorem ofChars?_eq_some_iff {cs : List Char} {parts : IntervalText} :
    ofChars? cs = some parts
      ↔ ∃ lower upper, cs = enclosed lower upper (bracket parts.closed)
          ∧ ',' ∉ upper ∧ '\n' ∉ lower ∧ '\n' ∉ upper
          ∧ parts.lower = trimChars lower ∧ parts.upper = trimChars upper := by
  have hparts : ∀ lower upper closed,
      (⟨trimChars lower, trimChars upper, some [bracket closed] == some [']']⟩ : IntervalText)
        = ⟨trimChars lower, trimChars upper, closed⟩ := by
    intro lower upper closed
    cases closed <;> rfl
  rw [ofChars?, Option.map_eq_some_iff]
  simp only [captures?_eq_some_iff]
  constructor
  · rintro ⟨_, ⟨lower, upper, closed, hcs, hcomma, hlower, hupper, rfl⟩, h⟩
    obtain rfl := (hparts lower upper closed).symm.trans h
    exact ⟨lower, upper, hcs, hcomma, hlower, hupper, rfl, rfl⟩
  · rintro ⟨lower, upper, hcs, hcomma, hlower, hupper, hl, hu⟩
    obtain ⟨_, _, closed⟩ := parts
    obtain rfl := hl
    obtain rfl := hu
    exact ⟨_, ⟨lower, upper, closed, hcs, hcomma, hlower, hupper, rfl⟩, hparts lower upper closed⟩

example : ofChars? "[a,b], c)]".toList = some ⟨['a', ',', 'b', ']'], ['c', ')'], true⟩ := by
  decide

/-- The text of an interval splits at its comma, the upper bound having none of its own. -/
theorem ofChars?_enclosed {lower upper : List Char} (hl : trimChars lower = lower)
    (hu : trimChars upper = upper) (hcomma : ',' ∉ upper) (hlower : '\n' ∉ lower)
    (hupper : '\n' ∉ upper) (closed : Bool) :
    ofChars? (enclosed lower upper (bracket closed)) = some ⟨lower, upper, closed⟩ :=
  ofChars?_eq_some_iff.mpr ⟨lower, upper, rfl, hcomma, hlower, hupper, hl.symm, hu.symm⟩

/-- Bounds in a text have no blanks around them and no line feed, and the upper one has no comma. -/
theorem bounds_of_ofChars? {cs : List Char} {parts : IntervalText} (h : ofChars? cs = some parts) :
    (trimChars parts.lower = parts.lower ∧ '\n' ∉ parts.lower)
      ∧ (trimChars parts.upper = parts.upper ∧ '\n' ∉ parts.upper) ∧ ',' ∉ parts.upper := by
  obtain ⟨a, b, -, hcomma, hlower, hupper, hl, hu⟩ := ofChars?_eq_some_iff.mp h
  rw [hl, hu]
  exact ⟨⟨trimChars_trimChars a, fun hc => hlower (mem_of_mem_trimChars hc)⟩,
    ⟨trimChars_trimChars b, fun hc => hupper (mem_of_mem_trimChars hc)⟩,
    fun hc => hcomma (mem_of_mem_trimChars hc)⟩

end ListQuery.IntervalText
