/-
The texts of intervals that a field accepts.

A range may be given by a text, `[a,b)` or `[a,b]`.  The comma that parts the bounds is the last one, so
brackets and further commas may stand in the lower bound, and brackets in the upper one.  What has
another form, or bounds that are no values of the field, is a fault of the range and of nothing else.

* `Interval.Between` — what a text with two bounds has to be like to write an interval;
* `readRange_eq_ok_iff_ofText` and `error_of_readRange_textOperand` — the texts that are accepted as
  ranges, and what is reported of any other one;
* `readField_interval` — the same of a field, and of a filter that asks about the field.
-/
import ListQuery.Proofs.Condition.RangeForms

namespace ListQuery

/-- Whether a text writes an interval over a type between two bounds.  The text is one line in brackets,
with a comma between the bounds and none in the upper one; the bracket at the end is `]` exactly if the
upper bound belongs to the interval.  Each bound is more than blanks and, without those around it, the
text of a value.  Values that are numbers stand in order. -/
structure Interval.Between (i : Interval) (type : FieldType) (s : String) (lower upper : List Char) :
    Prop where
  text : Text.trimChars s.toList
    = IntervalText.enclosed lower upper (if i.closed then ']' else ')')
  comma : ',' ∉ upper
  lowerLine : '\n' ∉ lower
  upperLine : '\n' ∉ upper
  lowerPresent : Text.trimChars lower ≠ []
  upperPresent : Text.trimChars upper ≠ []
  lowerValue : type.coerce (.text (String.ofList (Text.trimChars lower))) = .ok i.lower
  upperValue : type.coerce (.text (String.ofList (Text.trimChars upper))) = .ok i.upper
  order : i.lower.order? i.upper ≠ some .gt

/-- Whether a text writes an interval over a type. -/
def Interval.OfText (i : Interval) (type : FieldType) (s : String) : Prop :=
  ∃ lower upper, i.Between type s lower upper

namespace Field

variable {f : Field} {tag s : String}

theorem readInterval_eq_ok_iff {i : Interval} :
    f.readInterval tag (.string s) = .ok i
      ↔ ∃ parts, IntervalText.ofChars? (Text.trimChars s.toList) = some parts
          ∧ i.closed = parts.closed
          ∧ f.readBound tag s .lower parts.lower = .ok i.lower
          ∧ f.readBound tag s .upper parts.upper = .ok i.upper := by
  rw [readInterval]
  cases IntervalText.ofChars? (Text.trimChars s.toList) with
  | none => simp
  | some parts =>
    simp only [Option.some.injEq, exists_eq_left', bind_eq_ok_iff, pure_eq_ok_iff]
    constructor
    · rintro ⟨lower, hlower, upper, hupper, rfl⟩
      exact ⟨rfl, hlower, hupper⟩
    · rintro ⟨hclosed, hlower, hupper⟩
      exact ⟨i.lower, hlower, i.upper, hupper, by rw [← hclosed]⟩

/-- A range that is given by a text. -/
def textOperand (s : String) : Json :=
  .object [("interval", .string s)]

theorem readRange_textOperand (f : Field) (tag s : String) :
    f.readRange tag (textOperand s) = f.readInterval tag (.string s) >>= fun i =>
      if i.lower.order? i.upper = some .gt then .error (.range f.name .inverted) else .ok i :=
  rfl

theorem readRange_textOperand_eq_ok_iff {i : Interval} :
    f.readRange tag (textOperand s) = .ok i
      ↔ f.readInterval tag (.string s) = .ok i ∧ i.lower.order? i.upper ≠ some .gt := by
  rw [readRange_textOperand, bind_eq_ok_iff]
  constructor
  · rintro ⟨j, hj, h⟩
    split at h
    · simp at h
    · rename_i horder
      obtain rfl := Except.ok.inj h
      exact ⟨hj, horder⟩
  · rintro ⟨hi, horder⟩
    exact ⟨i, hi, if_neg horder⟩

/-- A text is accepted as a range exactly if it writes an interval over the field's type, and the range is
this interval. -/
theorem readRange_eq_ok_iff_ofText {i : Interval} :
    f.readRange tag (textOperand s) = .ok i ↔ i.OfText f.type s := by
  rw [readRange_textOperand_eq_ok_iff, readInterval_eq_ok_iff]
  simp only [IntervalText.ofChars?_eq_some_iff, readBound_eq_ok_iff]
  constructor
  · rintro ⟨⟨parts, ⟨a, b, htext, hcomma, ha, hb, hl, hu⟩, hclosed, hlower, hupper⟩, horder⟩
    rw [← hclosed] at htext
    rw [hl] at hlower
    rw [hu] at hupper
    exact ⟨a, b, htext, hcomma, ha, hb, hlower.1, hupper.1, hlower.2, hupper.2, horder⟩
  · rintro ⟨a, b, h⟩
    exact ⟨⟨⟨Text.trimChars a, Text.trimChars b, i.closed⟩,
      ⟨a, b, h.text, h.comma, h.lowerLine, h.upperLine, rfl, rfl⟩, rfl,
      ⟨h.lowerPresent, h.lowerValue⟩, h.upperPresent, h.upperValue⟩, h.order⟩

/-- Whatever is wrong with a range that is given by a text is reported as a fault of the range. -/
theorem error_of_readRange_textOperand {e : QueryError}
    (h : f.readRange tag (textOperand s) = .error e) : ∃ fault, e = .range f.name fault := by
  rw [readRange_textOperand] at h
  rcases bind_eq_error_iff.mp h with h | ⟨i, -, h⟩
  · exact error_of_readInterval h
  · split at h
    · exact ⟨_, (Except.error.inj h).symm⟩
    · simp at h

end Field

/-! ### Fields and filters -/

namespace Condition

variable {r : Registry} {name : String} {f : Field}

/-- What is made of a range that is given by a text: it is accepted exactly if the text writes an interval,
and any other text is a fault of the range. -/
theorem map_readRange_textOperand {α : Type} (g : Interval → α) (tag s : String) :
    (∀ a, (f.readRange tag (Field.textOperand s)).map g = .ok a ↔ ∃ i, i.OfText f.type s ∧ a = g i)
      ∧ ((¬∃ i : Interval, i.OfText f.type s) →
        ∃ fault, (f.readRange tag (Field.textOperand s)).map g = .error (.range f.name fault)) := by
  constructor
  · intro a
    simp only [map_eq_ok_iff, Field.readRange_eq_ok_iff_ofText, @eq_comm α a]
  · intro hnone
    cases h : f.readRange tag (Field.textOperand s) with
    | ok i => exact absurd ⟨i, Field.readRange_eq_ok_iff_ofText.mp h⟩ hnone
    | error e =>
      obtain ⟨fault, rfl⟩ := Field.error_of_readRange_textOperand h
      exact ⟨fault, rfl⟩

/-- A field that allows ranges accepts the texts that write intervals over its type, each as a test of
this interval, and reports any other text as a fault of the range.  So does a filter of one entry, if the
field is not named like a combinator. -/
theorem readField_interval (hf : r.filterable? name = some f) (hallows : f.allows .range = true)
    (s : String) :
    ((∀ cs, readField r name (.object [("range", .object [("interval", .string s)])]) = .ok cs
          ↔ ∃ i, i.OfText f.type s ∧ cs = [.leaf name (.range i)])
        ∧ ((¬∃ i : Interval, i.OfText f.type s) →
          ∃ fault, readField r name (.object [("range", .object [("interval", .string s)])])
            = .error (.range name fault)))
      ∧ (Combinator.ofKey? name = none →
        (∀ c, read r (rangeFilter name (.object [("interval", .string s)])) = .ok c
            ↔ ∃ i, i.OfText f.type s ∧ c = .leaf name (.range i))
          ∧ ((¬∃ i : Interval, i.OfText f.type s) →
            ∃ fault, read r (rangeFilter name (.object [("interval", .string s)]))
              = .error (.range name fault))) := by
  obtain rfl := Registry.name_of_filterable? hf
  rw [readField_range hf hallows]
  refine ⟨map_readRange_textOperand _ "range" s, fun hkey => ?_⟩
  rw [read_rangeFilter hkey hf hallows]
  exact map_readRange_textOperand _ "range" s

/-- A text with commas and brackets in its bounds, and a text of three numbers. -/
theorem readField_interval_readings :
    read .readings (rangeFilter "note" (.object [("interval", .string " [a,b], c)]")]))
        = .ok (.leaf "note" (.range ⟨.text "a,b]", .text "c)", true⟩))
      ∧ ∃ fault, read .readings (rangeFilter "count" (.object [("interval", .string "[1,2,3)")]))
        = .error (.range "count" fault) := by
  have hnote : Registry.readings.filterable? "note" = some (.ofType "note" .text) := rfl
  have hcount : Registry.readings.filterable? "count" = some (.ofType "count" .integer) := rfl
  constructor
  · have hinterval : Interval.OfText ⟨.text "a,b]", .text "c)", true⟩ .text " [a,b], c)]" :=
      ⟨['a', ',', 'b', ']'], [' ', 'c', ')'],
        { text := by decide
          comma := by decide
          lowerLine := by decide
          upperLine := by decide
          lowerPresent := by decide
          upperPresent := by decide
          lowerValue := rfl
          upperValue := rfl
          order := by decide }⟩
    exact (((readField_interval hnote rfl _).2 rfl).1 _).mpr ⟨_, hinterval, rfl⟩
  · obtain ⟨⟨haccepted, -⟩, hfilter⟩ := readField_interval hcount rfl "[1,2,3)"
    refine (hfilter rfl).2 fun ⟨i, hi⟩ => ?_
    -- An interval over the integers would be accepted, but the text before the last comma is none.
    have hread := (haccepted _).mpr ⟨i, hi, rfl⟩
    have hrefused : (readField .readings "count"
        (.object [("range", .object [("interval", .string "[1,2,3)")])])).isOk = false := by
      decide +kernel
    rw [hread] at hrefused
    simp [Except.isOk, Except.toBool] at hrefused

end Condition

end ListQuery
