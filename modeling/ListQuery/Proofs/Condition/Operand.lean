/-
Tests that suit a field.

`Field.Accepts` is what every test on a field keeps that was read from an operand: values of the field's
type, null only where equality takes it, lists that are not empty, bounds in order.  A closed interval
is written as a text, so its bounds also have to be spelt by texts that stand in an interval.

* `accepts_of_read` — a test that was read suits its field;
* `read_operand` — a test that suits its field is read back from its operand.

Design notes: a bound of a closed interval has been read from a text.  Its own text need not be that
text, but it spells the same value and has no character that ends a bound, since numbers have none.
-/
import ListQuery.Condition.Echo
import ListQuery.Condition.Operand
import ListQuery.Proofs.Coercion
import ListQuery.Proofs.Condition.IntervalText
import ListQuery.Proofs.Outcome

namespace ListQuery

namespace Field

/-- A value of the field's type, null not being one. -/
structure Takes (f : Field) (v : Literal) : Prop where
  holds : f.type.holds v = true
  finite : v.isFinite = true
  present : v ≠ .null

/-- A bound whose text stands in an interval and spells the bound. -/
structure Spells (f : Field) (v : Literal) : Prop where
  ne_nil : v.bare.toList ≠ []
  trimmed : Text.trimChars v.bare.toList = v.bare.toList
  oneLine : '\n' ∉ v.bare.toList
  coerce : f.type.coerce (.text v.bare) = .ok v

/-- Two bounds that suit the field, and can be written in a text where the interval is closed. -/
structure Bounds (f : Field) (i : Interval) : Prop where
  lower : f.Takes i.lower
  upper : f.Takes i.upper
  spelt : i.closed = true → f.Spells i.lower ∧ f.Spells i.upper ∧ ',' ∉ i.upper.bare.toList

/-- A test that suits the field. -/
def Accepts (f : Field) : Test → Prop
  | .compare op v => (v = .null ∧ (op = .eq ∨ op = .notEq)) ∨ f.Takes v
  | .pattern _ s => s ≠ ""
  | .oneOf vs => vs ≠ [] ∧ ∀ v ∈ vs, f.Takes v
  | .range i => f.Bounds i ∧ i.lower.order? i.upper ≠ some .gt

variable {f : Field} {tag : String}

/-! ### Single values -/

theorem readValue_eq_ok {operand : Json} {v : Literal} (h : f.readValue tag operand = .ok v) :
    ∃ l, Literal.ofJson? operand = some l ∧ f.type.coerce l = .ok v := by
  rw [readValue] at h
  split at h
  · simp at h
  · rename_i l hl
    split at h
    · rename_i w hw
      obtain rfl := Except.ok.inj h
      exact ⟨l, hl, hw⟩
    · simp at h

theorem readValue_toJson {v : Literal} (hv : f.type.holds v = true) (hfin : v.isFinite = true) :
    f.readValue tag v.toJson = .ok v := by
  simp only [readValue, Literal.ofJson?_toJson hfin, FieldType.coerce_of_holds hv]

theorem readPresent_eq_ok_iff {operand : Json} {v : Literal} :
    f.readPresent tag operand = .ok v ↔ f.readValue tag operand = .ok v ∧ v ≠ .null := by
  rw [readPresent, bind_eq_ok_iff]
  constructor
  · rintro ⟨w, hw, h⟩
    split at h
    · simp at h
    · rename_i hnull
      obtain rfl := Except.ok.inj h
      exact ⟨hw, fun hv => hnull (Literal.isNull_iff.mpr hv)⟩
  · rintro ⟨hv, hnull⟩
    exact ⟨v, hv, if_neg fun h => hnull (Literal.isNull_iff.mp h)⟩

/-- A text is a value for a field exactly if it fits the field's type. -/
theorem readPresent_string_eq_ok_iff {s : String} {v : Literal} :
    f.readPresent tag (.string s) = .ok v ↔ f.type.coerce (.text s) = .ok v := by
  rw [readPresent_eq_ok_iff]
  constructor
  · rintro ⟨hv, -⟩
    obtain ⟨l, hl, hcoerce⟩ := readValue_eq_ok hv
    obtain rfl := Option.some.inj hl
    exact hcoerce
  · intro h
    refine ⟨?_, FieldType.ne_null_of_coerce_text h⟩
    simp only [readValue, Literal.ofJson?, h]

theorem takes_of_readPresent {operand : Json} {v : Literal} (hw : operand.isWellFormed = true)
    (h : f.readPresent tag operand = .ok v) : f.Takes v := by
  obtain ⟨hv, hnull⟩ := readPresent_eq_ok_iff.mp h
  obtain ⟨l, hl, hcoerce⟩ := readValue_eq_ok hv
  have hfin := Literal.isFinite_of_ofJson? hw hl
  exact ⟨FieldType.holds_of_coerce hcoerce, FieldType.isFinite_of_coerce hfin hcoerce, hnull⟩

theorem readPresent_toJson {v : Literal} (h : f.Takes v) : f.readPresent tag v.toJson = .ok v :=
  readPresent_eq_ok_iff.mpr ⟨readValue_toJson h.holds h.finite, h.present⟩

/-! ### Comparisons -/

theorem accepts_of_readCompared {op : Comparison} {operand : Json} {v : Literal}
    (hw : operand.isWellFormed = true) (h : f.readCompared tag op operand = .ok v) :
    f.Accepts (.compare op v) := by
  rw [readCompared] at h
  split at h
  · rename_i hop
    cases hnull : v.isNull with
    | true => exact Or.inl ⟨Literal.isNull_iff.mp hnull, hop⟩
    | false =>
      exact Or.inr (takes_of_readPresent hw
        (readPresent_eq_ok_iff.mpr ⟨h, Literal.isNull_eq_false_iff.mp hnull⟩))
  · exact Or.inr (takes_of_readPresent hw h)

theorem readCompared_toJson {op : Comparison} {v : Literal} (h : f.Accepts (.compare op v)) :
    f.readCompared tag op v.toJson = .ok v := by
  rw [readCompared]
  rcases h with ⟨rfl, hop⟩ | h
  · rw [if_pos hop]
    exact readValue_toJson (by cases f.type <;> rfl) rfl
  · split
    · exact readValue_toJson h.holds h.finite
    · exact readPresent_toJson h

/-! ### Patterns -/

theorem ne_empty_of_readPattern {operand : Json} {s : String}
    (h : f.readPattern tag operand = .ok s) : s ≠ "" := by
  obtain ⟨v, -, h⟩ := bind_eq_ok_iff.mp h
  split at h
  · rename_i t _
    split at h
    · simp at h
    · rename_i hempty
      obtain rfl := Except.ok.inj h
      rintro rfl
      exact hempty rfl
  · simp at h

theorem readPattern_string {s : String} (htype : f.type = .text) (hs : s ≠ "") :
    f.readPattern tag (.string s) = .ok s := by
  have htakes : f.Takes (.text s) := ⟨by rw [htype]; rfl, rfl, by simp⟩
  have hpresent : f.readPresent tag (.string s) = .ok (.text s) := readPresent_toJson htakes
  have hempty : s.isEmpty = false := by simpa using hs
  rw [readPattern, hpresent]
  simp only [bind, Except.bind, FieldType.coerce, hempty]
  rfl

/-! ### Lists -/

theorem accepts_of_readChoices {operand : Json} {vs : List Literal}
    (hw : operand.isWellFormed = true) (h : f.readChoices tag operand = .ok vs) :
    f.Accepts (.oneOf vs) := by
  rw [readChoices.eq_def] at h
  split at h
  · simp at h
  · rename_i items hitems
    have hlen := length_of_mapM h
    refine ⟨?_, fun v hv => ?_⟩
    · rintro rfl
      exact hitems (List.length_eq_zero_iff.mp hlen.symm)
    · obtain ⟨item, hitem, hread⟩ := exists_of_mem_mapM h hv
      exact takes_of_readPresent (Json.isWellFormed_array.mp hw item hitem) hread
  · simp at h

theorem readChoices_toItems {vs : List Literal} (h : f.Accepts (.oneOf vs)) :
    f.readChoices tag (.array (Literal.toItems vs)) = .ok vs := by
  obtain ⟨hne, htakes⟩ := h
  obtain ⟨v, rest, rfl⟩ := List.exists_cons_of_ne_nil hne
  -- That the list is not empty matters for the reader's first step only, so the induction drops it.
  have hread : ∀ (vs : List Literal), (∀ v ∈ vs, f.Takes v) →
      (Literal.toItems vs).mapM (f.readPresent tag) = .ok vs := by
    intro vs
    induction vs with
    | nil => exact fun _ => rfl
    | cons v vs ih =>
      intro hvs
      obtain ⟨hv, hvs⟩ := List.forall_mem_cons.mp hvs
      exact mapM_cons_eq_ok_iff.mpr ⟨v, vs, readPresent_toJson hv, ih hvs, rfl⟩
  exact hread (v :: rest) htakes

/-! ### Ranges -/

section Range

variable {interval : String} {side : Side}

/-- A text is a bound exactly if it is not empty and fits the field's type. -/
theorem readBound_eq_ok_iff {bound : List Char} {v : Literal} :
    f.readBound tag interval side bound = .ok v
      ↔ bound ≠ [] ∧ f.type.coerce (.text (String.ofList bound)) = .ok v := by
  have htext : f.readPresent tag (.string (String.ofList bound)) = .ok v
      ↔ f.type.coerce (.text (String.ofList bound)) = .ok v := readPresent_string_eq_ok_iff
  rw [readBound, ← htext]
  by_cases hnil : bound = []
  · simp [hnil]
  · rw [if_neg hnil]
    cases f.readPresent tag (.string (String.ofList bound)) <;> simp [hnil]

theorem error_of_readBound {bound : List Char} {e : QueryError}
    (h : f.readBound tag interval side bound = .error e) : ∃ fault, e = .range f.name fault := by
  rw [readBound] at h
  split at h
  · exact ⟨_, (Except.error.inj h).symm⟩
  · split at h
    · simp at h
    · exact ⟨_, (Except.error.inj h).symm⟩

/-- Whatever is wrong with a text that is given for an interval is reported as a fault of the range. -/
theorem error_of_readInterval {operand : Json} {e : QueryError}
    (h : f.readInterval tag operand = .error e) : ∃ fault, e = .range f.name fault := by
  rw [readInterval.eq_def] at h
  split at h
  · split at h
    · exact ⟨_, (Except.error.inj h).symm⟩
    · rcases bind_eq_error_iff.mp h with h | ⟨lower, -, h⟩
      · exact error_of_readBound h
      · rcases bind_eq_error_iff.mp h with h | ⟨upper, -, h⟩
        · exact error_of_readBound h
        · simp [pure, Except.pure] at h
  · exact ⟨_, (Except.error.inj h).symm⟩

/-- A bound that was read from a text spells itself in a text of the same sort. -/
theorem spells_of_readBound {bound : List Char} {v : Literal} (htype : f.type ≠ .boolean)
    (htrim : Text.trimChars bound = bound) (hline : '\n' ∉ bound)
    (h : f.readBound tag interval side bound = .ok v) :
    f.Takes v ∧ f.Spells v ∧ (',' ∉ bound → ',' ∉ v.bare.toList) := by
  obtain ⟨hnil, hcoerce⟩ := readBound_eq_ok_iff.mp h
  have hread : f.readPresent tag (.string (String.ofList bound)) = .ok v :=
    readPresent_string_eq_ok_iff.mpr hcoerce
  obtain ⟨hbare, hspelt⟩ := FieldType.coerce_bare htype hcoerce
  rw [String.toList_ofList] at hspelt
  refine ⟨takes_of_readPresent rfl hread, ?_⟩
  -- Texts are kept as they are; numbers are spelt anew, in characters of numbers only.
  rcases hspelt with hsame | ⟨hne, hchars⟩
  · rw [← hsame] at hnil htrim hline
    exact ⟨⟨hnil, htrim, hline, hbare⟩, fun hcomma => hsame ▸ hcomma⟩
  · have hnone : ∀ c, Json.isNumberChar c = false → c ∉ v.bare.toList := fun c hc hmem => by
      rw [hchars c hmem] at hc
      exact Bool.false_ne_true hc.symm
    exact ⟨⟨hne, FieldType.trimChars_of_isNumberChar hchars, hnone _ rfl, hbare⟩,
      fun _ => hnone _ rfl⟩

theorem readBound_bare {v : Literal} (hspells : f.Spells v) :
    f.readBound tag interval side v.bare.toList = .ok v := by
  refine readBound_eq_ok_iff.mpr ⟨hspells.ne_nil, ?_⟩
  rw [String.ofList_toList]
  exact hspells.coerce

theorem bounds_of_readInterval {operand : Json} {i : Interval} (htype : f.type ≠ .boolean)
    (h : f.readInterval tag operand = .ok i) : f.Bounds i := by
  rw [readInterval.eq_def] at h
  split at h
  · split at h
    · simp at h
    · rename_i parts hparts
      obtain ⟨⟨hltrim, hlline⟩, ⟨hutrim, huline⟩, hcomma⟩ := IntervalText.bounds_of_ofChars? hparts
      obtain ⟨lower, hlower, h⟩ := bind_eq_ok_iff.mp h
      obtain ⟨upper, hupper, h⟩ := bind_eq_ok_iff.mp h
      obtain rfl := pure_eq_ok_iff.mp h
      obtain ⟨hltakes, hlspells, -⟩ := spells_of_readBound htype hltrim hlline hlower
      obtain ⟨hutakes, huspells, hbare⟩ := spells_of_readBound htype hutrim huline hupper
      exact ⟨hltakes, hutakes, fun _ => ⟨hlspells, huspells, hbare hcomma⟩⟩
  · simp at h

theorem bounds_of_readForms {members : Json.Members} {i : Interval} (htype : f.type ≠ .boolean)
    (hw : (Json.object members).isWellFormed = true) (h : f.readForms tag members = .ok i) :
    f.Bounds i := by
  rw [readForms] at h
  split at h
  · simp at h
  · exact bounds_of_readInterval htype h
  · rename_i lower upper hfrom hto _
    obtain ⟨a, ha, h⟩ := bind_eq_ok_iff.mp h
    obtain ⟨b, hb, h⟩ := bind_eq_ok_iff.mp h
    obtain rfl := pure_eq_ok_iff.mp h
    exact ⟨takes_of_readPresent (Json.isWellFormed_of_memberOf? hw hfrom) ha,
      takes_of_readPresent (Json.isWellFormed_of_memberOf? hw hto) hb,
      fun hclosed => absurd hclosed Bool.false_ne_true⟩
  · simp at h
  · simp at h

theorem accepts_of_readRange {operand : Json} {i : Interval} (htype : f.type ≠ .boolean)
    (hw : operand.isWellFormed = true) (h : f.readRange tag operand = .ok i) :
    f.Accepts (.range i) := by
  rw [readRange.eq_def] at h
  split at h
  · split at h
    · simp at h
    · obtain ⟨interval, hforms, h⟩ := bind_eq_ok_iff.mp h
      split at h
      · simp at h
      · rename_i horder
        obtain rfl := pure_eq_ok_iff.mp h
        exact ⟨bounds_of_readForms htype hw hforms, horder⟩
  · simp at h

theorem toList_intervalText (a b : String) :
    (s!"[{a},{b}]").toList
      = IntervalText.enclosed a.toList b.toList (IntervalText.bracket true) := by
  simp [toString, IntervalText.enclosed, IntervalText.bracket]

theorem readForms_operand {i : Interval} (h : f.Bounds i) {members : Json.Members}
    (hm : (Test.range i).operand = .object members) : f.readForms tag members = .ok i := by
  obtain ⟨lower, upper, closed⟩ := i
  cases closed with
  | true =>
    obtain rfl := Json.object.inj hm
    obtain ⟨hlower, hupper, hcomma⟩ := h.spelt rfl
    show f.readInterval tag (.string s!"[{lower.bare},{upper.bare}]") = _
    rw [readInterval, toList_intervalText, IntervalText.trimChars_enclosed,
      IntervalText.ofChars?_enclosed hlower.trimmed hupper.trimmed hcomma hlower.oneLine
        hupper.oneLine]
    simp only [readBound_bare hlower, readBound_bare hupper]
    rfl
  | false =>
    obtain rfl := Json.object.inj hm
    refine bind_eq_ok_iff.mpr ⟨lower, readPresent_toJson h.lower, ?_⟩
    exact bind_eq_ok_iff.mpr ⟨upper, readPresent_toJson h.upper, rfl⟩

theorem readRange_operand {i : Interval} (h : f.Accepts (.range i)) :
    f.readRange tag (Test.range i).operand = .ok i := by
  obtain ⟨hbounds, horder⟩ := h
  have hmembers : ∃ members, (Test.range i).operand = .object members
      ∧ members.find? (fun p => !isRangeKey p.1) = none := by
    rw [Test.operand]
    split
    · exact ⟨_, rfl, rfl⟩
    · exact ⟨_, rfl, rfl⟩
  obtain ⟨members, hoperand, hkeys⟩ := hmembers
  rw [hoperand, readRange, hkeys, readForms_operand hbounds hoperand]
  exact if_neg horder

end Range

end Field

/-! ### Tests -/

theorem Test.operator_of_read {f : Field} {tag : String} {op : Operator} {operand : Json} {t : Test}
    (h : Test.read f tag op operand = .ok t) : t.operator = op := by
  cases op <;>
    · obtain ⟨v, -, rfl⟩ := map_eq_ok_iff.mp h
      rfl

/-- A test that was read from a well-formed operand suits its field.  Ranges over truth values are left
out: no type has them. -/
theorem Field.accepts_of_read {f : Field} {tag : String} {op : Operator} {operand : Json} {t : Test}
    (hop : op ∈ f.type.operators) (hw : operand.isWellFormed = true)
    (h : Test.read f tag op operand = .ok t) : f.Accepts t := by
  cases op with
  | comparison op =>
    obtain ⟨v, hv, rfl⟩ := map_eq_ok_iff.mp h
    exact accepts_of_readCompared hw hv
  | pattern kind =>
    obtain ⟨s, hs, rfl⟩ := map_eq_ok_iff.mp h
    exact ne_empty_of_readPattern hs
  | oneOf =>
    obtain ⟨vs, hvs, rfl⟩ := map_eq_ok_iff.mp h
    exact accepts_of_readChoices hw hvs
  | range =>
    obtain ⟨i, hi, rfl⟩ := map_eq_ok_iff.mp h
    exact accepts_of_readRange (FieldType.ne_boolean_of_range_mem hop) hw hi

/-- A test that suits its field is read back from its operand, under any tag. -/
theorem Test.read_operand {f : Field} {tag : String} {t : Test}
    (hop : t.operator ∈ f.type.operators) (h : f.Accepts t) :
    Test.read f tag t.operator t.operand = .ok t := by
  cases t with
  | compare op v => exact map_eq_ok_iff.mpr ⟨v, Field.readCompared_toJson h, rfl⟩
  | pattern kind s =>
    have htype := FieldType.eq_text_of_pattern_mem hop
    exact map_eq_ok_iff.mpr ⟨s, Field.readPattern_string htype h, rfl⟩
  | oneOf vs => exact map_eq_ok_iff.mpr ⟨vs, Field.readChoices_toItems h, rfl⟩
  | range i => exact map_eq_ok_iff.mpr ⟨i, Field.readRange_operand h, rfl⟩

end ListQuery
