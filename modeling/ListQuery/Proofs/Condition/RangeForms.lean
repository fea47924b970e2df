/-
The two ways to write a range.

A filter gives a range by its two bounds or by the text of an interval, and in the text each bound is a
text itself.  So a bound that is an integer is fitted to the field's type in one form, and its decimal
text in the other.  Wherever the bounds are accepted the interval is accepted too; the conditions are the
same for texts and for integers on most fields, but not where the type keeps an integer as it is and
reads its text as a rounded number.

* `RangeBound.Exact` — the bounds that both forms read alike;
* `exists_readPresent_spelling` — a bound that is accepted is also accepted as a text;
* `read_intervalFilter` — the condition of the interval, and when it is that of the bounds.

Design notes: a range is refused where its bounds are numbers out of order, and rounding might have put
them out of order; `order?_ofInt` says that it does not.
-/
import ListQuery.Predicate.Compile
import ListQuery.Proofs.Condition.Sound
import ListQuery.Proofs.Numeric.RoundingOrder

namespace ListQuery

open Numeric

/-! ### Bounds -/

/-- A bound of a range as a filter may give it. -/
inductive RangeBound where
  | integer (n : Int)
  | text (s : String)

namespace RangeBound

/-- The bound on its own. -/
def toJson : RangeBound → Json
  | .integer n => .integer n
  | .text s => .string s

/-- The bound in the text of an interval. -/
def spelling : RangeBound → String
  | .integer n => String.ofList (Text.signed n)
  | .text s => s

/-- A bound that can stand in the text of an interval: an integer that JSON can hold in 64 bits, or a
text in one line, not empty and without blanks around it. -/
def Plain : RangeBound → Prop
  | .integer n => (Json.integer n).isWellFormed = true
  | .text s => s ≠ "" ∧ Text.trimChars s.toList = s.toList ∧ '\n' ∉ s.toList

instance : (b : RangeBound) → Decidable b.Plain
  | .integer _ => inferInstanceAs (Decidable (_ = true))
  | .text _ => inferInstanceAs (Decidable (_ ∧ _ ∧ _))

/-- Whether a type makes one value of the bound and of its text.  A field of binary64 numbers keeps an
integer of 64 bits and rounds its text; a field of texts rounds an integer past 64 bits and keeps its
text. -/
def Exact : FieldType → RangeBound → Prop
  | .float, .integer n => int64? n = none
  | .text, .integer n => (Literal.ofInt n).inline = String.ofList (Text.signed n)
  | _, _ => True

instance : (type : FieldType) → (b : RangeBound) → Decidable (b.Exact type)
  | .float, .integer n => inferInstanceAs (Decidable (int64? n = none))
  | .text, .integer n =>
    inferInstanceAs (Decidable ((Literal.ofInt n).inline = String.ofList (Text.signed n)))
  | .integer, .integer _ | .boolean, .integer _ | .timestamp, .integer _ | .uuid, .integer _
  | .text, .text _ | .integer, .text _ | .float, .text _ | .boolean, .text _ | .timestamp, .text _
  | .uuid, .text _ => .isTrue trivial

theorem natAbs_lt_of_plain {n : Int} (h : (integer n).Plain) : n.natAbs < 2 ^ 64 := by
  have hrange := of_decide_eq_true h
  have hmin : Int64.minValue.toInt = -2 ^ 63 := by decide
  have hsize : ((UInt64.size : Nat) : Int) = 2 ^ 64 := by decide
  omega

theorem spelling_of_plain {b : RangeBound} (h : b.Plain) :
    b.spelling.toList ≠ [] ∧ Text.trimChars b.spelling.toList = b.spelling.toList
      ∧ '\n' ∉ b.spelling.toList := by
  cases b with
  | integer n =>
    have hfeed : '\n' ∉ Text.signed n := fun hmem =>
      absurd (isBlank_of_mem_signed hmem) (by decide)
    rw [spelling, String.toList_ofList]
    exact ⟨FieldType.signed_ne_nil n, trimChars_signed n, hfeed⟩
  | text s =>
    obtain ⟨hne, htrim, hline⟩ := h
    exact ⟨fun hnil => hne (String.toList_eq_nil_iff.mp hnil), htrim, hline⟩

end RangeBound

/-- How a bound that is read from a text may differ from the bound itself. -/
inductive Literal.Reread : Literal → Literal → Prop where
  | same (v : Literal) : Reread v v
  | rounded (i : Int64) : Reread (.int i) (.float (.ofInt i.toInt))
  | text (s t : String) : Reread (.text s) (.text t)

theorem natAbs_toInt_lt (i : Int64) : i.toInt.natAbs < 2 ^ 64 := by
  have hlow := Int64.minValue_le_toInt i
  have hhigh := Int64.toInt_le i
  have hmin : Int64.minValue.toInt = -2 ^ 63 := by decide
  have hmax : Int64.maxValue.toInt = 2 ^ 63 - 1 := by decide
  omega

theorem order?_rounded {i j : Int64} (h : (Literal.int i).order? (.int j) ≠ some .gt) :
    (Binary64.ofInt i.toInt).order? (.ofInt j.toInt) ≠ some .gt := by
  have hle : i.toInt ≤ j.toInt := by
    rw [Literal.order?, ne_eq, Option.some.injEq, Int.compare_eq_gt] at h
    omega
  exact Binary64.order?_ofInt (natAbs_toInt_lt i) (natAbs_toInt_lt j) hle

/-- Bounds that are in order are still so when they are read from texts. -/
theorem Literal.Reread.order? {v v' w w' : Literal} (hv : Reread v v') (hw : Reread w w')
    (h : v.order? w ≠ some .gt) : v'.order? w' ≠ some .gt := by
  -- Only integers become other numbers, and next to a number they were rounded to compare anyway.
  cases hv with
  | same =>
    cases hw with
    | same => exact h
    | rounded j =>
      cases v with
      | int i => exact order?_rounded h
      | float x => exact h
      | null | bool | text | list => simp [Literal.order?]
    | text s t => cases v <;> simp [Literal.order?]
  | rounded i =>
    cases hw with
    | same =>
      cases w with
      | int j => exact order?_rounded h
      | float x => exact h
      | null | bool | text | list => simp [Literal.order?]
    | rounded j => exact order?_rounded h
    | text s t => simp [Literal.order?]
  | text s t => cases w' <;> simp [Literal.order?]

/-! ### Bounds as texts -/

/-- The text of an integer fits every type that the integer fits. -/
theorem exists_coerce_signed {type : FieldType} {n : Int} (h : (RangeBound.integer n).Plain)
    {v : Literal} (hv : type.coerce (.ofInt n) = .ok v) :
    ∃ v', type.coerce (.text (String.ofList (Text.signed n))) = .ok v' ∧ v.Reread v'
      ∧ (v' = v ↔ (RangeBound.integer n).Exact type) := by
  have hlt := RangeBound.natAbs_lt_of_plain h
  have htrim : Text.trimChars (String.ofList (Text.signed n)).toList = Text.signed n := by
    rw [String.toList_ofList, trimChars_signed]
  cases type with
  | integer =>
    cases hn : int64? n with
    | none => simp [Literal.ofInt, hn, FieldType.coerce] at hv
    | some i =>
      simp only [Literal.ofInt, hn, FieldType.coerce] at hv
      obtain rfl := Except.ok.inj hv
      refine ⟨.int i, ?_, .same _, by simp [RangeBound.Exact]⟩
      simp only [FieldType.coerce, htrim, integer?_signed, hn]
  | float =>
    obtain ⟨x, hx⟩ := Binary64.exists_ofInt_eq_finite hlt
    have hread : FieldType.float.coerce (.text (String.ofList (Text.signed n)))
        = .ok (.float (.ofInt n)) := by
      simp only [FieldType.coerce, htrim, float?_signed hlt, hx]
    refine ⟨.float (.ofInt n), hread, ?_⟩
    cases hn : int64? n with
    | none =>
      simp only [Literal.ofInt, hn, FieldType.coerce] at hv
      obtain rfl := Except.ok.inj hv
      exact ⟨.same _, iff_of_true rfl hn⟩
    | some i =>
      simp only [Literal.ofInt, hn, FieldType.coerce] at hv
      obtain rfl := Except.ok.inj hv
      rw [← toInt_of_int64? hn]
      exact ⟨.rounded i, by simp [RangeBound.Exact, int64?_toInt]⟩
  | text =>
    have hinline : v = .text (Literal.ofInt n).inline := by
      cases hn : int64? n with
      | none | some => 
        simp only [Literal.ofInt, hn, FieldType.coerce] at hv ⊢
        exact (Except.ok.inj hv).symm
    rw [hinline]
    exact ⟨.text (String.ofList (Text.signed n)), rfl, .text _ _,
      by simp [RangeBound.Exact, eq_comm]⟩
  | boolean | timestamp | uuid =>
    cases hn : int64? n <;> simp [Literal.ofInt, hn, FieldType.coerce] at hv

namespace Field

variable {f : Field} {tag : String}

/-- A bound that is accepted is accepted as a text too. -/
theorem exists_readPresent_spelling {b : RangeBound} (hb : b.Plain) {v : Literal}
    (h : f.readPresent tag b.toJson = .ok v) :
    ∃ v', f.readPresent tag (.string b.spelling) = .ok v' ∧ v.Reread v'
      ∧ (v' = v ↔ b.Exact f.type) := by
  cases b with
  | integer n =>
    obtain ⟨hvalue, -⟩ := readPresent_eq_ok_iff.mp h
    obtain ⟨l, hl, hcoerce⟩ := readValue_eq_ok hvalue
    obtain rfl := Option.some.inj hl
    obtain ⟨v', hv', hreread, hexact⟩ := exists_coerce_signed hb hcoerce
    exact ⟨v', readPresent_string_eq_ok_iff.mpr hv', hreread, hexact⟩
  | text s =>
    have hexact : (RangeBound.text s).Exact f.type := by
      cases f.type <;> trivial
    exact ⟨v, h, .same v, iff_of_true rfl hexact⟩

/-- The two bounds of a range in one filter. -/
def boundsOperand (a b : RangeBound) : Json :=
  .object [("from", a.toJson), ("to", b.toJson)]

/-- The text of the half-open interval with two bounds. -/
def intervalOperand (a b : RangeBound) : Json :=
  .object [("interval", .string s!"[{a.spelling},{b.spelling})")]

/-- A range of two bounds is refused for a bound that is no value, or if the values compare as out of
order. -/
theorem readRange_bounds (f : Field) (tag : String) (a b : Json) :
    f.readRange tag (.object [("from", a), ("to", b)])
      = f.readPresent tag a >>= fun v => f.readPresent tag b >>= fun w =>
          if v.order? w = some .gt then .error (.range f.name .inverted) else .ok ⟨v, w, false⟩ := by
  have hforms : f.readForms tag [("from", a), ("to", b)]
      = f.readPresent tag a >>= fun v => f.readPresent tag b >>= fun w => .ok ⟨v, w, false⟩ := rfl
  have hkeys : List.find? (fun p => !isRangeKey p.1) [("from", a), ("to", b)] = none := rfl
  rw [readRange, hkeys, hforms]
  simp only [bind_assoc]
  rfl

theorem readRange_bounds_eq_ok_iff {a b : RangeBound} {i : Interval} :
    f.readRange tag (boundsOperand a b) = .ok i
      ↔ ∃ v w, f.readPresent tag a.toJson = .ok v ∧ f.readPresent tag b.toJson = .ok w
          ∧ v.order? w ≠ some .gt ∧ i = ⟨v, w, false⟩ := by
  rw [boundsOperand, readRange_bounds, bind_eq_ok_iff]
  constructor
  · rintro ⟨v, hv, h⟩
    obtain ⟨w, hw, h⟩ := bind_eq_ok_iff.mp h
    split at h
    · simp at h
    · rename_i horder
      exact ⟨v, w, hv, hw, horder, (Except.ok.inj h).symm⟩
  · rintro ⟨v, w, hv, hw, horder, rfl⟩
    exact ⟨v, hv, bind_eq_ok_iff.mpr ⟨w, hw, if_neg horder⟩⟩

/-- Where the two bounds are accepted as texts, the interval that they stand in is accepted. -/
theorem readRange_interval {a b : RangeBound} (ha : a.Plain) (hb : b.Plain)
    (hcomma : ',' ∉ b.spelling.toList) {v w : Literal}
    (hv : f.readPresent tag (.string a.spelling) = .ok v)
    (hw : f.readPresent tag (.string b.spelling) = .ok w) (horder : v.order? w ≠ some .gt) :
    f.readRange tag (intervalOperand a b) = .ok ⟨v, w, false⟩ := by
  obtain ⟨hane, hatrim, haline⟩ := RangeBound.spelling_of_plain ha
  obtain ⟨hbne, hbtrim, hbline⟩ := RangeBound.spelling_of_plain hb
  have htext : (s!"[{a.spelling},{b.spelling})").toList
      = IntervalText.enclosed a.spelling.toList b.spelling.toList (IntervalText.bracket false) := by
    simp [toString, IntervalText.enclosed, IntervalText.bracket]
  have hlower : ∀ s, f.readBound tag s .lower a.spelling.toList = .ok v := fun s =>
    readBound_eq_ok_iff.mpr ⟨hane, by rwa [String.ofList_toList, ← readPresent_string_eq_ok_iff]⟩
  have hupper : ∀ s, f.readBound tag s .upper b.spelling.toList = .ok w := fun s =>
    readBound_eq_ok_iff.mpr ⟨hbne, by rwa [String.ofList_toList, ← readPresent_string_eq_ok_iff]⟩
  have hinterval : f.readInterval tag (.string s!"[{a.spelling},{b.spelling})")
      = .ok ⟨v, w, false⟩ := by
    rw [readInterval, htext, IntervalText.trimChars_enclosed,
      IntervalText.ofChars?_enclosed hatrim hbtrim hcomma haline hbline]
    simp only [hlower, hupper]
    rfl
  exact bind_eq_ok_iff.mpr ⟨_, hinterval, if_neg horder⟩

end Field

/-! ### Filters -/

namespace Condition

variable {r : Registry} {name : String} {f : Field}

/-- The filter of a range on a field. -/
def rangeFilter (name : String) (operand : Json) : Json :=
  .object [(name, .object [("range", operand)])]

/-- A range on a field that allows ranges is read as one leaf. -/
theorem readField_range (hf : r.filterable? name = some f) (hallows : f.allows .range = true)
    (operand : Json) :
    readField r name (.object [("range", operand)])
      = (f.readRange "range" operand).map fun i => [.leaf name (.range i)] := by
  have hresolve : Operator.resolve? "range" = some (.range, false) := by decide
  rw [readField, Registry.filterField_eq_ok_iff.mpr hf]
  simp only [bind, Except.bind, List.mapM_cons, List.mapM_nil, readOperation_of_resolve? f _ hresolve,
    hallows, if_true, Test.read, Registry.name_of_filterable? hf]
  cases f.readRange "range" operand <;> rfl

theorem read_rangeFilter (hkey : Combinator.ofKey? name = none) (hf : r.filterable? name = some f)
    (hallows : f.allows .range = true) (operand : Json) :
    read r (rangeFilter name operand)
      = (f.readRange "range" operand).map fun i => .leaf name (.range i) := by
  rw [rangeFilter, read, readMembers_cons, readMember, hkey]
  simp only [readField_range hf hallows]
  cases f.readRange "range" operand <;> rfl

/-- A filter of two bounds is accepted only of a field that allows ranges; named like a combinator, its
operand would be taken for a filter, in which `from` is no operator. -/
theorem allows_of_read_bounds (hf : r.filterable? name = some f) {a b : RangeBound} {c : Condition}
    (h : read r (rangeFilter name (Field.boundsOperand a b)) = .ok c) :
    Combinator.ofKey? name = none ∧ f.allows .range = true := by
  obtain ⟨cs, hcs, -⟩ := bind_eq_ok_iff.mp h
  rw [readMembers_cons] at hcs
  obtain ⟨here, hhere, -⟩ := bind_eq_ok_iff.mp hcs
  cases hkey : Combinator.ofKey? name with
  | some kind =>
    rw [readMember, hkey] at hhere
    obtain ⟨children, hchildren, -⟩ := bind_eq_ok_iff.mp hhere
    obtain ⟨⟨⟩, -, hchildren⟩ := bind_eq_ok_iff.mp hchildren
    rw [readMembers_cons] at hchildren
    obtain ⟨inner, hinner, -⟩ := bind_eq_ok_iff.mp hchildren
    obtain ⟨g, -, hoperations⟩ := bind_eq_ok_iff.mp hinner
    obtain ⟨d, rest, hfrom, -⟩ := mapM_cons_eq_ok_iff.mp hoperations
    have hresolve : Operator.resolve? "from" = none := by decide
    simp [readOperation, hresolve] at hfrom
  | none =>
    rw [readMember, hkey] at hhere
    obtain ⟨g, hg, hoperations⟩ := bind_eq_ok_iff.mp hhere
    obtain rfl := Except.ok.inj ((Registry.filterField_eq_ok_iff.mpr hf).symm.trans hg)
    obtain ⟨d, rest, hrange, -⟩ := mapM_cons_eq_ok_iff.mp hoperations
    have hresolve : Operator.resolve? "range" = some (.range, false) := by decide
    refine ⟨rfl, ?_⟩
    cases hallows : f.allows .range with
    | true => rfl
    | false => simp [readOperation, hresolve, hallows] at hrange

theorem compile_range {t : TableRef} (ht : t.registry = r) (hf : r.filterable? name = some f)
    (hallows : f.allows .range = true) (i : Interval) :
    compile t (.leaf name (.range i))
      = .ok (.range (t.column f) i.lower i.upper i.closed) := by
  have hcolumn : t.columnFor name .range = .ok (t.column f) := by
    rw [TableRef.columnFor, ht, Registry.filterField_eq_ok_iff.mpr hf]
    exact if_pos hallows
  exact bind_eq_ok_iff.mpr ⟨t.column f, hcolumn, rfl⟩

/-- Where a field accepts a range by its bounds, it accepts the range as an interval.  The two
conditions are equal, and so are their predicates on every table, exactly if both bounds are ones that
the field's type makes the same value of as of their texts. -/
theorem read_intervalFilter (hf : r.filterable? name = some f) {a b : RangeBound} (ha : a.Plain)
    (hb : b.Plain) (hcomma : ',' ∉ b.spelling.toList) {c : Condition}
    (h : read r (rangeFilter name (Field.boundsOperand a b)) = .ok c) :
    ∃ c', read r (rangeFilter name (Field.intervalOperand a b)) = .ok c'
      ∧ (c' = c ↔ a.Exact f.type ∧ b.Exact f.type)
      ∧ ∀ t : TableRef, t.registry = r →
          (c'.compile t = c.compile t ↔ a.Exact f.type ∧ b.Exact f.type) := by
  obtain ⟨hkey, hallows⟩ := allows_of_read_bounds hf h
  rw [read_rangeFilter hkey hf hallows] at h
  obtain ⟨i, hi, rfl⟩ := map_eq_ok_iff.mp h
  obtain ⟨v, w, hv, hw, horder, rfl⟩ := Field.readRange_bounds_eq_ok_iff.mp hi
  obtain ⟨v', hv', hvreread, hvexact⟩ := Field.exists_readPresent_spelling ha hv
  obtain ⟨w', hw', hwreread, hwexact⟩ := Field.exists_readPresent_spelling hb hw
  have hinterval := Field.readRange_interval ha hb hcomma hv' hw' (hvreread.order? hwreread horder)
  refine ⟨.leaf name (.range ⟨v', w', false⟩), ?_, ?_, fun t ht => ?_⟩
  · rw [read_rangeFilter hkey hf hallows, hinterval]
    rfl
  · simp [hvexact, hwexact]
  · rw [compile_range ht hf hallows, compile_range ht hf hallows]
    simp [hvexact, hwexact]

theorem read_intervalFilter_rounded :
    let weight : Field := { Field.ofType "weight" .float with sortable := true }
    let r : Registry := ⟨"parts", "parts", none, [weight], Registry.usualMaxItems,
      Registry.usualItems, weight, .asc⟩
    let bounds := rangeFilter "weight" (.object [("from", .integer 9007199254740993),
      ("to", .integer 9007199254740995)])
    let interval := rangeFilter "weight"
      (.object [("interval", .string "[9007199254740993,9007199254740995)")])
    ∃ c c', read r bounds = .ok c ∧ read r interval = .ok c' ∧ c' ≠ c
      ∧ c'.compile (.ofRegistry r) ≠ c.compile (.ofRegistry r) := by
  intro weight r bounds interval
  obtain ⟨c, hc⟩ : ∃ c, read r bounds = .ok c := ⟨_, rfl⟩
  have hf : r.filterable? "weight" = some weight := rfl
  have hcomma : ',' ∉ (RangeBound.integer 9007199254740995).spelling.toList := by decide
  obtain ⟨c', hc', hsame, hpredicate⟩ := read_intervalFilter hf
    (a := .integer 9007199254740993) (b := .integer 9007199254740995) (by decide) (by decide)
    hcomma hc
  -- The number is one of 64 bits, so the field keeps it as it is, and rounds its text.
  have hexact : ¬(RangeBound.integer 9007199254740993).Exact .float := by decide
  exact ⟨c, c', hc, hc', fun h => hexact (hsame.mp h).1,
    fun h => hexact ((hpredicate _ rfl).mp h).1⟩

end Condition

end ListQuery
