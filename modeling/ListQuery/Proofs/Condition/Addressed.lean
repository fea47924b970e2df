/-
Fields that filters can ask about.

The keys of a filter name fields, and three of them combinators.  A field that is named like a combinator
can be registered, but no filter reaches it: its key is read as the combinator.  Any other field that
filters may use is reached, with every operator that it allows.

* `Combinator.ofKey?_eq_none_iff` — the keys that are no combinators;
* `Test.sample` — a test of each operator that suits fields of a type;
* `exists_filter_iff` — there is a filter that is read as a leaf on a field, with a given operator, exactly
  if the field is not named like a combinator.
-/
import ListQuery.Proofs.Condition.EchoReadsBack
import ListQuery.Proofs.Condition.WellTyped

namespace ListQuery

theorem Combinator.ofKey?_eq_none_iff {name : String} :
    ofKey? name = none ↔ ∀ kind : Combinator, name ≠ kind.key := by
  constructor
  · rintro h kind rfl
    rw [ofKey?_key] at h
    simp at h
  · intro h
    rw [ofKey?.eq_def]
    split
    · exact absurd rfl (h .and)
    · exact absurd rfl (h .or)
    · exact absurd rfl (h .not)
    · rfl

/-! ### A test of each operator -/

/-- A value of a type. -/
def FieldType.sample : FieldType → Literal
  | .text => .text "a"
  | .integer | .float => .int 1
  | .boolean => .bool true
  | .timestamp => .text "2024-05-01T06:00:00Z"
  | .uuid => .text "0f8fad5b-d9cb-469f-a165-70867728950e"

/-- A test of an operator on fields of a type. -/
def Test.sample (type : FieldType) : Operator → Test
  | .comparison op => .compare op type.sample
  | .pattern kind => .pattern kind "a"
  | .oneOf => .oneOf [type.sample]
  | .range => .range ⟨type.sample, type.sample, false⟩

theorem Test.operator_sample (type : FieldType) (op : Operator) : (sample type op).operator = op := by
  cases op <;> rfl

theorem Field.takes_sample (f : Field) : f.Takes f.type.sample where
  holds := by cases f.type <;> decide
  finite := by cases f.type <;> rfl
  present := by cases f.type <;> exact Literal.noConfusion

theorem Field.accepts_sample (f : Field) (op : Operator) : f.Accepts (Test.sample f.type op) := by
  have htakes := f.takes_sample
  cases op with
  | comparison op => exact Or.inr htakes
  | pattern kind => exact (by decide : "a" ≠ "")
  | oneOf => exact ⟨List.cons_ne_nil _ _, List.forall_mem_singleton.mpr htakes⟩
  | range =>
    refine ⟨⟨htakes, htakes, fun hclosed => absurd hclosed Bool.false_ne_true⟩, ?_⟩
    show f.type.sample.order? f.type.sample ≠ some .gt
    cases f.type <;> decide

namespace Condition

/-- A field that filters may use is reached by some filter, with each operator that it allows, exactly if
it is not named like a combinator. -/
theorem exists_filter_iff {r : Registry} (hr : r.Built) {name : String} {f : Field}
    (hf : r.filterable? name = some f) {op : Operator} (hop : f.allows op = true) :
    (∃ raw test, raw.isWellFormed = true ∧ test.operator = op
        ∧ read r raw = .ok (.leaf name test))
      ↔ ∀ kind : Combinator, name ≠ kind.key := by
  rw [← Combinator.ofKey?_eq_none_iff]
  constructor
  · rintro ⟨raw, test, -, -, hread⟩
    exact ofKey?_of_read hread List.mem_cons_self
  · intro hkey
    let test := Test.sample f.type op
    have hsound : (leaf name test).Sound r :=
      .leaf ⟨f, hf, by rw [Test.operator_sample]; exact hop, f.accepts_sample op⟩
    have hkeys : ∀ field ∈ (leaf name test).fields, Combinator.ofKey? field = none :=
      List.forall_mem_singleton.mpr hkey
    refine ⟨(leaf name test).toJson, test, isWellFormed_toJson _, Test.operator_sample _ _, ?_⟩
    rw [read_toJson (Registry.consistent_of_built hr) hsound hkeys]
    rfl

/-- A field `level` is reached with a range, and a field `not` is not reached at all. -/
theorem exists_filter_iff_not :
    (∃ raw test, raw.isWellFormed = true ∧ test.operator = .range
        ∧ read .readings raw = .ok (.leaf "level" test))
      ∧ (Registry.ofTextField "parts" "not").Built
      ∧ (Registry.ofTextField "parts" "not").filterable? "not" = some (Registry.textField "not")
      ∧ (Registry.textField "not").allows (.comparison .eq) = true
      ∧ ¬∃ raw test, raw.isWellFormed = true ∧ test.operator = .comparison .eq
        ∧ read (.ofTextField "parts" "not") raw = .ok (.leaf "not" test) := by
  have hlevel : Registry.readings.filterable? "level" = some (.ofType "level" .float) := rfl
  have hfield : (Registry.ofTextField "parts" "not").filterable? "not"
      = some (Registry.textField "not") := rfl
  have hbuilt := Registry.built_ofTextField "parts" "not"
  refine ⟨?_, hbuilt, hfield, rfl, fun h => ?_⟩
  · refine (exists_filter_iff Registry.built_readings hlevel rfl).mpr fun kind => ?_
    cases kind <;> decide
  · exact (exists_filter_iff hbuilt hfield rfl).mp h .not rfl

end Condition

end ListQuery
