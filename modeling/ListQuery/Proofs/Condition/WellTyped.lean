/-
Conditions of filters are well typed.

Whatever a filter says, the leaves of its condition compare fields with values of their types.  Null is
compared with for equality only, lists of values and texts of patterns are not empty, the bounds of a
range are values and stand in order where they are integers, and every group has children enough.

* `FieldType.Value` — the values of a type, null not being one;
* `Test.OfType` — the tests that a field of a type may be put to;
* `value_of_holds` — a literal that belongs to a type is null or one of the type's values;
* `wellTyped_of_read` — every leaf of a filter's condition tests a field that filters may use, with an
  operator that the field allows and operands of its type.
-/
import ListQuery.Proofs.Condition.Sound

namespace ListQuery

/-! ### Texts of UUIDs -/

/-- Whether a character is a digit of base sixteen, letters in either case. -/
def HexDigit (c : Char) : Prop :=
  ('0' ≤ c ∧ c ≤ '9') ∨ ('a' ≤ c ∧ c ≤ 'f') ∨ ('A' ≤ c ∧ c ≤ 'F')

/-- Whether a text is five groups of 8, 4, 4, 4 and 12 hexadecimal digits, joined by hyphens. -/
def UuidText (s : String) : Prop :=
  ∃ groups : List (List Char), groups.map List.length = [8, 4, 4, 4, 12]
    ∧ (∀ group ∈ groups, ∀ c ∈ group, HexDigit c) ∧ s.toList = ['-'].intercalate groups

theorem hexDigit_of_isHexDigit {c : Char} (h : isHexDigit c = true) : HexDigit c := by
  simp only [isHexDigit, Text.digit?] at h
  by_cases hdigit : c.isDigit = true
  · rw [Char.isDigit, Bool.and_eq_true, decide_eq_true_eq, decide_eq_true_eq] at hdigit
    exact Or.inl hdigit
  · by_cases hlower : 'a' ≤ c ∧ c ≤ 'f'
    · exact Or.inr (Or.inl hlower)
    · by_cases hupper : 'A' ≤ c ∧ c ≤ 'F'
      · exact Or.inr (Or.inr hupper)
      · simp [hdigit, hlower, hupper] at h

theorem exists_groups_of_isHyphenated {lengths : List Nat} {cs : List Char}
    (h : isHyphenated lengths cs = true) :
    ∃ groups : List (List Char), groups.map List.length = lengths
      ∧ (∀ group ∈ groups, ∀ c ∈ group, HexDigit c) ∧ cs = ['-'].intercalate groups := by
  fun_induction isHyphenated lengths cs with
  | case1 cs =>
    refine ⟨[], rfl, by simp, ?_⟩
    simpa using h
  | case2 n cs =>
    rw [Bool.and_eq_true, beq_iff_eq, List.all_eq_true] at h
    obtain ⟨hlength, hdigits⟩ := h
    refine ⟨[cs], by rw [List.map_singleton, hlength], ?_, by simp⟩
    exact List.forall_mem_singleton.mpr fun c hc => hexDigit_of_isHexDigit (hdigits c hc)
  | case3 n ns cs hne ih =>
    rw [Bool.and_eq_true, Bool.and_eq_true, beq_iff_eq, List.all_eq_true] at h
    obtain ⟨⟨hlength, hdigits⟩, hrest⟩ := h
    split at hrest
    · rename_i rest hdrop
      obtain ⟨groups, hlengths, hgroups, rfl⟩ := ih rest hrest
      refine ⟨cs.take n :: groups, by rw [List.map_cons, hlength, hlengths], ?_, ?_⟩
      · exact List.forall_mem_cons.mpr
          ⟨fun c hc => hexDigit_of_isHexDigit (hdigits c hc), hgroups⟩
      · -- There is a group after the first one, so a hyphen stands between them.
        have hgroups : groups ≠ [] := by
          rintro rfl
          exact hne hlengths.symm
        obtain ⟨group, groups, rfl⟩ := List.exists_cons_of_ne_nil hgroups
        rw [List.intercalate_cons_cons, ← List.append_cons, ← hdrop, List.take_append_drop]
    · simp at hrest

theorem uuidText_of_isUuid {s : String} (h : isUuid s = true) : UuidText s :=
  exists_groups_of_isHyphenated h

/-! ### Values of types -/

/-- The values of a type, null not being one. -/
inductive FieldType.Value : FieldType → Literal → Prop where
  | text (s : String) : Value .text (.text s)
  | integer (n : Int64) : Value .integer (.int n)
  | whole (n : Int64) : Value .float (.int n)
  | float (x : Numeric.FiniteFloat) : Value .float (.float (.finite x))
  | boolean (b : Bool) : Value .boolean (.bool b)
  | timestamp {s : String} (h : ∃ c ∈ s.toList, Text.isBlank c = false) : Value .timestamp (.text s)
  | uuid {s : String} (h : UuidText s) : Value .uuid (.text s)

theorem FieldType.value_of_holds {type : FieldType} {v : Literal} (h : type.holds v = true)
    (hfinite : v.isFinite = true) (hnull : v ≠ .null) : type.Value v := by
  rw [holds.eq_def] at h
  split at h
  · exact absurd rfl hnull
  · exact .text _
  · exact .integer _
  · exact .whole _
  · rename_i x
    cases x with
    | finite x => exact .float x
    | nan | infinity => simp [Literal.isFinite, Numeric.Binary64.isFinite] at hfinite
  · exact .boolean _
  · rename_i s
    refine .timestamp ?_
    simpa [Text.isBlankText] using h
  · exact .uuid (uuidText_of_isUuid h)
  · simp at h

/-- The tests that a field of a type may be put to. -/
def Test.OfType (type : FieldType) : Test → Prop
  | .compare op v => type.Value v ∨ v = .null ∧ (op = .eq ∨ op = .notEq)
  | .pattern _ text => type = .text ∧ text ≠ ""
  | .oneOf values => values ≠ [] ∧ ∀ v ∈ values, type.Value v
  | .range i => type.Value i.lower ∧ type.Value i.upper
    ∧ ∀ a b : Int64, i.lower = .int a → i.upper = .int b → a ≤ b

theorem Field.Takes.value {f : Field} {v : Literal} (h : f.Takes v) : f.type.Value v :=
  FieldType.value_of_holds h.holds h.finite h.present

/-- A test that suits a field is of the field's type. -/
theorem Test.ofType_of_accepts {f : Field} {t : Test} (hop : t.operator ∈ f.type.operators)
    (h : f.Accepts t) : t.OfType f.type := by
  cases t with
  | compare op v => exact h.symm.imp Field.Takes.value id
  | pattern kind text => exact ⟨FieldType.eq_text_of_pattern_mem hop, h⟩
  | oneOf values => exact ⟨h.1, fun v hv => (h.2 v hv).value⟩
  | range i =>
    obtain ⟨hbounds, horder⟩ := h
    refine ⟨hbounds.lower.value, hbounds.upper.value, fun a b hlower hupper => ?_⟩
    rw [hlower, hupper, Literal.order?, ne_eq, Option.some_inj] at horder
    exact Int64.le_iff_toInt_le.mpr (Int.compare_ne_gt.mp horder)

namespace Condition

/-- The condition of a filter tests fields that filters may use, with operators that they allow and
operands of their types; its groups have children enough. -/
theorem wellTyped_of_read {r : Registry} (hr : r.Built) {raw : Json} {c : Condition}
    (hw : raw.isWellFormed = true) (h : read r raw = .ok c) :
    c.Every fun name test => ∃ f, r.filterable? name = some f
      ∧ f.allows test.operator = true ∧ test.OfType f.type := by
  have hconsistent := Registry.consistent_of_built hr
  refine (sound_of_read hconsistent hw h).mono ?_
  rintro name test ⟨f, hf, hallows, haccepts⟩
  exact ⟨f, hf, hallows,
    Test.ofType_of_accepts (hconsistent.operator_of_allows hf hallows) haccepts⟩

theorem wellTyped_of_read_readings :
    let raw : Json := .object
      [("count", .object [("range", .object [("interval", .string "[1, 3]")])]),
       ("id", .object [("in", .array [.string "0f8fad5b-d9cb-469f-a165-70867728950e"])]),
       ("or", .array
         [.object [("level", .object [("gt", .integer 2), ("not_in", .array [.integer 9])])],
          .object [("taken", .object [("not_eq", .null)])]])]
    ∃ c, read .readings raw = .ok c ∧ c.Every fun name test =>
      ∃ f, Registry.readings.filterable? name = some f ∧ f.allows test.operator = true
        ∧ test.OfType f.type := by
  intro raw
  have haccepted : (read .readings raw).isOk = true := by
    decide +kernel
  cases hc : read .readings raw with
  | ok c => exact ⟨c, rfl, wellTyped_of_read Registry.built_readings (by decide) hc⟩
  | error e =>
    rw [hc] at haccepted
    exact nomatch haccepted

end Condition

end ListQuery
