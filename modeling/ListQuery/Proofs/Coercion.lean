/-
Values that belong to a type.

`FieldType.holds` says of each type which literals are values of it.  Fitting a literal to a type gives
such a value or nothing, and a value of the type is already fitted:

* `holds_of_coerce` — what fits is a value of the type;
* `coerce_of_holds` and `coerce_coerce` — a value of the type is left as it is;
* `coerce_bare` — a value that a text spells is spelt by its own text again;
* `settled_of_coerce` — so nothing changes after one step, through JSON and through texts of numbers.
-/
import ListQuery.FieldType
import ListQuery.Proofs.Json.Tokens
import ListQuery.Proofs.LiteralEcho

namespace ListQuery.FieldType

open Numeric

/-- Whether a literal is a value of a type; null is one of every type. -/
def holds : FieldType → Literal → Bool
  | _, .null => true
  | .text, .text _ => true
  | .integer, .int _ => true
  | .float, .int _ => true
  | .float, .float _ => true
  | .boolean, .bool _ => true
  | .timestamp, .text s => !Text.isBlankText s
  | .uuid, .text s => isUuid s
  | _, _ => false

theorem coerce_of_holds {type : FieldType} {v : Literal} (h : type.holds v = true) :
    type.coerce v = .ok v := by
  cases type <;> cases v <;> simp_all [holds, coerce]

theorem holds_of_coerce {type : FieldType} {v w : Literal} (h : type.coerce v = .ok w) :
    type.holds w = true := by
  cases type <;> cases v <;> simp only [coerce] at h
  -- Where the outcome does not depend on the literal's text, the pair of type and literal decides.
  all_goals try (cases h <;> rfl)
  case integer.text s =>
    split at h
    · obtain rfl := Except.ok.inj h
      rfl
    · simp at h
  case float.text s =>
    split at h
    · obtain rfl := Except.ok.inj h
      rfl
    · simp at h
  case boolean.text s =>
    split at h
    · obtain rfl := Except.ok.inj h
      rfl
    · obtain rfl := Except.ok.inj h
      rfl
    · simp at h
  case timestamp.text s =>
    split at h
    · simp at h
    · rename_i hs
      obtain rfl := Except.ok.inj h
      simpa [holds] using hs
  case uuid.text s =>
    split at h
    · rename_i hs
      obtain rfl := Except.ok.inj h
      exact hs
    · simp at h

theorem coerce_list (type : FieldType) (items : List Literal) :
    type.coerce (.list items) = .error .list := by
  cases type <;> rfl

theorem coerce_coerce {type : FieldType} {v w : Literal} (h : type.coerce v = .ok w) :
    type.coerce w = .ok w :=
  coerce_of_holds (holds_of_coerce h)

theorem isFinite_of_coerce {type : FieldType} {v w : Literal} (hv : v.isFinite = true)
    (h : type.coerce v = .ok w) : w.isFinite = true := by
  cases type <;> cases v <;> simp only [coerce] at h
  all_goals try (cases h <;> first | rfl | exact hv)
  -- What is left are the texts, which become literals with no number in them or with a finite one.
  all_goals
    split at h <;> cases h <;> rfl

/-- No text spells null. -/
theorem ne_null_of_coerce_text {type : FieldType} {s : String} {v : Literal}
    (h : type.coerce (.text s) = .ok v) : v ≠ .null := by
  cases type <;> simp only [coerce] at h
  case text =>
    obtain rfl := Except.ok.inj h
    simp
  all_goals
    split at h <;> cases h <;> simp

/-! ### Operators of types -/

theorem eq_text_of_pattern_mem {type : FieldType} {kind : Placement}
    (h : .pattern kind ∈ type.operators) : type = .text := by
  cases type with
  | text => rfl
  | integer | float | boolean | timestamp | uuid => simp [operators] at h

theorem ne_boolean_of_range_mem {type : FieldType} (h : .range ∈ type.operators) :
    type ≠ .boolean := by
  rintro rfl
  simp [operators] at h

/-! ### Texts of values -/

/-- A text that a value is spelt by: the text it was read from, or one of digits, signs, points and
letters of exponents. -/
def Respelt (before after : List Char) : Prop :=
  after = before ∨ after ≠ [] ∧ ∀ c ∈ after, Json.isNumberChar c = true

theorem signed_ne_nil (n : Int) : Text.signed n ≠ [] := by
  cases n with
  | ofNat n => exact decimal_ne_nil n
  | negSucc n => exact List.cons_ne_nil _ _

theorem plainText_ne_nil (x : FiniteFloat) : Binary64.plainText (.finite x) ≠ [] := by
  intro hnil
  have hnone : float? [] = none := by decide
  have h := float?_plainText x
  rw [hnil, hnone] at h
  simp at h

theorem trimChars_of_isNumberChar {cs : List Char} (h : ∀ c ∈ cs, Json.isNumberChar c = true) :
    Text.trimChars cs = cs := by
  refine Text.trimChars_eq_self_of_forall fun c hc => ?_
  cases hb : Text.isBlank c with
  | false => rfl
  | true =>
    have hn := h c hc
    have hd := Text.not_isDigit_of_isBlank hb
    simp only [Json.isNumberChar, hd, Bool.false_or, Bool.or_eq_true, beq_iff_eq] at hn
    rcases hn with (((rfl | rfl) | rfl) | rfl) | rfl <;> exact absurd hb (by decide)

theorem toList_inline_int (n : Int64) : (Literal.int n).inline.toList = Text.signed n.toInt :=
  String.toList_ofList

theorem toList_inline_float (x : Binary64) : (Literal.float x).inline.toList = x.plainText :=
  String.toList_ofList

/-- The plain text of a float has only the characters that stand in numbers of JSON. -/
theorem isNumberChar_of_mem_plainText {x : FiniteFloat} {c : Char}
    (h : c ∈ Binary64.plainText (.finite x)) : Json.isNumberChar c = true :=
  Json.isNumberChar_of_mem_text endsIn_plain (by simp) h

/-- An integer is spelt by its own text: its digits have no blanks around them to be trimmed. -/
theorem coerce_inline_int (n : Int64) :
    FieldType.integer.coerce (.text (Literal.int n).inline) = .ok (.int n) := by
  simp only [coerce]
  rw [toList_inline_int, trimChars_signed, integer?_signed, int64?_toInt]

/-- So is a finite float. -/
theorem coerce_inline_finite (x : FiniteFloat) :
    FieldType.float.coerce (.text (Literal.float (.finite x)).inline) = .ok (.float (.finite x)) := by
  simp only [coerce]
  rw [toList_inline_float, trimChars_of_isNumberChar fun c => isNumberChar_of_mem_plainText,
    float?_plainText]

/-- A value that a text spells, of any type but that of truth values, is spelt by its own text. -/
theorem coerce_bare {type : FieldType} {s : String} {v : Literal} (htype : type ≠ .boolean)
    (h : type.coerce (.text s) = .ok v) :
    type.coerce (.text v.bare) = .ok v ∧ Respelt s.toList v.bare.toList := by
  cases type with
  | boolean => exact absurd rfl htype
  | text =>
    obtain rfl := Except.ok.inj h
    exact ⟨rfl, Or.inl rfl⟩
  | integer =>
    simp only [coerce] at h
    split at h
    · rename_i n _
      obtain rfl := Except.ok.inj h
      have hbare : (Literal.int n).bare.toList = Text.signed n.toInt := toList_inline_int n
      refine ⟨coerce_inline_int n, Or.inr ?_⟩
      rw [hbare]
      exact ⟨signed_ne_nil _, fun c => Json.isNumberChar_of_mem_signed⟩
    · simp at h
  | float =>
    simp only [coerce] at h
    split at h
    · rename_i x _
      obtain rfl := Except.ok.inj h
      have hbare : (Literal.float (.finite x)).bare.toList = Binary64.plainText (.finite x) :=
        toList_inline_float (.finite x)
      refine ⟨coerce_inline_finite x, Or.inr ?_⟩
      rw [hbare]
      exact ⟨plainText_ne_nil x, fun c => isNumberChar_of_mem_plainText⟩
    · simp at h
  | timestamp =>
    simp only [coerce] at h
    split at h
    · simp at h
    · rename_i hs
      obtain rfl := Except.ok.inj h
      exact ⟨if_neg hs, Or.inl rfl⟩
  | uuid =>
    simp only [coerce] at h
    split at h
    · rename_i hs
      obtain rfl := Except.ok.inj h
      exact ⟨if_pos hs, Or.inl rfl⟩
    · simp at h

/-! ### One step is enough -/

/-- What fits a type is left as it is when it is fitted again.  With finite numbers it is read back from
its JSON value, and fits as it did.  An integer of an integer field and a finite float of a float field
are spelt by their own texts. -/
theorem settled_of_coerce {type : FieldType} {v w : Literal} (h : type.coerce v = .ok w) :
    type.coerce w = .ok w
      ∧ (w.isFinite = true → Literal.ofJson? w.toJson = some w
        ∧ (Literal.ofJson? w.toJson).map type.coerce = some (.ok w))
      ∧ ((type = .integer ∧ ∃ n, w = .int n) ∨ (type = .float ∧ ∃ x, w = .float (.finite x)) →
        type.coerce (.text w.inline) = .ok w) := by
  have hagain := coerce_coerce h
  refine ⟨hagain, fun hfinite => ?_, ?_⟩
  · have hread := Literal.ofJson?_toJson hfinite
    rw [hread, Option.map_some, hagain]
    exact ⟨rfl, rfl⟩
  · rintro (⟨rfl, n, rfl⟩ | ⟨rfl, x, rfl⟩)
    · exact coerce_inline_int n
    · exact coerce_inline_finite x

/-- An integer with a sign and blanks, and a float with an exponent, which are written without them. -/
theorem settled_of_coerce_signed :
    (FieldType.integer.coerce (.text " +7\t") = .ok (.int 7)
        ∧ FieldType.integer.coerce (.text "7") = .ok (.int 7))
      ∧ ∃ x, FieldType.float.coerce (.text " 15e-1") = .ok (.float (.finite x))
        ∧ FieldType.float.coerce (.float (.finite x)) = .ok (.float (.finite x))
        ∧ Literal.ofJson? (Literal.float (.finite x)).toJson = some (.float (.finite x))
        ∧ FieldType.float.coerce (.text "1.5") = .ok (.float (.finite x)) := by
  have hseven : FieldType.integer.coerce (.text " +7\t") = .ok (.int 7) := rfl
  refine ⟨⟨hseven, (settled_of_coerce hseven).2.2 (Or.inl ⟨rfl, 7, rfl⟩)⟩, ?_⟩
  let x : FiniteFloat := ⟨false, 3 * Nat.pow 2 51, 1022, by decide⟩
  have hfloat : FieldType.float.coerce (.text " 15e-1") = .ok (.float (.finite x)) := by
    have hread : float? (Text.trimChars " 15e-1".toList) = some (.finite x) := by decide +kernel
    simp only [coerce, hread]
  have htext : (Literal.float (.finite x)).inline = "1.5" := by decide +kernel
  obtain ⟨hagain, hjson, hspelt⟩ := settled_of_coerce hfloat
  refine ⟨x, hfloat, hagain, (hjson rfl).1, ?_⟩
  rw [← htext]
  exact hspelt (Or.inr ⟨rfl, x, rfl⟩)

end ListQuery.FieldType
