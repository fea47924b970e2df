/-
The order of the bounds of ranges over numbers.

A range is refused if its lower bound compares as greater than the upper one.  Next to a floating number an
integer is rounded before it is compared, so past `2 ^ 53` it may be taken for a number on the other side of
the bound.  Bounds of one sort compare by their exact values.

* `Literal.toRat?` — the exact value of a number;
* `Literal.Blurs` — an integer past `2 ^ 53` next to the number that it is rounded to;
* `order?_ne_gt_iff` — numbers are let through as bounds exactly if they are in order or such a pair;
* `inOrder_of_read` — so the bounds of every range over numbers are, and all others are refused.

Design notes: all numbers are compared in units of `2 ^ -1074`, in which integers and floating numbers are
integers.  Rounding is monotone there and keeps what is represented, so it can make two numbers equal
but never exchange them.
-/
import ListQuery.Proofs.Condition.RangeForms
import ListQuery.Proofs.Condition.WellTyped
import Mathlib.Algebra.Order.Field.Rat

namespace ListQuery

open Numeric

/-! ### Exact values -/

namespace Numeric

/-- The exact value of a number. -/
def FiniteFloat.toRat (x : FiniteFloat) : ℚ :=
  x.scaled / unitsPerOne

theorem unitsPerOne_cast_pos : (0 : ℚ) < unitsPerOne := by
  exact_mod_cast unitsPerOne_pos

namespace FiniteFloat

variable {n : Int} {x y : FiniteFloat}

theorem toRat_le_toRat : x.toRat ≤ y.toRat ↔ x.scaled ≤ y.scaled := by
  rw [toRat, toRat, div_le_div_iff_of_pos_right unitsPerOne_cast_pos, Rat.intCast_le_intCast]

theorem intCast_le_toRat : (n : ℚ) ≤ x.toRat ↔ n * unitsPerOne ≤ x.scaled := by
  rw [toRat, le_div_iff₀ unitsPerOne_cast_pos]
  norm_cast

theorem toRat_le_intCast : x.toRat ≤ n ↔ x.scaled ≤ n * unitsPerOne := by
  rw [toRat, div_le_iff₀ unitsPerOne_cast_pos]
  norm_cast

end FiniteFloat

namespace Binary64

variable {n : Int} {x z : FiniteFloat}

/-- Up to `2 ^ 53` an integer is rounded to itself. -/
theorem toRat_of_ofInt (hsmall : n.natAbs ≤ 2 ^ 53) (h : ofInt n = .finite z) : z.toRat = n := by
  have hscaled : z.scaled = n * unitsPerOne := by
    rw [scaled_of_ofInt h, roundedScaled_small hsmall]
  exact le_antisymm (FiniteFloat.toRat_le_intCast.mpr hscaled.le)
    (FiniteFloat.intCast_le_toRat.mpr hscaled.ge)

/-- An integer that is no greater than a number is rounded to one that is no greater. -/
theorem scaled_le_of_le_toRat (h : ofInt n = .finite z) (hle : (n : ℚ) ≤ x.toRat) :
    z.scaled ≤ x.scaled := by
  rw [scaled_of_ofInt h, ← roundedScaled_scaled x]
  exact roundedScaled_mono (FiniteFloat.intCast_le_toRat.mp hle)

/-- An integer that is no less than a number is rounded to one that is no less. -/
theorem le_scaled_of_toRat_le (h : ofInt n = .finite z) (hle : x.toRat ≤ n) :
    x.scaled ≤ z.scaled := by
  rw [scaled_of_ofInt h, ← roundedScaled_scaled x]
  exact roundedScaled_mono (FiniteFloat.toRat_le_intCast.mp hle)

theorem order?_finite_ne_gt : (finite x).order? (.finite z) ≠ some .gt ↔ x.scaled ≤ z.scaled := by
  rw [order?, ne_eq, Option.some.injEq, Int.compare_eq_gt, Int.not_lt]

theorem agrees_finite : (finite x).agrees (.finite z) = true ↔ x.scaled = z.scaled := by
  rw [agrees, order?, beq_iff_eq, Option.some.injEq, Int.compare_eq_eq]

end Binary64

end Numeric

/-- Whether an integer is past `2 ^ 53` and a floating number the one that it is rounded to. -/
structure Literal.RoundsTo (n : Int64) (x : Binary64) : Prop where
  large : 2 ^ 53 < n.toInt.natAbs
  rounded : (Binary64.ofInt n.toInt).agrees x = true

namespace Literal

/-- The exact value of a number. -/
def toRat? : Literal → Option ℚ
  | .int n => some n.toInt
  | .float (.finite x) => some x.toRat
  | _ => none

/-- Whether one of two literals is an integer past `2 ^ 53` and the other one the floating number that it
is rounded to. -/
inductive Blurs : Literal → Literal → Prop where
  | lower {n : Int64} {x : Binary64} (h : RoundsTo n x) : Blurs (.int n) (.float x)
  | upper {n : Int64} {x : Binary64} (h : RoundsTo n x) : Blurs (.float x) (.int n)

theorem not_blurs_of_kind_eq {v w : Literal} (h : v.kind = w.kind) : ¬v.Blurs w := by
  intro hblurs
  cases hblurs <;> simp [kind] at h

theorem blurs_int_float_iff {n : Int64} {x : Binary64} :
    (Literal.int n).Blurs (.float x) ↔ RoundsTo n x := by
  constructor
  · intro h
    cases h with
    | lower h => exact h
  · exact .lower

theorem blurs_float_int_iff {n : Int64} {x : Binary64} :
    (Literal.float x).Blurs (.int n) ↔ RoundsTo n x := by
  constructor
  · intro h
    cases h with
    | upper h => exact h
  · exact .upper

/-! ### Comparing -/

variable {n : Int64} {x z : FiniteFloat}

/-- An integer that compares with a number otherwise than its value does is rounded to the number. -/
theorem roundsTo_of_scaled_eq (h : Binary64.ofInt n.toInt = .finite z) (hrounded : z.scaled = x.scaled)
    (hexact : (n.toInt : ℚ) ≠ x.toRat) : RoundsTo n (.finite x) := by
  refine ⟨?_, ?_⟩
  · by_contra hsmall
    have hsame : z.toRat = x.toRat :=
      le_antisymm (FiniteFloat.toRat_le_toRat.mpr hrounded.le)
        (FiniteFloat.toRat_le_toRat.mpr hrounded.ge)
    exact hexact ((Binary64.toRat_of_ofInt (Nat.not_lt.mp hsmall) h).symm.trans hsame)
  · rw [h, Binary64.agrees_finite]
    exact hrounded

theorem order?_int_float :
    (Literal.int n).order? (.float (.finite x)) ≠ some .gt
      ↔ (n.toInt : ℚ) ≤ x.toRat ∨ RoundsTo n (.finite x) := by
  obtain ⟨z, hz⟩ := Binary64.exists_ofInt_eq_finite (natAbs_toInt_lt n)
  rw [order?, hz, Binary64.order?_finite_ne_gt]
  constructor
  · intro hle
    rcases le_or_gt (n.toInt : ℚ) x.toRat with h | h
    · exact Or.inl h
    · -- Rounding has brought the integer down to the number, and not past it.
      have hge := Binary64.le_scaled_of_toRat_le hz h.le
      exact Or.inr (roundsTo_of_scaled_eq hz (le_antisymm hle hge) h.ne')
  · rintro (h | h)
    · exact Binary64.scaled_le_of_le_toRat hz h
    · have hrounded := h.rounded
      rw [hz, Binary64.agrees_finite] at hrounded
      exact hrounded.le

theorem order?_float_int :
    (Literal.float (.finite x)).order? (.int n) ≠ some .gt
      ↔ x.toRat ≤ (n.toInt : ℚ) ∨ RoundsTo n (.finite x) := by
  obtain ⟨z, hz⟩ := Binary64.exists_ofInt_eq_finite (natAbs_toInt_lt n)
  rw [order?, hz, Binary64.order?_finite_ne_gt]
  constructor
  · intro hle
    rcases le_or_gt x.toRat (n.toInt : ℚ) with h | h
    · exact Or.inl h
    · have hge := Binary64.scaled_le_of_le_toRat hz h.le
      exact Or.inr (roundsTo_of_scaled_eq hz (le_antisymm hge hle) h.ne)
  · rintro (h | h)
    · exact Binary64.le_scaled_of_toRat_le hz h
    · have hrounded := h.rounded
      rw [hz, Binary64.agrees_finite] at hrounded
      exact hrounded.ge

theorem toRat?_eq_some {v : Literal} {a : ℚ} (h : v.toRat? = some a) :
    (∃ n : Int64, v = .int n ∧ a = n.toInt)
      ∨ ∃ x : FiniteFloat, v = .float (.finite x) ∧ a = x.toRat := by
  rw [toRat?.eq_def] at h
  split at h
  · exact Or.inl ⟨_, rfl, (Option.some.inj h).symm⟩
  · exact Or.inr ⟨_, rfl, (Option.some.inj h).symm⟩
  · simp at h

/-- Numbers are let through as the bounds of a range exactly if they are in order, or if one of them is an
integer past `2 ^ 53` and the other one the floating number that it is rounded to. -/
theorem order?_ne_gt_iff {v w : Literal} {a b : ℚ} (hv : v.toRat? = some a) (hw : w.toRat? = some b) :
    v.order? w ≠ some .gt ↔ a ≤ b ∨ v.Blurs w := by
  rcases toRat?_eq_some hv with ⟨m, rfl, rfl⟩ | ⟨x, rfl, rfl⟩ <;>
    rcases toRat?_eq_some hw with ⟨n, rfl, rfl⟩ | ⟨y, rfl, rfl⟩
  · have hkinds : ¬(Literal.int m).Blurs (.int n) := not_blurs_of_kind_eq rfl
    rw [order?, ne_eq, Option.some.injEq, Int.compare_eq_gt, Int.not_lt, Rat.intCast_le_intCast,
      or_iff_left hkinds]
  · rw [order?_int_float, blurs_int_float_iff]
  · rw [order?_float_int, blurs_float_int_iff]
  · have hkinds : ¬(Literal.float (.finite x)).Blurs (.float (.finite y)) := not_blurs_of_kind_eq rfl
    rw [order?, Binary64.order?_finite_ne_gt, FiniteFloat.toRat_le_toRat, or_iff_left hkinds]

end Literal

/-! ### Fields -/

namespace FieldType

/-- The types whose values are numbers. -/
def IsNumeric (type : FieldType) : Prop :=
  type = .integer ∨ type = .float

variable {type : FieldType} {v w : Literal}

theorem exists_toRat?_of_value (htype : type.IsNumeric) (hv : type.Value v) :
    ∃ a, v.toRat? = some a := by
  cases hv with
  | integer n => exact ⟨n.toInt, rfl⟩
  | whole n => exact ⟨n.toInt, rfl⟩
  | float x => exact ⟨x.toRat, rfl⟩
  | text | boolean | timestamp | uuid => simp [IsNumeric] at htype

/-- Only fields for floating numbers keep numbers of both sorts. -/
theorem eq_float_of_blurs (hv : type.Value v) (hw : type.Value w) (h : v.Blurs w) : type = .float := by
  cases h with
  | lower => cases hw; rfl
  | upper => cases hv; rfl

theorem takes_of_value {f : Field} (htype : f.type.IsNumeric) (h : f.type.Value v) : f.Takes v := by
  generalize htypeOf : f.type = type at htype h
  cases h with
  | integer n => exact ⟨by rw [htypeOf]; rfl, rfl, by simp⟩
  | whole n => exact ⟨by rw [htypeOf]; rfl, rfl, by simp⟩
  | float x => exact ⟨by rw [htypeOf]; rfl, rfl, by simp⟩
  | text | boolean | timestamp | uuid => simp [IsNumeric] at htype

end FieldType

/-- Values that a field takes are refused as the bounds of a range exactly if they compare as out of
order. -/
theorem Field.readRange_values {f : Field} {tag : String} {v w : Literal} (hv : f.Takes v)
    (hw : f.Takes w) :
    f.readRange tag (.object [("from", v.toJson), ("to", w.toJson)])
      = if v.order? w = some .gt then .error (.range f.name .inverted) else .ok ⟨v, w, false⟩ := by
  rw [readRange_bounds, readPresent_toJson hv, readPresent_toJson hw]
  rfl

/-! ### Filters -/

namespace Condition

/-- In a filter that is accepted, the bounds of every range over numbers are in order, or one of them is an
integer past `2 ^ 53` and the other one the floating number that it is rounded to.  Of two numbers that a
field may be compared with, these are accepted as bounds, and any others are refused as inverted. -/
theorem inOrder_of_read {r : Registry} (hr : r.Built) :
    (∀ (raw : Json) (c : Condition), raw.isWellFormed = true → read r raw = .ok c →
        c.Every fun name test => ∀ (f : Field) (i : Interval), r.filterable? name = some f →
          f.type.IsNumeric → test = .range i →
            ∃ a b : ℚ, i.lower.toRat? = some a ∧ i.upper.toRat? = some b
              ∧ (a ≤ b ∨ f.type = .float ∧ i.lower.Blurs i.upper))
      ∧ ∀ (name : String) (f : Field) (v w : Literal) (a b : ℚ), Combinator.ofKey? name = none →
        r.filterable? name = some f → f.allows .range = true → f.type.IsNumeric →
        f.type.Value v → f.type.Value w → v.toRat? = some a → w.toRat? = some b →
          (a ≤ b ∨ v.Blurs w →
            read r (rangeFilter name (.object [("from", v.toJson), ("to", w.toJson)]))
              = .ok (.leaf name (.range ⟨v, w, false⟩)))
          ∧ (¬(a ≤ b ∨ v.Blurs w) →
            read r (rangeFilter name (.object [("from", v.toJson), ("to", w.toJson)]))
              = .error (.range name .inverted)) := by
  constructor
  · intro raw c hw hread
    refine (sound_of_read (Registry.consistent_of_built hr) hw hread).mono ?_
    rintro name test ⟨f, hf, -, haccepts⟩ g i hg htype rfl
    obtain rfl := Option.some.inj (hf.symm.trans hg)
    obtain ⟨hbounds, horder⟩ := haccepts
    have hlower := hbounds.lower.value
    have hupper := hbounds.upper.value
    obtain ⟨a, ha⟩ := FieldType.exists_toRat?_of_value htype hlower
    obtain ⟨b, hb⟩ := FieldType.exists_toRat?_of_value htype hupper
    refine ⟨a, b, ha, hb, ((Literal.order?_ne_gt_iff ha hb).mp horder).imp id fun hblurs => ?_⟩
    exact ⟨FieldType.eq_float_of_blurs hlower hupper hblurs, hblurs⟩
  · intro name f v w a b hkey hf hallows htype hv hw ha hb
    obtain rfl := Registry.name_of_filterable? hf
    have hvtakes := FieldType.takes_of_value htype hv
    have hwtakes := FieldType.takes_of_value htype hw
    rw [read_rangeFilter hkey hf hallows, Field.readRange_values hvtakes hwtakes,
      ← Literal.order?_ne_gt_iff ha hb]
    refine ⟨fun horder => ?_, fun hinverted => ?_⟩
    · rw [if_neg horder]
      rfl
    · rw [if_pos (not_not.mp hinverted)]
      rfl

/-- The first integer that is rounded, as the lower bound, and the number that it is rounded to. -/
theorem inOrder_of_read_level :
    let limit : FiniteFloat := ⟨false, 4503599627370496, 1075, by decide⟩
    let i : Interval := ⟨.int 9007199254740993, .float (.finite limit), false⟩
    let raw := rangeFilter "level"
      (.object [("from", .integer 9007199254740993), ("to", .float limit)])
    read .readings raw = .ok (.leaf "level" (.range i)) ∧ i.lower.Blurs i.upper
      ∧ ∃ a b : ℚ, i.lower.toRat? = some a ∧ i.upper.toRat? = some b ∧ b < a := by
  intro limit i raw
  obtain ⟨hordered, haccepted⟩ := inOrder_of_read Registry.built_readings
  have hrounds : Literal.RoundsTo 9007199254740993 (.finite limit) := ⟨by decide, by decide +kernel⟩
  have hread : read .readings raw = .ok (.leaf "level" (.range i)) :=
    (haccepted "level" (.ofType "level" .float) i.lower i.upper _ _ rfl rfl
      rfl (Or.inr rfl) (.whole _) (.float _) rfl rfl).1 (Or.inr (.lower hrounds))
  have hlimit : limit.toRat = (9007199254740992 : Int) :=
    Binary64.toRat_of_ofInt (by decide) (by decide +kernel)
  have hinverted : limit.toRat < (9007199254740993 : Int) := by
    rw [hlimit, Rat.intCast_lt_intCast]
    decide
  -- The bounds of an accepted range that are out of order are such a pair.
  obtain ⟨hleaf⟩ := hordered raw _ (by decide) hread
  obtain ⟨a, b, ha, hb, hle | ⟨-, hblurs⟩⟩ := hleaf (.ofType "level" .float) i rfl (Or.inr rfl) rfl
  · obtain rfl := Option.some.inj ha
    obtain rfl := Option.some.inj hb
    exact absurd hle (not_le.mpr hinverted)
  · exact ⟨hread, hblurs, _, _, rfl, rfl, hinverted⟩

end Condition

end ListQuery
