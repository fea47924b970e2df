/-
Rounding to binary64 depends on the value alone.

`ofRatio` rounds a quotient and `ofDecimal` a decimal; neither depends on how its value is written:

* `ofRatio_mul` — a common factor of numerator and denominator changes nothing;
* `ofDecimal_shift` — zeros at the end of the coefficient may as well stand in the exponent;
* `ofRatio_units` — a number's own units round to the number;
* `exists_ofInt_eq_finite` — integers of up to 64 bits round to finite numbers.
-/
import ListQuery.Proofs.Numeric.Digits

namespace ListQuery.Numeric

open Text

theorem two_pow_pos (n : Nat) : 0 < Nat.pow 2 n :=
  Nat.pow_pos (by decide)

/-- The units in one as a power of two whose exponent is kept apart, so that no step computes it. -/
theorem exists_unitsPerOne_eq : ∃ u, u = 1074 ∧ unitsPerOne = Nat.pow 2 u := by
  unfold unitsPerOne
  generalize 1074 = u
  exact ⟨u, rfl, rfl⟩

theorem unitsPerOne_pos : 0 < unitsPerOne := by
  obtain ⟨u, -, hU⟩ := exists_unitsPerOne_eq
  rw [hU]
  exact two_pow_pos u

theorem roundHalfEven_mul {k : Nat} (hk : 0 < k) (num den : Nat) :
    roundHalfEven (num * k) (den * k) = roundHalfEven num den := by
  have hdiv : num * k / (den * k) = num / den := Nat.mul_div_mul_right num den hk
  have hmod : num * k % (den * k) = num % den * k := Nat.mul_mod_mul_right k num den
  -- Both comparisons with half the divisor keep their outcome.
  have hlt : 2 * (num % den * k) < den * k ↔ 2 * (num % den) < den := by
    rw [← Nat.mul_assoc]
    exact Nat.mul_lt_mul_right hk
  have heq : 2 * (num % den * k) = den * k ↔ 2 * (num % den) = den := by
    rw [← Nat.mul_assoc]
    exact Nat.mul_right_cancel_iff hk
  simp only [roundHalfEven, hdiv, hmod, hlt, heq]

theorem roundHalfEven_exact {den : Nat} (h : 0 < den) (n : Nat) :
    roundHalfEven (n * den) den = n := by
  simp [roundHalfEven, Nat.mul_div_cancel n h, h]

theorem roundHalfEven_le {num den bound : Nat} (h : num < bound * den) :
    roundHalfEven num den ≤ bound := by
  have hq : num / den < bound := Nat.div_lt_of_lt_mul (by rwa [Nat.mul_comm] at h)
  simp only [roundHalfEven]
  split <;> omega

theorem le_roundHalfEven (num den : Nat) : num / den ≤ roundHalfEven num den := by
  simp only [roundHalfEven]
  split <;> omega

namespace Binary64

theorem ofRatio_mul {k : Nat} (hk : 0 < k) (negative : Bool) (num den : Nat) :
    ofRatio negative (num * k) (den * k) = ofRatio negative num den := by
  have hnum : num * k * unitsPerOne = num * unitsPerOne * k := Nat.mul_right_comm num k unitsPerOne
  have hdiv : num * unitsPerOne * k / (den * k) = num * unitsPerOne / den :=
    Nat.mul_div_mul_right _ _ hk
  have hden : ∀ p, den * k * p = den * p * k := fun p => Nat.mul_right_comm den k p
  simp only [ofRatio, hnum, hdiv, hden, roundHalfEven_mul hk]

end Binary64

/-! ### Decimals -/

theorem decimalLength_mul_ten {n : Nat} (h : 0 < n) : decimalLength (n * 10) = decimalLength n + 1 := by
  have hd := Nat.toDigits_append_toDigits (b := 10) (n := n) (d := 0) (by decide) h (by decide)
  rw [Nat.add_zero, Nat.mul_comm] at hd
  rw [decimalLength, decimalLength, decimal, decimal, ← hd, List.length_append]
  rfl

theorem decimalLength_mul_pow {n : Nat} (h : 0 < n) (k : Nat) :
    decimalLength (n * 10 ^ k) = decimalLength n + k := by
  induction k with
  | zero => simp
  | succ k ih =>
    rw [Nat.pow_succ, ← Nat.mul_assoc, decimalLength_mul_ten (Nat.mul_pos h (Nat.pow_pos (by decide))),
      ih]
    omega

namespace Binary64

/-- The number nearest to `coefficient · 10 ^ exponent`, with nothing settled beforehand. -/
def ofScaled (negative : Bool) (coefficient : Nat) : Int → Binary64
  | .ofNat e => ofRatio negative (coefficient * 10 ^ e) 1
  | .negSucc e => ofRatio negative coefficient (10 ^ (e + 1))

theorem ofDecimal_eq (negative : Bool) (coefficient : Nat) (exponent : Int) :
    ofDecimal negative coefficient exponent
      = if coefficient = 0 ∨ exponent + decimalLength coefficient < -400 then
          .finite (.zero negative)
        else if 400 < exponent + decimalLength coefficient then .infinity negative
        else ofScaled negative coefficient exponent := by
  cases exponent <;> rfl

theorem ofScaled_shift (negative : Bool) (coefficient k : Nat) (exponent : Int) :
    ofScaled negative (coefficient * 10 ^ k) exponent
      = ofScaled negative coefficient (exponent + k) := by
  have hpos : ∀ m, 0 < 10 ^ m := fun m => Nat.pow_pos (by decide)
  rcases exponent with e | e
  · show ofRatio _ (coefficient * 10 ^ k * 10 ^ e) 1 = ofRatio _ (coefficient * 10 ^ (e + k)) 1
    rw [Nat.mul_assoc, ← Nat.pow_add, Nat.add_comm]
  · show ofRatio _ (coefficient * 10 ^ k) (10 ^ (e + 1)) = _
    by_cases hk : e + 1 ≤ k
    · -- the denominator is a power of ten that the coefficient has
      obtain ⟨m, rfl⟩ : ∃ m, k = m + (e + 1) := ⟨k - (e + 1), by omega⟩
      have he : Int.negSucc e + (m + (e + 1) : Nat) = Int.ofNat m := by
        simp only [Int.negSucc_eq, Int.ofNat_eq_natCast]
        omega
      rw [he, Nat.pow_add, ← Nat.mul_assoc]
      have hone : 10 ^ (e + 1) = 1 * 10 ^ (e + 1) := (Nat.one_mul _).symm
      conv => lhs; arg 3; rw [hone]
      exact ofRatio_mul (hpos _) negative _ 1
    · obtain ⟨m, hm⟩ : ∃ m, e + 1 = m + 1 + k := ⟨e - k, by omega⟩
      have he : Int.negSucc e + (k : Nat) = Int.negSucc m := by
        simp only [Int.negSucc_eq]
        omega
      rw [he, hm, Nat.pow_add]
      exact ofRatio_mul (hpos k) negative coefficient _

theorem ofDecimal_zero (negative : Bool) (exponent : Int) :
    ofDecimal negative 0 exponent = .finite (.zero negative) := by
  rw [ofDecimal_eq, if_pos (Or.inl rfl)]

theorem ofDecimal_shift (negative : Bool) (coefficient k : Nat) (exponent : Int) :
    ofDecimal negative (coefficient * 10 ^ k) exponent
      = ofDecimal negative coefficient (exponent + k) := by
  rcases Nat.eq_zero_or_pos coefficient with rfl | h
  · rw [Nat.zero_mul, ofDecimal_zero, ofDecimal_zero]
  · have hpos : 0 < coefficient * 10 ^ k := Nat.mul_pos h (Nat.pow_pos (by decide))
    have hlen : exponent + decimalLength (coefficient * 10 ^ k)
        = exponent + k + decimalLength coefficient := by
      rw [decimalLength_mul_pow h]
      omega
    rw [ofDecimal_eq, ofDecimal_eq, hlen, ofScaled_shift]
    simp only [Nat.ne_of_gt hpos, Nat.ne_of_gt h]

end Binary64

/-! ### Numbers that need no rounding -/

namespace FiniteFloat

theorem eq_zero_of_units {x : FiniteFloat} (h : x.units = 0) : x = .zero x.negative := by
  obtain ⟨negative, significand, scale, hbound, hscale, hform⟩ := x
  have hs : significand = 0 := by
    rcases Nat.mul_eq_zero.mp h with h | h
    · exact h
    · exact absurd h (Nat.ne_of_gt (Nat.pow_pos (by decide)))
  subst hs
  have hz : scale = 0 := hform.resolve_right (by decide)
  subst hz
  rfl

theorem log2_units (x : FiniteFloat) : Nat.log2 x.units - 52 = x.scale := by
  obtain ⟨negative, significand, scale, hbound, hscale, hform⟩ := x
  simp only [units]
  have hlt : significand < 2 ^ 53 := hbound
  have hpow : 0 < 2 ^ scale := Nat.pow_pos (by decide)
  rcases Nat.eq_zero_or_pos significand with rfl | hs
  · have hz : scale = 0 := hform.resolve_right (by decide)
    subst hz
    decide
  · have hne : significand * 2 ^ scale ≠ 0 := Nat.ne_of_gt (Nat.mul_pos hs hpow)
    have hupper : Nat.log2 (significand * 2 ^ scale) < 53 + scale := by
      rw [Nat.log2_lt hne, Nat.pow_add]
      exact (Nat.mul_lt_mul_right hpow).mpr hlt
    show Nat.log2 (significand * 2 ^ scale) - 52 = scale
    -- Below the normal numbers the scale is zero; from them on the leading bit is set.
    rcases hform with rfl | hbig
    · omega
    · have hlower : 52 + scale ≤ Nat.log2 (significand * 2 ^ scale) := by
        rw [Nat.le_log2 hne, Nat.pow_add]
        exact Nat.mul_le_mul_right _ hbig
      omega

end FiniteFloat

namespace Binary64

theorem ofRatio_units (x : FiniteFloat) : ofRatio x.negative x.units unitsPerOne = .finite x := by
  have hpos := unitsPerOne_pos
  have hdiv : x.units * unitsPerOne / unitsPerOne = x.units := Nat.mul_div_cancel _ hpos
  have hround : roundHalfEven (x.units * unitsPerOne) (unitsPerOne * Nat.pow 2 x.scale)
      = x.significand := by
    rw [FiniteFloat.units, Nat.mul_assoc, Nat.mul_comm (Nat.pow 2 x.scale)]
    exact roundHalfEven_exact (Nat.mul_pos hpos (Nat.pow_pos (by decide))) _
  have hne : x.significand ≠ Nat.pow 2 53 := Nat.ne_of_lt x.canonical.1
  simp only [ofRatio, hdiv, FiniteFloat.log2_units, hround, if_neg hne, ofForm,
    dif_pos x.canonical]

/-- The significand that a large number is rounded to has 53 bits, or is the power of two above. -/
theorem roundHalfEven_log2 {m : Nat} (scale : Nat) (hm : m ≠ 0) (h : Nat.log2 m = scale + 52) :
    Nat.pow 2 52 ≤ roundHalfEven m (1 * Nat.pow 2 scale)
      ∧ roundHalfEven m (1 * Nat.pow 2 scale) ≤ Nat.pow 2 53 := by
  rw [Nat.one_mul]
  constructor
  · refine Nat.le_trans ?_ (le_roundHalfEven _ _)
    rw [Nat.le_div_iff_mul_le (two_pow_pos scale)]
    have hp : Nat.pow 2 52 * Nat.pow 2 scale = 2 ^ Nat.log2 m := by
      rw [h, Nat.add_comm]
      exact (Nat.pow_add 2 52 scale).symm
    exact Nat.le_trans (Nat.le_of_eq hp) (Nat.log2_self_le hm)
  · refine roundHalfEven_le ?_
    have hp : Nat.pow 2 53 * Nat.pow 2 scale = 2 ^ (Nat.log2 m + 1) := by
      rw [h, Nat.add_right_comm, Nat.add_assoc, Nat.add_comm]
      exact (Nat.pow_add 2 53 scale).symm
    exact Nat.lt_of_lt_of_le Nat.lt_log2_self (Nat.le_of_eq hp.symm)

theorem exists_ofForm_eq_finite (negative : Bool) {significand scale : Nat} (hs : scale ≤ 2044)
    (hlow : Nat.pow 2 52 ≤ significand) (hhigh : significand ≤ Nat.pow 2 53) :
    ∃ x, (if significand = Nat.pow 2 53 then ofForm negative (Nat.pow 2 52) (scale + 1)
      else ofForm negative significand scale) = .finite x := by
  split
  · have hc : Canonical (Nat.pow 2 52) (scale + 1) :=
      ⟨by decide, by omega, Or.inr (Nat.le_refl _)⟩
    exact ⟨_, dif_pos hc⟩
  · rename_i hne
    have hc : Canonical significand scale :=
      ⟨Nat.lt_of_le_of_ne hhigh hne, by omega, Or.inr hlow⟩
    exact ⟨_, dif_pos hc⟩

theorem exists_ofRatio_one_eq_finite (negative : Bool) {n : Nat} (h : n < 2 ^ 64) :
    ∃ x, ofRatio negative n 1 = .finite x := by
  rcases Nat.eq_zero_or_pos n with rfl | hn
  · refine ⟨.zero negative, ?_⟩
    simp [ofRatio, roundHalfEven, ofForm]
    rfl
  · have hm : n * unitsPerOne ≠ 0 := Nat.ne_of_gt (Nat.mul_pos hn unitsPerOne_pos)
    have hlog : 1074 ≤ Nat.log2 (n * unitsPerOne) ∧ Nat.log2 (n * unitsPerOne) < 64 + 1074 := by
      obtain ⟨u, hu, hU⟩ := exists_unitsPerOne_eq
      rw [Nat.le_log2 hm, Nat.log2_lt hm, ← hu, hU, Nat.pow_add]
      exact ⟨Nat.le_mul_of_pos_left _ hn, (Nat.mul_lt_mul_right (two_pow_pos u)).mpr h⟩
    -- Only the place of the leading bit is used, so the product itself is made abstract.
    simp only [ofRatio, Nat.div_one]
    generalize n * unitsPerOne = m at hm hlog ⊢
    obtain ⟨hlow, hhigh⟩ := roundHalfEven_log2 (Nat.log2 m - 52) hm (by omega)
    exact exists_ofForm_eq_finite negative (by omega) hlow hhigh

theorem exists_ofInt_eq_finite {n : Int} (h : n.natAbs < 2 ^ 64) : ∃ x, ofInt n = .finite x :=
  exists_ofRatio_one_eq_finite _ h

end Binary64

end ListQuery.Numeric
