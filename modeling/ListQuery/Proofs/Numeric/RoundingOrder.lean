/-
Rounding integers keeps their order.

Integers of up to 64 bits round to finite numbers.  Two of them may round to one number, but the
greater one never to the smaller number, and the text of an integer spells the number that it rounds to.

* `roundedUnits_mono` — rounding a number of units to 53 bits is monotone;
* `roundedUnits_units` and `roundedUnits_small` — it changes neither the numbers that are represented nor
  the integers up to `2 ^ 53`;
* `scaled_of_ofInt` — the number that an integer is rounded to, with its sign;
* `order?_ofInt` — so integers in order round to numbers in order;
* `float?_signed` — the decimal text of an integer is read as the number nearest to the integer.

Design notes: the magnitudes are compared in units, where each of them is a significand of 53 bits and a
power of two.  If the scales differ, the smaller number lies below the power of two from which the
greater scale is used.
-/
import ListQuery.Proofs.Numeric.ShortestReadsBack

namespace ListQuery.Numeric

open Text

/-! ### Magnitudes -/

theorem roundHalfEven_mono {a b : Nat} (den : Nat) (h : a ≤ b) :
    roundHalfEven a den ≤ roundHalfEven b den := by
  have hquotients : a / den ≤ b / den := Nat.div_le_div_right h
  rcases Nat.lt_or_eq_of_le hquotients with hlt | heq
  · have hup : roundHalfEven a den ≤ a / den + 1 := by
      simp only [roundHalfEven]
      split <;> omega
    exact Nat.le_trans (Nat.le_trans hup hlt) (le_roundHalfEven b den)
  · -- With one quotient, what decides is the remainder, and the greater number has the greater one.
    have hremainders : a % den ≤ b % den := by
      have ha := Nat.div_add_mod a den
      have hb := Nat.div_add_mod b den
      rw [heq] at ha
      omega
    simp only [roundHalfEven, heq]
    split <;> split <;> omega

/-- A number of units rounded to 53 bits. -/
def roundedUnits (n : Nat) : Nat :=
  roundHalfEven n (1 * Nat.pow 2 (Nat.log2 n - 52)) * Nat.pow 2 (Nat.log2 n - 52)

theorem roundedUnits_mono {a b : Nat} (h : a ≤ b) : roundedUnits a ≤ roundedUnits b := by
  rcases Nat.eq_zero_or_pos a with rfl | ha
  · simp [roundedUnits, roundHalfEven]
  have hb : b ≠ 0 := by omega
  have hlogs : Nat.log2 a ≤ Nat.log2 b := by
    rw [Nat.le_log2 hb]
    exact Nat.le_trans (Nat.log2_self_le (by omega)) h
  simp only [roundedUnits]
  rcases Nat.lt_or_eq_of_le (Nat.sub_le_sub_right hlogs 52) with hscales | hscales
  · -- The smaller number stays below the power of two where the scale of the greater one starts.
    have hsmall : roundHalfEven a (1 * Nat.pow 2 (Nat.log2 a - 52)) ≤ Nat.pow 2 53 := by
      refine roundHalfEven_le ?_
      rw [Nat.one_mul]
      have hp : Nat.pow 2 53 * Nat.pow 2 (Nat.log2 a - 52) = 2 ^ (53 + (Nat.log2 a - 52)) :=
        (Nat.pow_add 2 53 _).symm
      rw [hp, ← Nat.log2_lt (by omega)]
      omega
    have hlarge := (Binary64.roundHalfEven_log2 (Nat.log2 b - 52) hb (by omega)).1
    have hpowers : Nat.pow 2 53 * Nat.pow 2 (Nat.log2 a - 52)
        ≤ Nat.pow 2 52 * Nat.pow 2 (Nat.log2 b - 52) := by
      show 2 ^ 53 * 2 ^ (Nat.log2 a - 52) ≤ 2 ^ 52 * 2 ^ (Nat.log2 b - 52)
      rw [← Nat.pow_add, ← Nat.pow_add]
      exact Nat.pow_le_pow_right (by decide) (by omega)
    exact Nat.le_trans (Nat.mul_le_mul_right _ hsmall)
      (Nat.le_trans hpowers (Nat.mul_le_mul_right _ hlarge))
  · rw [hscales]
    exact Nat.mul_le_mul_right _ (roundHalfEven_mono _ h)

theorem roundedUnits_of_dvd {n : Nat} (h : 2 ^ (Nat.log2 n - 52) ∣ n) : roundedUnits n = n := by
  rw [roundedUnits, Nat.one_mul]
  show roundHalfEven n (2 ^ (Nat.log2 n - 52)) * 2 ^ (Nat.log2 n - 52) = n
  generalize 2 ^ (Nat.log2 n - 52) = p at h
  obtain ⟨k, rfl⟩ := h
  rcases Nat.eq_zero_or_pos p with rfl | hp
  · simp
  · rw [Nat.mul_comm p k, roundHalfEven_exact hp]

/-- A number that is represented is rounded to itself. -/
theorem roundedUnits_units (x : FiniteFloat) : roundedUnits x.units = x.units := by
  refine roundedUnits_of_dvd ?_
  rw [FiniteFloat.log2_units]
  exact Nat.dvd_mul_left _ _

/-- Up to `2 ^ 53` no number is changed. -/
theorem roundedUnits_small {n : Nat} (h : n ≤ 2 ^ 53) :
    roundedUnits (n * unitsPerOne) = n * unitsPerOne := by
  obtain ⟨u, -, hU⟩ := exists_unitsPerOne_eq
  replace hU : unitsPerOne = 2 ^ u := hU
  rw [hU]
  rcases Nat.eq_zero_or_pos n with rfl | hn
  · simp [roundedUnits, roundHalfEven]
  refine roundedUnits_of_dvd ?_
  have hne : n * 2 ^ u ≠ 0 := Nat.ne_of_gt (Nat.mul_pos hn (Nat.pow_pos (by decide)))
  rcases Nat.lt_or_eq_of_le h with hlt | rfl
  · have hlog : Nat.log2 (n * 2 ^ u) < 53 + u := by
      rw [Nat.log2_lt hne, Nat.pow_add]
      exact (Nat.mul_lt_mul_right (Nat.pow_pos (by decide))).mpr hlt
    exact Nat.dvd_trans (Nat.pow_dvd_pow 2 (by omega)) (Nat.dvd_mul_left _ _)
  · -- The power of two has one bit more than a significand, and all but the first one are zero.
    rw [← Nat.pow_add, Nat.log2_two_pow]
    exact Nat.pow_dvd_pow 2 (by omega)

namespace Binary64

theorem units_of_ofForm {negative : Bool} {significand scale : Nat} {x : FiniteFloat}
    (h : ofForm negative significand scale = .finite x) :
    x.negative = negative ∧ x.units = significand * Nat.pow 2 scale := by
  rw [ofForm] at h
  split at h
  · obtain rfl := Binary64.finite.inj h
    exact ⟨rfl, rfl⟩
  · simp at h

theorem units_of_ofRatio {negative : Bool} {n : Nat} {x : FiniteFloat}
    (h : ofRatio negative n 1 = .finite x) :
    x.negative = negative ∧ x.units = roundedUnits (n * unitsPerOne) := by
  simp only [ofRatio, Nat.div_one] at h
  simp only [roundedUnits]
  generalize n * unitsPerOne = m at h ⊢
  split at h
  · rename_i hcarry
    obtain ⟨hsign, hunits⟩ := units_of_ofForm h
    refine ⟨hsign, ?_⟩
    -- The significand that has become a power of two gives one bit to the scale.
    have hpow : Nat.pow 2 (Nat.log2 m - 52 + 1) = 2 * Nat.pow 2 (Nat.log2 m - 52) :=
      Nat.pow_succ'
    rw [hunits, hcarry, hpow, ← Nat.mul_assoc]
  · exact units_of_ofForm h

end Binary64

/-! ### Signs -/

/-- A number of units with a sign, rounded to 53 bits. -/
def roundedScaled (k : Int) : Int :=
  if k < 0 then -(roundedUnits k.natAbs : Int) else roundedUnits k.natAbs

theorem roundedScaled_mono {j k : Int} (h : j ≤ k) : roundedScaled j ≤ roundedScaled k := by
  -- Below zero the order of the magnitudes is turned round.
  by_cases hj : j < 0 <;> by_cases hk : k < 0 <;>
    simp only [roundedScaled, hj, hk, if_true, if_false]
  · have hmagnitudes := roundedUnits_mono (show k.natAbs ≤ j.natAbs by omega)
    omega
  · omega
  · omega
  · have hmagnitudes := roundedUnits_mono (show j.natAbs ≤ k.natAbs by omega)
    omega

theorem roundedScaled_eq_self {k : Int} (h : roundedUnits k.natAbs = k.natAbs) :
    roundedScaled k = k := by
  rw [roundedScaled, h]
  split <;> omega

theorem roundedScaled_scaled (x : FiniteFloat) : roundedScaled x.scaled = x.scaled := by
  have hmagnitude : x.scaled.natAbs = x.units := by
    rw [FiniteFloat.scaled]
    split <;> omega
  refine roundedScaled_eq_self ?_
  rw [hmagnitude, roundedUnits_units]

theorem roundedScaled_small {n : Int} (h : n.natAbs ≤ 2 ^ 53) :
    roundedScaled (n * unitsPerOne) = n * unitsPerOne := by
  refine roundedScaled_eq_self ?_
  rw [Int.natAbs_mul, Int.natAbs_natCast, roundedUnits_small h]

namespace Binary64

theorem scaled_of_ofInt {n : Int} {x : FiniteFloat} (h : ofInt n = .finite x) :
    x.scaled = roundedScaled (n * unitsPerOne) := by
  obtain ⟨hsign, hunits⟩ := units_of_ofRatio h
  have hpos : (0 : Int) < unitsPerOne := Int.natCast_pos.mpr unitsPerOne_pos
  have hneg : n * unitsPerOne < 0 ↔ n < 0 := by
    rw [← Int.mul_lt_mul_right hpos (b := n) (c := 0), Int.zero_mul]
  rw [FiniteFloat.scaled, hsign, hunits, roundedScaled, Int.natAbs_mul, Int.natAbs_natCast]
  simp only [hneg, decide_eq_true_eq]

/-- Integers in order round to numbers in order. -/
theorem order?_ofInt {m n : Int} (hm : m.natAbs < 2 ^ 64) (hn : n.natAbs < 2 ^ 64) (h : m ≤ n) :
    (ofInt m).order? (ofInt n) ≠ some .gt := by
  obtain ⟨x, hx⟩ := exists_ofInt_eq_finite hm
  obtain ⟨y, hy⟩ := exists_ofInt_eq_finite hn
  have hscaled : x.scaled ≤ y.scaled := by
    rw [scaled_of_ofInt hx, scaled_of_ofInt hy]
    exact roundedScaled_mono (Int.mul_le_mul_of_nonneg_right h (Int.natCast_nonneg _))
  rw [hx, hy]
  show some (compare x.scaled y.scaled) ≠ some .gt
  rw [ne_eq, Option.some.injEq, Int.compare_eq_gt]
  omega

end Binary64

/-! ### Texts of integers -/

namespace Binary64

/-- An integer of few digits is not settled by its length. -/
theorem ofDecimal_natural (negative : Bool) {n : Nat} (h : n < 2 ^ 64) :
    ofDecimal negative n 0 = ofRatio negative n 1 := by
  rcases Nat.eq_zero_or_pos n with rfl | hpos
  · rw [ofDecimal_zero]
    simp [ofRatio, roundHalfEven, ofForm]
    rfl
  · have hlength : decimalLength n ≤ 20 := by
      refine FiniteFloat.decimalLength_le (by decide) (Nat.lt_of_lt_of_le h ?_)
      decide
    rw [ofDecimal_eq, if_neg (by omega), if_neg (by omega)]
    show ofRatio negative (n * 10 ^ 0) 1 = ofRatio negative n 1
    rw [Nat.pow_zero, Nat.mul_one]

end Binary64

theorem toBinary64_integerParts {n : Int} (h : n.natAbs < 2 ^ 64) :
    (integerParts n).toBinary64 = .ofInt n := by
  cases n with
  | ofNat n =>
    have hnegative : decide (Int.ofNat n < 0) = false := decide_eq_false (by simp)
    rw [Binary64.ofInt, hnegative, ← Binary64.ofDecimal_natural false h]
    simp [integerParts, NumberText.ofWhole, NumberText.toBinary64, NumberText.exponentValue,
      NumberText.isNegative]
  | negSucc n =>
    have hnegative : decide (Int.negSucc n < 0) = true := decide_eq_true (Int.negSucc_lt_zero n)
    rw [Binary64.ofInt, hnegative, ← Binary64.ofDecimal_natural true h]
    simp [integerParts, NumberText.ofWhole, NumberText.toBinary64, NumberText.exponentValue,
      NumberText.isNegative]

/-- The decimal text of an integer spells the number nearest to it. -/
theorem float?_signed {n : Int} (h : n.natAbs < 2 ^ 64) : float? (signed n) = some (.ofInt n) := by
  have hdigits : ((integerParts n).whole ++ (integerParts n).fraction.getD []).isEmpty = false := by
    cases n <;> simp [integerParts, NumberText.ofWhole, decimal_ne_nil]
  have hexponent : (integerParts n).hasExponentDigits = true := by
    cases n <;> rfl
  rw [float?, scan_signed]
  simp only [hdigits, hexponent, Bool.not_false, Bool.and_self, if_true, toBinary64_integerParts h]

end ListQuery.Numeric
