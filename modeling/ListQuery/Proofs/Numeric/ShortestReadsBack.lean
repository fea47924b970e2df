/-
The texts of binary64 numbers read back.

The search for the shortest decimal keeps only decimals that read back, and a text is the digits of
such a decimal with a point, zeros or an exponent put where the style wants them.  None of this changes
the value, so reading the text gives the number again:

* `value_shortest` — the shortest decimal of a number reads back as the number;
* `exists_parts_text` — the text of a number in either style splits into parts of that value;
* `float?_plainText` — the text for people is read as the number.
-/
import ListQuery.Numeric.Shortest
import ListQuery.Proofs.Numeric.Rounding

namespace ListQuery.Numeric

open Text

/-! ### Decimals of proper form -/

theorem head?_decimal {n : Nat} (h : 0 < n) : (decimal n).head? ≠ some '0' := by
  induction n using Nat.strongRecOn with
  | _ n ih =>
    by_cases hn : n < 10
    · have hd : n.digitChar ≠ '0' := by
        intro hz
        have hval := Nat.toNat_digitChar_sub_48_of_lt_ten hn
        rw [hz] at hval
        have hzero : (0 : Nat) = n := hval
        omega
      rw [decimal, Nat.toDigits_of_lt_base hn]
      simpa using hd
    · rw [decimal, Nat.toDigits_of_base_le (by decide) (by omega), List.head?_append]
      have hq : 0 < n / 10 := by omega
      have hhead := ih (n / 10) (by omega) hq
      rw [decimal] at hhead
      cases hc : (Nat.toDigits 10 (n / 10)).head? with
      | none => exact absurd (List.head?_eq_none_iff.mp hc) Nat.toDigits_ne_nil
      | some c => rwa [hc] at hhead

theorem exists_zeros (ds : List Char) :
    ∃ k, ds = (ds.reverse.dropWhile (· == '0')).reverse ++ List.replicate k '0' := by
  refine ⟨(ds.reverse.takeWhile (· == '0')).length, ?_⟩
  have hz : ds.reverse.takeWhile (· == '0')
      = List.replicate (ds.reverse.takeWhile (· == '0')).length '0' := by
    refine List.eq_replicate_of_mem fun c hc => ?_
    have hall := List.all_takeWhile (p := (· == '0')) (l := ds.reverse)
    rw [List.all_eq_true] at hall
    exact beq_iff_eq.mp (hall c hc)
  have hsplit := List.takeWhile_append_dropWhile (p := (· == '0')) (l := ds.reverse)
  rw [hz] at hsplit
  have hrev := congrArg List.reverse hsplit
  rw [List.reverse_append, List.reverse_replicate, List.reverse_reverse] at hrev
  exact hrev.symm

namespace Scientific

/-- The number nearest to a decimal, with a sign. -/
def value (negative : Bool) (d : Scientific) : Binary64 :=
  .ofDecimal negative (NumberText.natOf d.digits) (d.exponent - (d.digits.length - 1 : Nat))

/-- Decimals that have digits, and no zero in front but that of zero itself. -/
structure Proper (d : Scientific) : Prop where
  ne_nil : d.digits ≠ []
  digits : ∀ c ∈ d.digits, c.isDigit = true
  first : d.digits.head? ≠ some '0' ∨ d = ⟨['0'], 0⟩

theorem Proper.length_pos {d : Scientific} (h : d.Proper) : 0 < d.digits.length :=
  List.length_pos_iff.mpr h.ne_nil

theorem ofCoefficient_zero (exponent : Int) : ofCoefficient 0 exponent = ⟨['0'], exponent⟩ := by
  simp [ofCoefficient, decimal, Nat.toDigits_zero]

/-- The digits of a coefficient other than zero, the zeros at their end apart. -/
theorem exists_ofCoefficient_eq {coefficient : Nat} (h : 0 < coefficient) (exponent : Int) :
    ∃ ds k, decimal coefficient = ds ++ List.replicate k '0' ∧ ds ≠ [] ∧ ds.head? ≠ some '0'
      ∧ ofCoefficient coefficient exponent
        = ⟨ds, exponent + (ds.length + k - 1 : Nat)⟩ := by
  obtain ⟨k, hk⟩ := exists_zeros (decimal coefficient)
  generalize hds : ((decimal coefficient).reverse.dropWhile (· == '0')).reverse = ds at hk
  have hhead := head?_decimal h
  have hne : ds ≠ [] := by
    rintro rfl
    cases k with
    | zero => exact decimal_ne_nil _ hk
    | succ k => exact hhead (by rw [hk]; rfl)
  refine ⟨ds, k, hk, hne, ?_, ?_⟩
  · obtain ⟨c, cs, rfl⟩ := List.exists_cons_of_ne_nil hne
    rw [hk] at hhead
    exact hhead
  · have hlen : (decimal coefficient).length = ds.length + k := by
      rw [hk, List.length_append, List.length_replicate]
    simp only [ofCoefficient, hds, if_neg hne, hlen]

theorem value_ofCoefficient (negative : Bool) (coefficient : Nat) (exponent : Int) :
    (ofCoefficient coefficient exponent).value negative
      = .ofDecimal negative coefficient exponent := by
  rcases Nat.eq_zero_or_pos coefficient with rfl | h
  · have hz : NumberText.natOf ['0'] = 0 := rfl
    rw [ofCoefficient_zero, value, hz, Binary64.ofDecimal_zero, Binary64.ofDecimal_zero]
  · obtain ⟨ds, k, hk, hne, -, heq⟩ := exists_ofCoefficient_eq h exponent
    have hpos : 0 < ds.length := List.length_pos_iff.mpr hne
    have hc : coefficient = NumberText.natOf ds * 10 ^ k := by
      have hn := NumberText.natOf_decimal coefficient
      rw [hk, NumberText.natOf_append, List.length_replicate, NumberText.natOf_replicate_zero]
        at hn
      omega
    have he : exponent + (ds.length + k - 1 : Nat) - (ds.length - 1 : Nat) = exponent + k := by
      omega
    rw [heq, value, he, ← Binary64.ofDecimal_shift, ← hc]

theorem proper_ofCoefficient {coefficient : Nat} {exponent : Int}
    (h : 0 < coefficient ∨ exponent = 0) : (ofCoefficient coefficient exponent).Proper := by
  rcases Nat.eq_zero_or_pos coefficient with rfl | hpos
  · obtain rfl : exponent = 0 := h.resolve_left (by decide)
    rw [ofCoefficient_zero]
    exact ⟨by simp, by simp, Or.inr rfl⟩
  · obtain ⟨ds, k, hk, hne, hhead, heq⟩ := exists_ofCoefficient_eq hpos exponent
    rw [heq]
    refine ⟨hne, fun c hc => ?_, Or.inl hhead⟩
    exact isDigit_of_mem_decimal (n := coefficient) (by rw [hk]; exact List.mem_append_left _ hc)

end Scientific

/-! ### The search -/

namespace FiniteFloat

theorem readsBack_of_nearestOnGrid {tie : Tie} {x : FiniteFloat} {exponent : Int}
    {coefficient : Nat} (h : x.nearestOnGrid tie exponent = some coefficient) :
    x.ReadsBack coefficient exponent := by
  simp only [nearestOnGrid] at h
  generalize x.units * Nat.pow 10 (-exponent).toNat / (unitsPerOne * Nat.pow 10 exponent.toNat)
    = below at h
  split at h
  all_goals rename_i h₀ h₁
  · simp only [decide_eq_true_eq] at h₀ h₁
    split at h <;>
    · obtain rfl := Option.some.inj h
      split <;> assumption
  · obtain rfl := Option.some.inj h
    exact of_decide_eq_true h₀
  · obtain rfl := Option.some.inj h
    exact of_decide_eq_true h₁
  · simp at h

theorem ofScaled_five_pow (negative : Bool) (n u : Nat) :
    Binary64.ofScaled negative (n * 5 ^ (u + 1)) (.negSucc u)
      = .ofRatio negative n (2 ^ (u + 1)) := by
  have hten : 10 ^ (u + 1) = 2 ^ (u + 1) * 5 ^ (u + 1) := by rw [← Nat.mul_pow]
  show Binary64.ofRatio negative (n * 5 ^ (u + 1)) (10 ^ (u + 1)) = _
  rw [hten, Binary64.ofRatio_mul (Nat.pow_pos (by decide))]

/-- More units than any number has. -/
def unitBound (scale : Nat) : Nat :=
  2 ^ 53 * 2 ^ scale

theorem units_lt (x : FiniteFloat) {scale : Nat} (h : 2045 ≤ scale) : x.units < unitBound scale :=
  Nat.lt_of_lt_of_le ((Nat.mul_lt_mul_right (two_pow_pos _)).mpr x.canonical.1)
    (Nat.mul_le_mul_left _
      (Nat.pow_le_pow_right (by decide) (Nat.le_trans x.canonical.2.1 h)))

theorem lt_decimalLength {n k : Nat} (hk : 0 < k) (h : 10 ^ k ≤ n) : k < decimalLength n := by
  rw [← Nat.not_le, decimalLength, decimal, Nat.length_toDigits_le_iff (by decide) hk, Nat.not_lt]
  exact h

theorem decimalLength_le {n k : Nat} (hk : 0 < k) (h : n < 10 ^ k) : decimalLength n ≤ k := by
  rw [decimalLength, decimal, Nat.length_toDigits_le_iff (by decide) hk]
  exact h

/-- The exact expansion of a number reads back: it has between 674 and 1474 digits, so its value is
not settled by its length. -/
theorem readsBack_exact {x : FiniteFloat} (h : x.units ≠ 0) :
    x.ReadsBack (x.units * Nat.pow 5 1074) (-1074) := by
  -- The power of five is kept abstract after its two bounds, for it is too large to compute with.
  have hfactor : 10 ^ 673 ≤ Nat.pow 5 1074 ∧ unitBound 2045 * Nat.pow 5 1074 < 10 ^ 1474 := by
    decide +kernel
  have hratio : ∀ v, v = 1074 → Binary64.ofScaled x.negative (x.units * Nat.pow 5 v) (.negSucc 1073)
      = .ofRatio x.negative x.units unitsPerOne := by
    intro v hv
    obtain ⟨w, hw, hU⟩ := exists_unitsPerOne_eq
    obtain rfl : w = v := hw.trans hv.symm
    obtain ⟨u, rfl⟩ : ∃ u, w = u + 1 := ⟨1073, hw⟩
    have hu : 1073 = u := (Nat.succ.inj hw).symm
    rewrite [hU, hu]
    exact ofScaled_five_pow x.negative x.units u
  specialize hratio 1074 rfl
  have hunits := x.units_lt (Nat.le_refl 2045)
  rw [ReadsBack, Binary64.ofDecimal_eq]
  generalize Nat.pow 5 1074 = factor at hfactor hratio ⊢
  have hlow : 673 < decimalLength (x.units * factor) :=
    lt_decimalLength (by decide)
      (Nat.le_trans hfactor.1 (Nat.le_mul_of_pos_left _ (Nat.pos_of_ne_zero h)))
  have hhigh : decimalLength (x.units * factor) ≤ 1474 :=
    decimalLength_le (by decide)
      (Nat.lt_of_le_of_lt (Nat.mul_le_mul_right _ (Nat.le_of_lt hunits)) hfactor.2)
  have hne : x.units * factor ≠ 0 := by
    intro hz
    rw [hz] at hlow
    exact absurd hlow (by decide)
  rw [if_neg (by omega), if_neg (by omega)]
  exact hratio.trans (Binary64.ofRatio_units x)

theorem exists_shortest_eq (tie : Tie) (x : FiniteFloat) :
    ∃ coefficient exponent, x.shortest tie = Scientific.ofCoefficient coefficient exponent
      ∧ x.ReadsBack coefficient exponent ∧ (0 < coefficient ∨ exponent = 0) := by
  by_cases hx : x.units = 0
  · refine ⟨0, 0, ?_, ?_, Or.inr rfl⟩
    · rw [shortest, if_pos hx, Scientific.ofCoefficient_zero]
    · rw [ReadsBack, Binary64.ofDecimal_zero, ← eq_zero_of_units hx]
  · -- What reads back as a number other than zero is itself not zero.
    have hpos : ∀ {c e}, x.ReadsBack c e → 0 < c := by
      intro c e hc
      rcases Nat.eq_zero_or_pos c with rfl | h
      · rw [ReadsBack, Binary64.ofDecimal_zero, Binary64.finite.injEq] at hc
        exact absurd (by rw [← hc]; simp [units, zero]) hx
      · exact h
    simp only [shortest, if_neg hx]
    -- Either a short decimal is found on some grid, or the exact expansion is taken.
    cases hf : (List.range 17).findSome? fun (more : Nat) =>
        (x.nearestOnGrid tie (x.leadingExponent - more)).map
          (Scientific.ofCoefficient · (x.leadingExponent - more)) with
    | none =>
      exact ⟨_, _, rfl, readsBack_exact hx, Or.inl (hpos (readsBack_exact hx))⟩
    | some d =>
      obtain ⟨more, -, hmore⟩ := List.exists_of_findSome?_eq_some hf
      obtain ⟨c, hc, rfl⟩ := Option.map_eq_some_iff.mp hmore
      have hback := readsBack_of_nearestOnGrid hc
      exact ⟨c, _, rfl, hback, Or.inl (hpos hback)⟩

theorem value_shortest (tie : Tie) (x : FiniteFloat) :
    (x.shortest tie).value x.negative = .finite x := by
  obtain ⟨c, e, heq, hback, -⟩ := exists_shortest_eq tie x
  rw [heq, Scientific.value_ofCoefficient]
  exact hback

theorem proper_shortest (tie : Tie) (x : FiniteFloat) : (x.shortest tie).Proper := by
  obtain ⟨c, e, heq, -, hpos⟩ := exists_shortest_eq tie x
  rw [heq]
  exact Scientific.proper_ofCoefficient hpos

end FiniteFloat

/-! ### The texts -/

/-- The parts of a decimal that is written without an exponent, a whole number ending in a point and
this many zeros. -/
def positionalParts (zeros : Option Nat) (sign : Option Sign) (d : Scientific) : NumberText :=
  match d.exponent with
  | .negSucc e => ⟨sign, ['0'], some (List.replicate e '0' ++ d.digits), none⟩
  | .ofNat e =>
    if d.digits.length ≤ e + 1 then
      ⟨sign, d.digits ++ List.replicate (e + 1 - d.digits.length) '0',
        zeros.map (List.replicate · '0'), none⟩
    else ⟨sign, d.digits.take (e + 1), some (d.digits.drop (e + 1)), none⟩

/-- The parts of a decimal that is written with an exponent. -/
def exponentParts (sign : Option Sign) (d : Scientific) : NumberText :=
  ⟨sign, d.digits.take 1, if d.digits.length ≤ 1 then none else some (d.digits.drop 1),
    match d.exponent with
    | .ofNat e => some (some .plus, decimal e)
    | .negSucc e => some (some .minus, decimal (e + 1))⟩

/-- A style that ends whole numbers in a point and this many zeros, or in nothing. -/
def FloatStyle.EndsIn (style : FloatStyle) (zeros : Option Nat) : Prop :=
  style.wholeEnd = NumberText.fractionChars (zeros.map (List.replicate · '0'))

theorem endsIn_plain : FloatStyle.plain.EndsIn none := rfl

theorem endsIn_compact : FloatStyle.compact.EndsIn (some 1) := rfl

section Parts

variable {style : FloatStyle} {zeros : Option Nat} {sign : Option Sign} {d : Scientific}

theorem chars_positionalParts (h : style.EndsIn zeros) :
    (positionalParts zeros sign d).chars = NumberText.signChars sign ++ style.positionalText d := by
  obtain ⟨digits, exponent⟩ := d
  rcases exponent with e | e
  · simp only [positionalParts, FloatStyle.positionalText]
    split
    · simp [NumberText.chars, NumberText.exponentChars, show style.wholeEnd = _ from h]
    · simp [NumberText.chars, NumberText.exponentChars, NumberText.fractionChars]
  · simp [positionalParts, FloatStyle.positionalText, NumberText.chars, NumberText.exponentChars,
      NumberText.fractionChars]

theorem chars_exponentParts (h : d.Proper) :
    (exponentParts sign d).chars = NumberText.signChars sign ++ FloatStyle.exponentText d := by
  obtain ⟨digits, exponent⟩ := d
  match digits, h.ne_nil with
  | [c], _ =>
    cases exponent <;>
      simp [exponentParts, FloatStyle.exponentText, NumberText.chars, NumberText.exponentChars,
        NumberText.fractionChars, NumberText.signChars]
  | c :: c' :: cs, _ =>
    cases exponent <;>
      simp [exponentParts, FloatStyle.exponentText, NumberText.chars, NumberText.exponentChars,
        NumberText.fractionChars, NumberText.signChars]

theorem allDigits_positionalParts (h : d.Proper) : (positionalParts zeros sign d).AllDigits := by
  obtain ⟨digits, exponent⟩ := d
  have hd := h.digits
  have hzero : ∀ (n : Nat) (c : Char), c ∈ List.replicate n '0' → c.isDigit = true := by
    intro n c hc
    rw [List.eq_of_mem_replicate hc]
    rfl
  -- The point stands behind all the digits, among them, or in front of them.
  rcases exponent with e | e
  · simp only [positionalParts]
    split
    · refine ⟨fun c hc => ?_, fun ds hds c hc => ?_, by simp⟩
      · exact (List.mem_append.mp hc).elim (hd c) (hzero _ c)
      · obtain ⟨n, -, rfl⟩ := Option.map_eq_some_iff.mp hds
        exact hzero n c hc
    · refine ⟨fun c hc => hd c (List.mem_of_mem_take hc), fun ds hds c hc => ?_, by simp⟩
      obtain rfl := Option.some.inj hds
      exact hd c (List.mem_of_mem_drop hc)
  · refine ⟨fun c hc => ?_, fun ds hds c hc => ?_, by simp [positionalParts]⟩
    · obtain rfl : c = '0' := by simpa [positionalParts] using hc
      rfl
    · obtain rfl := Option.some.inj hds
      exact (List.mem_append.mp hc).elim (hzero _ c) (hd c)

theorem allDigits_exponentParts (h : d.Proper) : (exponentParts sign d).AllDigits := by
  obtain ⟨digits, exponent⟩ := d
  have hd := h.digits
  refine ⟨fun c hc => hd c (List.mem_of_mem_take hc), fun ds hds c hc => ?_, ?_⟩
  · simp only [exponentParts] at hds
    split at hds
    · simp at hds
    · obtain rfl := Option.some.inj hds
      exact hd c (List.mem_of_mem_drop hc)
  · rintro s ds hds c hc
    cases exponent <;>
    · obtain ⟨-, rfl⟩ := Prod.mk.inj (Option.some.inj hds)
      exact isDigit_of_mem_decimal hc

theorem toBinary64_positionalParts (h : d.Proper) :
    (positionalParts zeros sign d).toBinary64 = d.value (sign = some .minus) := by
  obtain ⟨digits, exponent⟩ := d
  have hpos := h.length_pos
  simp only at hpos
  have hval : ∀ (n : Nat), NumberText.natOf (digits ++ List.replicate n '0')
      = NumberText.natOf digits * 10 ^ n := by
    intro n
    rw [NumberText.natOf_append, List.length_replicate, NumberText.natOf_replicate_zero,
      Nat.add_zero]
  rcases exponent with e | e
  · simp only [positionalParts]
    split
    · rename_i hlen
      -- zeros are written out: before the point to reach it, after it for style
      simp only [NumberText.toBinary64, NumberText.exponentValue, NumberText.isNegative,
        Scientific.value, Int.ofNat_eq_natCast]
      cases zeros with
      | none =>
        simp only [Option.map_none, Option.getD_none, List.append_nil, hval,
          Binary64.ofDecimal_shift, List.length_nil]
        congr 1
        omega
      | some n =>
        simp only [Option.map_some, Option.getD_some, List.append_assoc,
          List.replicate_append_replicate, hval, Binary64.ofDecimal_shift, List.length_replicate]
        congr 1
        omega
    · rename_i hlen
      simp only [NumberText.toBinary64, NumberText.exponentValue, NumberText.isNegative,
        Scientific.value, Int.ofNat_eq_natCast, Option.getD_some, List.take_append_drop,
        List.length_drop]
      congr 1
      omega
  · simp only [positionalParts, NumberText.toBinary64, NumberText.exponentValue,
      NumberText.isNegative, Scientific.value, Option.getD_some]
    have hz : NumberText.natOf (['0'] ++ (List.replicate e '0' ++ digits))
        = NumberText.natOf digits := by
      rw [← List.append_assoc, NumberText.natOf_append]
      have hrep : (['0'] : List Char) ++ List.replicate e '0' = List.replicate (e + 1) '0' := rfl
      rw [hrep, NumberText.natOf_replicate_zero, Nat.zero_mul, Nat.zero_add]
    rw [hz, List.length_append, List.length_replicate]
    congr 1
    simp only [Int.negSucc_eq]
    omega

theorem toBinary64_exponentParts (h : d.Proper) :
    (exponentParts sign d).toBinary64 = d.value (sign = some .minus) := by
  obtain ⟨digits, exponent⟩ := d
  have hpos := h.length_pos
  simp only at hpos
  -- The first digit and those behind the point are all the digits, and the exponent counts the latter.
  have hfrac : digits.take 1 ++ (if digits.length ≤ 1 then none else some (digits.drop 1)).getD []
      = digits := by
    split
    · rename_i hlen
      simpa using List.take_of_length_le hlen
    · exact List.take_append_drop 1 digits
  have hlen : ((if digits.length ≤ 1 then none else some (digits.drop 1)).getD []).length
      = digits.length - 1 := by
    split
    · simp only [Option.getD_none, List.length_nil]
      omega
    · simp
  cases exponent <;>
    simp only [exponentParts, NumberText.toBinary64, NumberText.exponentValue,
      NumberText.isNegative, Scientific.value, hfrac, hlen, NumberText.natOf_decimal]
  · rfl
  · congr 1

/-- Parts with digits on both sides of a point and in an exponent, and with no zero in front of other
digits. -/
structure NumberText.Tidy (t : NumberText) : Prop where
  whole : t.whole ≠ []
  first : t.whole.length = 1 ∨ t.whole.head? ≠ some '0'
  fraction : ∀ ds, t.fraction = some ds → ds ≠ []
  exponent : t.hasExponentDigits = true

theorem tidy_positionalParts (h : d.Proper) (hz : zeros ≠ some 0) :
    (positionalParts zeros sign d).Tidy := by
  obtain ⟨digits, exponent⟩ := d
  have hpos := h.length_pos
  have hfirst : digits.head? ≠ some '0' ∨ digits = ['0'] ∧ exponent = 0 := by
    simpa only [Scientific.mk.injEq] using h.first
  -- The point stands behind all the digits, among them, or in front of them.
  rcases exponent with e | e
  · simp only [positionalParts]
    split
    · rename_i hlen
      refine ⟨by simp [h.ne_nil], ?_, fun ds hds => ?_, rfl⟩
      · rcases hfirst with hfirst | ⟨rfl, he⟩
        · right
          obtain ⟨c, cs, rfl⟩ := List.exists_cons_of_ne_nil h.ne_nil
          exact hfirst
        -- The only digits that begin with a zero are those of zero, a single one.
        · left
          obtain rfl : e = 0 := Int.ofNat.inj he
          rfl
      · obtain ⟨n, rfl, rfl⟩ := Option.map_eq_some_iff.mp hds
        cases n with
        | zero => exact absurd rfl hz
        | succ n => simp
    · rename_i hlen
      refine ⟨?_, ?_, fun ds hds => ?_, rfl⟩
      · simp [h.ne_nil]
      · right
        rcases hfirst with hfirst | ⟨rfl, -⟩
        · rwa [List.head?_take, if_neg (Nat.succ_ne_zero e)]
        · simp at hlen
      · obtain rfl := Option.some.inj hds
        rw [← List.length_pos_iff, List.length_drop]
        omega
  · refine ⟨by simp [positionalParts], Or.inl rfl, fun ds hds => ?_, rfl⟩
    obtain rfl := Option.some.inj hds
    simp [h.ne_nil]

theorem tidy_exponentParts (h : d.Proper) : (exponentParts sign d).Tidy := by
  obtain ⟨digits, exponent⟩ := d
  have hpos := h.length_pos
  simp only at hpos
  refine ⟨by simp [exponentParts, h.ne_nil], Or.inl ?_, fun ds hds => ?_, ?_⟩
  · simp only [exponentParts, List.length_take]
    omega
  · simp only [exponentParts] at hds
    split at hds
    · simp at hds
    · obtain rfl := Option.some.inj hds
      rw [← List.length_pos_iff, List.length_drop]
      omega
  · cases exponent <;> simp [exponentParts, NumberText.hasExponentDigits, decimal_ne_nil]

theorem sign_positionalParts : (positionalParts zeros sign d).sign = sign := by
  obtain ⟨digits, exponent⟩ := d
  rcases exponent with e | e
  · simp only [positionalParts]
    split <;> rfl
  · rfl

theorem isInteger_positionalParts (hz : zeros.isSome = true) :
    (positionalParts zeros sign d).isInteger = false := by
  obtain ⟨n, rfl⟩ := Option.isSome_iff_exists.mp hz
  obtain ⟨digits, exponent⟩ := d
  rcases exponent with e | e
  · simp only [positionalParts]
    split <;> simp [NumberText.isInteger]
  · simp [positionalParts, NumberText.isInteger]

theorem isInteger_exponentParts : (exponentParts sign d).isInteger = false := by
  cases he : d.exponent <;> simp [exponentParts, NumberText.isInteger, he]

end Parts

/-- The sign that stands in front of a number. -/
def signOf (negative : Bool) : Option Sign :=
  if negative then some .minus else none

theorem signChars_signOf (negative : Bool) (cs : List Char) :
    NumberText.signChars (signOf negative) ++ cs = if negative then '-' :: cs else cs := by
  cases negative <;> rfl

/-- The text of a number splits into tidy parts of the number's value; where the style ends whole
numbers in a point and zeros, they are not the parts of an integer. -/
theorem exists_parts_text {style : FloatStyle} {zeros : Option Nat} (h : style.EndsIn zeros)
    (hz : zeros ≠ some 0) (x : FiniteFloat) :
    ∃ t : NumberText, style.text x = t.chars ∧ t.AllDigits ∧ t.Tidy ∧ t.sign = signOf x.negative
      ∧ t.toBinary64 = .finite x ∧ (zeros.isSome = true → t.isInteger = false) := by
  have hproper := x.proper_shortest style.tie
  have hvalue := x.value_shortest style.tie
  have hneg : decide (signOf x.negative = some Sign.minus) = x.negative := by
    cases x.negative <;> rfl
  generalize hd : x.shortest style.tie = d at hproper hvalue
  -- The layouts differ in their parts alone: either is tidy and has the value of the decimal.
  by_cases hp : style.positional d.exponent = true
  · refine ⟨positionalParts zeros (signOf x.negative) d, ?_, allDigits_positionalParts hproper,
      tidy_positionalParts hproper hz, sign_positionalParts, ?_, isInteger_positionalParts⟩
    · rw [chars_positionalParts h, signChars_signOf]
      simp only [FloatStyle.text, hd, if_pos hp]
    · rw [toBinary64_positionalParts hproper, hneg, hvalue]
  · refine ⟨exponentParts (signOf x.negative) d, ?_, allDigits_exponentParts hproper,
      tidy_exponentParts hproper, rfl, ?_, fun _ => isInteger_exponentParts⟩
    · rw [chars_exponentParts hproper, signChars_signOf]
      simp only [FloatStyle.text, hd, if_neg hp]
    · rw [toBinary64_exponentParts hproper, hneg, hvalue]

theorem float?_plainText (x : FiniteFloat) :
    float? (Binary64.plainText (.finite x)) = some (.finite x) := by
  obtain ⟨t, htext, hdigits, htidy, -, hval, -⟩ :=
    exists_parts_text endsIn_plain (by simp) x
  have hscan := NumberText.scan_chars hdigits
  have hne : (t.whole ++ t.fraction.getD []).isEmpty = false := by
    simp [htidy.whole]
  simp only [Binary64.plainText, htext, float?, hscan, hne, htidy.exponent, hval]
  rfl

end ListQuery.Numeric
