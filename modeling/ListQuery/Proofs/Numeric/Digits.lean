/-
Decimal digits read back.

`NumberText.chars` writes the parts of a number one after the other, and the scanner takes any such
text apart again:

* `natOf_decimal` — the digits of a natural number stand for it;
* `scan_chars` — a text of parts that hold digits only is split into those parts;
* `integer?_signed` — the decimal text of an integer of 64 bits is read as that integer.

Design notes: every number that the library writes is `NumberText.chars` of some parts, so each format
needs to say only which parts it writes.
-/
import ListQuery.Numeric.NumberText
import ListQuery.Proofs.Text.Trimming
import Mathlib.Algebra.Group.Nat.Defs

namespace ListQuery.Numeric

open Text

theorem isDigit_of_mem_decimal {n : Nat} {c : Char} (h : c ∈ decimal n) : c.isDigit = true :=
  Nat.isDigit_of_mem_toDigits (by decide) (by decide) h

theorem decimal_ne_nil (n : Nat) : decimal n ≠ [] :=
  Nat.toDigits_ne_nil

/-! ### Values of digits -/

namespace NumberText

theorem natOf_eq_ofDigitChars (ds : List Char) : natOf ds = Nat.ofDigitChars 10 ds 0 := by
  rw [natOf, Text.ofDigits, List.foldl_map, Nat.ofDigitChars_eq_foldl]
  simp only [Nat.mul_comm]

@[simp] theorem natOf_decimal (n : Nat) : natOf (decimal n) = n := by
  rw [natOf_eq_ofDigitChars]
  exact Nat.ofDigitChars_ten_toDigits

theorem natOf_append (as bs : List Char) :
    natOf (as ++ bs) = natOf as * 10 ^ bs.length + natOf bs := by
  rw [natOf_eq_ofDigitChars, Nat.ofDigitChars_append, Nat.ofDigitChars_eq_ofDigitChars_zero,
    ← natOf_eq_ofDigitChars, ← natOf_eq_ofDigitChars, Nat.mul_comm]

@[simp] theorem natOf_replicate_zero (n : Nat) : natOf (List.replicate n '0') = 0 := by
  rw [natOf_eq_ofDigitChars, Nat.ofDigitChars_replicate_zero, Nat.mul_zero]

/-! ### Texts of parts -/

/-- A sign as it is written. -/
def signChars : Option Sign → List Char
  | none => []
  | some .plus => ['+']
  | some .minus => ['-']

/-- The digits after the point, with the point. -/
def fractionChars : Option (List Char) → List Char
  | none => []
  | some ds => '.' :: ds

/-- An exponent as it is written. -/
def exponentChars : Option (Option Sign × List Char) → List Char
  | none => []
  | some (sign, ds) => 'e' :: signChars sign ++ ds

/-- The text that the parts make up. -/
def chars (t : NumberText) : List Char :=
  signChars t.sign ++ t.whole ++ fractionChars t.fraction ++ exponentChars t.exponent

/-- Parts that hold digits where digits are to stand. -/
structure AllDigits (t : NumberText) : Prop where
  whole : ∀ c ∈ t.whole, c.isDigit = true
  fraction : ∀ ds, t.fraction = some ds → ∀ c ∈ ds, c.isDigit = true
  exponent : ∀ sign ds, t.exponent = some (sign, ds) → ∀ c ∈ ds, c.isDigit = true

/-- The characters of a number's text: digits, signs, the point and the letter of an exponent. -/
theorem mem_chars {t : NumberText} (h : t.AllDigits) {c : Char} (hc : c ∈ t.chars) :
    c.isDigit = true ∨ c = '-' ∨ c = '+' ∨ c = '.' ∨ c = 'e' := by
  have hsign : ∀ sign, c ∈ signChars sign → c = '-' ∨ c = '+' := by
    rintro (_ | _ | _) hc <;> simp [signChars] at hc <;> simp [hc]
  rw [chars, List.mem_append, List.mem_append, List.mem_append] at hc
  rcases hc with ((hc | hc) | hc) | hc
  · rcases hsign _ hc with hc | hc <;> simp [hc]
  · exact Or.inl (h.whole c hc)
  · cases hf : t.fraction with
    | none => simp [hf, fractionChars] at hc
    | some ds =>
      rw [hf, fractionChars, List.mem_cons] at hc
      rcases hc with hc | hc
      · simp [hc]
      · exact Or.inl (h.fraction ds hf c hc)
  · cases he : t.exponent with
    | none => simp [he, exponentChars] at hc
    | some e =>
      obtain ⟨sign, ds⟩ := e
      rw [he, exponentChars, List.mem_append, List.mem_cons] at hc
      rcases hc with (hc | hc) | hc
      · simp [hc]
      · rcases hsign _ hc with hc | hc <;> simp [hc]
      · exact Or.inl (h.exponent sign ds he c hc)

/-- A text that goes on with no digit. -/
def NoDigitFirst (cs : List Char) : Prop :=
  ∀ c, cs.head? = some c → c.isDigit = false

theorem takeWhile_digits {ds rest : List Char} (hd : ∀ c ∈ ds, c.isDigit = true)
    (hr : NoDigitFirst rest) : (ds ++ rest).takeWhile Char.isDigit = ds :=
  (takeWhile_append_stop hd hr).1

theorem dropWhile_digits {ds rest : List Char} (hd : ∀ c ∈ ds, c.isDigit = true)
    (hr : NoDigitFirst rest) : (ds ++ rest).dropWhile Char.isDigit = rest :=
  (takeWhile_append_stop hd hr).2

theorem noDigitFirst_exponentChars (e : Option (Option Sign × List Char)) :
    NoDigitFirst (exponentChars e) := by
  intro c hc
  rcases e with _ | ⟨sign, ds⟩
  · simp [exponentChars] at hc
  · simp only [exponentChars, List.cons_append, List.head?_cons, Option.some.injEq] at hc
    subst hc
    rfl

theorem noDigitFirst_fractionChars (f : Option (List Char))
    (e : Option (Option Sign × List Char)) :
    NoDigitFirst (fractionChars f ++ exponentChars e) := by
  cases f with
  | none => exact noDigitFirst_exponentChars e
  | some ds =>
    intro c hc
    simp only [fractionChars, List.cons_append, List.head?_cons, Option.some.injEq] at hc
    subst hc
    rfl

/-- Signs are no digits, so a run of digits has no sign in front that is not there. -/
theorem sign_take_chars (sign : Option Sign) {cs : List Char}
    (h : ∀ c, cs.head? = some c → c ≠ '+' ∧ c ≠ '-') :
    Sign.take (signChars sign ++ cs) = (sign, cs) := by
  rcases sign with _ | _ | _
  · cases cs with
    | nil => rfl
    | cons c cs =>
      obtain ⟨hp, hm⟩ := h c rfl
      simp [signChars, Sign.take, hp, hm]
  · rfl
  · rfl

theorem ne_sign_of_isDigit {c : Char} (h : c.isDigit = true) : c ≠ '+' ∧ c ≠ '-' := by
  constructor <;> rintro rfl <;> exact absurd h (by decide)

theorem head?_ne_sign {ds rest : List Char} (hd : ∀ c ∈ ds, c.isDigit = true)
    (hr : ∀ c, rest.head? = some c → c ≠ '+' ∧ c ≠ '-') :
    ∀ c, (ds ++ rest).head? = some c → c ≠ '+' ∧ c ≠ '-' := by
  intro c hc
  cases ds with
  | nil => exact hr c hc
  | cons d ds =>
    obtain rfl : d = c := by simpa using hc
    exact ne_sign_of_isDigit (hd d List.mem_cons_self)

theorem scanExponent_exponentChars {e : Option (Option Sign × List Char)}
    (h : ∀ sign ds, e = some (sign, ds) → ∀ c ∈ ds, c.isDigit = true) :
    scanExponent (exponentChars e) = some e := by
  rcases e with _ | ⟨sign, ds⟩
  · rfl
  · have hds := h sign ds rfl
    have hsign : Sign.take (signChars sign ++ ds) = (sign, ds) :=
      sign_take_chars sign fun c hc => ne_sign_of_isDigit (hds c (List.mem_of_head? hc))
    simp only [exponentChars, List.cons_append, scanExponent, hsign]
    simpa using hds

theorem scan_chars {t : NumberText} (h : t.AllDigits) : scan t.chars = some t := by
  obtain ⟨sign, whole, fraction, exponent⟩ := t
  -- Without digits in front, a point or an `e` comes first, and neither is taken for a sign.
  have hrest : ∀ c, (fractionChars fraction ++ exponentChars exponent).head? = some c →
      c ≠ '+' ∧ c ≠ '-' := by
    intro c hc
    rcases fraction with _ | ds
    · rcases exponent with _ | ⟨s, ds⟩ <;> simp [fractionChars, exponentChars] at hc
      subst hc
      decide
    · simp only [fractionChars, List.cons_append, List.head?_cons, Option.some.injEq] at hc
      subst hc
      decide
  have htake : Sign.take (chars ⟨sign, whole, fraction, exponent⟩)
      = (sign, whole ++ (fractionChars fraction ++ exponentChars exponent)) := by
    rw [chars, List.append_assoc, List.append_assoc]
    exact sign_take_chars sign (head?_ne_sign h.whole hrest)
  have hfirst := noDigitFirst_fractionChars fraction exponent
  have hexp := scanExponent_exponentChars h.exponent
  simp only [scan, htake, takeWhile_digits h.whole hfirst, dropWhile_digits h.whole hfirst]
  cases fraction with
  | none =>
    rcases exponent with _ | ⟨s, ds⟩
    · rfl
    · show Option.map _ (scanExponent (exponentChars (some (s, ds)))) = _
      rw [hexp]
      rfl
  | some ds =>
    have hds := h.fraction ds rfl
    have he := noDigitFirst_exponentChars exponent
    simp only [fractionChars, List.cons_append, takeWhile_digits hds he,
      dropWhile_digits hds he, hexp]
    rfl

/-- The parts of a run of digits with a sign. -/
def ofWhole (sign : Option Sign) (ds : List Char) : NumberText :=
  ⟨sign, ds, none, none⟩

end NumberText

/-! ### Integers -/

/-- The sign and the digits of an integer. -/
def integerParts : Int → NumberText
  | .ofNat n => .ofWhole none (decimal n)
  | .negSucc n => .ofWhole (some .minus) (decimal (n + 1))

theorem chars_integerParts (n : Int) : (integerParts n).chars = signed n := by
  cases n <;>
    simp [integerParts, NumberText.ofWhole, NumberText.chars, NumberText.signChars,
      NumberText.fractionChars, NumberText.exponentChars, signed]

theorem allDigits_integerParts (n : Int) : (integerParts n).AllDigits := by
  cases n <;>
    exact ⟨fun _ => isDigit_of_mem_decimal, fun _ h => by simp [integerParts, NumberText.ofWhole] at h,
      fun _ _ h => by simp [integerParts, NumberText.ofWhole] at h⟩

theorem scan_signed (n : Int) : NumberText.scan (signed n) = some (integerParts n) := by
  rw [← chars_integerParts, NumberText.scan_chars (allDigits_integerParts n)]

@[simp] theorem wholeValue_integerParts (n : Int) : (integerParts n).wholeValue = n := by
  cases n with
  | ofNat n => simp [integerParts, NumberText.ofWhole, NumberText.wholeValue, NumberText.isNegative]
  | negSucc n =>
    simp [integerParts, NumberText.ofWhole, NumberText.wholeValue, NumberText.isNegative]
    omega

@[simp] theorem isInteger_integerParts (n : Int) : (integerParts n).isInteger = true := by
  cases n <;>
    simp [integerParts, NumberText.ofWhole, NumberText.isInteger, decimal_ne_nil]

theorem integer?_signed (n : Int) : integer? (signed n) = int64? n := by
  simp [integer?, scan_signed]

theorem integer?_decimal (n : Nat) : integer? (decimal n) = int64? n :=
  integer?_signed n

theorem int64?_toInt (n : Int64) : int64? n.toInt = some n := by
  have hlow := Int64.minValue_le_toInt n
  have hhigh := Int64.toInt_le n
  have h : inInt64 n.toInt = true := by
    simp only [inInt64, decide_eq_true_eq]
    exact ⟨hlow, hhigh⟩
  rw [int64?, if_pos h, Int64.ofInt_toInt]

theorem toInt_of_int64? {n : Int} {i : Int64} (h : int64? n = some i) : i.toInt = n := by
  rw [int64?] at h
  split at h
  · rename_i hn
    simp only [inInt64, decide_eq_true_eq] at hn
    obtain rfl := Option.some.inj h
    have hmax : Int64.maxValue.toInt = 2 ^ 63 - 1 := by decide
    exact Int64.toInt_ofInt_of_le hn.1 (by omega)
  · simp at h

/-- No character of an integer's text is blank. -/
theorem isBlank_of_mem_signed {n : Int} {c : Char} (h : c ∈ signed n) : isBlank c = false := by
  have hdigit : ∀ {m : Nat}, c ∈ decimal m → isBlank c = false := by
    intro m hm
    have hc := isDigit_of_mem_decimal hm
    cases hb : isBlank c with
    | false => rfl
    | true => exact absurd hc (by simp [not_isDigit_of_isBlank hb])
  cases n with
  | ofNat n => exact hdigit h
  | negSucc n =>
    rcases List.mem_cons.mp h with rfl | h
    · decide
    · exact hdigit h

@[simp] theorem trimChars_signed (n : Int) : trimChars (signed n) = signed n :=
  trimChars_eq_self_of_forall fun _ => isBlank_of_mem_signed

end ListQuery.Numeric
