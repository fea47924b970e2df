/-
UTF-8 read back.

* `decode_encode` — the octets of characters are read as these characters.

Design notes: a character's first octet fixes how many follow and between which bounds the second one
lies.  Since no character is a surrogate or past U+10FFFF, and each has its shortest form, the second
octet always lies there.
-/
import ListQuery.Text.Utf8

namespace ListQuery.Text.Utf8

theorem toNat_ofNat {n : Nat} (h : n < 256) : (UInt8.ofNat n).toNat = n :=
  UInt8.toNat_ofNat_of_lt' h

variable {b : Nat} {p : Pending} {rest : List UInt8}

theorem decodeFrom_ascii (h : b < 0x80) :
    decodeFrom none (UInt8.ofNat b :: rest) = Char.ofNat b :: decodeFrom none rest := by
  rw [decodeFrom, toNat_ofNat (by omega), step, first, if_pos h]
  rfl

theorem decodeFrom_lead (hb : b < 256) (hlead : ¬b < 0x80) (h : Pending.ofFirst? b = some p) :
    decodeFrom none (UInt8.ofNat b :: rest) = decodeFrom (some p) rest := by
  rw [decodeFrom, toNat_ofNat hb, step, first, if_neg hlead, h]
  rfl

theorem decodeFrom_tail (hb : b < 256) (h : p.low ≤ b ∧ b ≤ p.high) (howed : ¬p.owed ≤ 1) :
    decodeFrom (some p) (UInt8.ofNat b :: rest)
      = decodeFrom (some ⟨p.owed - 1, 0x80, 0xBF, p.bits * 64 + (b - 0x80)⟩) rest := by
  rw [decodeFrom, toNat_ofNat hb, step, if_pos h]
  simp only [if_neg howed]
  rfl

theorem decodeFrom_last (hb : b < 256) (h : p.low ≤ b ∧ b ≤ p.high) (howed : p.owed ≤ 1) :
    decodeFrom (some p) (UInt8.ofNat b :: rest)
      = Char.ofNat (p.bits * 64 + (b - 0x80)) :: decodeFrom none rest := by
  rw [decodeFrom, toNat_ofNat hb, step, if_pos h]
  simp only [if_pos howed]
  rfl

theorem tail_bounds (n : Nat) : 0x80 ≤ n % 64 + 0x80 ∧ n % 64 + 0x80 ≤ 0xBF := by
  omega

/-! ### First octets -/

theorem ofFirst?_two {n : Nat} (hlow : 0x80 ≤ n) (hhigh : n ≤ 0x7FF) :
    Pending.ofFirst? (n / 64 % 32 + 0xC0) = some ⟨1, 0x80, 0xBF, n / 64⟩ := by
  have hfirst : n / 64 % 32 + 0xC0 = n / 64 + 0xC0 := by omega
  rw [hfirst, Pending.ofFirst?, if_pos (by omega), Nat.add_sub_cancel]

/-- The first of three octets admits the second one. -/
theorem exists_ofFirst?_three {n : Nat} (hlow : 0x800 ≤ n) (hhigh : n ≤ 0xFFFF)
    (hvalid : n < 0xD800 ∨ 0xDFFF < n) :
    ∃ low high, Pending.ofFirst? (n / 4096 % 16 + 0xE0) = some ⟨2, low, high, n / 4096⟩
      ∧ low ≤ n / 64 % 64 + 0x80 ∧ n / 64 % 64 + 0x80 ≤ high := by
  have hfirst : n / 4096 % 16 + 0xE0 = n / 4096 + 0xE0 := by omega
  rw [hfirst, Pending.ofFirst?, if_neg (by omega)]
  by_cases hzero : n / 4096 = 0
  · rw [if_pos (by omega), hzero]
    exact ⟨_, _, rfl, by omega, by omega⟩
  · rw [if_neg (by omega)]
    by_cases hd : n / 4096 = 0xD
    · rw [if_pos (by omega), hd]
      exact ⟨_, _, rfl, by omega, by omega⟩
    · rw [if_neg (by omega), if_pos (by omega), Nat.add_sub_cancel]
      exact ⟨_, _, rfl, by omega, by omega⟩

/-- The first of four octets admits the second one. -/
theorem exists_ofFirst?_four {n : Nat} (hlow : 0x10000 ≤ n) (hhigh : n < 0x110000) :
    ∃ low high, Pending.ofFirst? (n / 262144 % 8 + 0xF0) = some ⟨3, low, high, n / 262144⟩
      ∧ low ≤ n / 4096 % 64 + 0x80 ∧ n / 4096 % 64 + 0x80 ≤ high := by
  have hfirst : n / 262144 % 8 + 0xF0 = n / 262144 + 0xF0 := by omega
  rw [hfirst, Pending.ofFirst?, if_neg (by omega), if_neg (by omega), if_neg (by omega),
    if_neg (by omega)]
  by_cases hzero : n / 262144 = 0
  · rw [if_pos (by omega), hzero]
    exact ⟨_, _, rfl, by omega, by omega⟩
  · rw [if_neg (by omega)]
    by_cases hfour : n / 262144 = 4
    · rw [if_neg (by omega), if_pos (by omega), hfour]
      exact ⟨_, _, rfl, by omega, by omega⟩
    · rw [if_pos (by omega), Nat.add_sub_cancel]
      exact ⟨_, _, rfl, by omega, by omega⟩

/-! ### Characters -/

theorem decodeFrom_encodeChar (c : Char) (rest : List UInt8) :
    decodeFrom none (String.utf8EncodeChar c ++ rest) = c :: decodeFrom none rest := by
  have hvalid : c.toNat < 0xD800 ∨ 0xDFFF < c.toNat ∧ c.toNat < 0x110000 := c.valid
  have hback : Char.ofNat c.toNat = c := Char.ofNat_toNat c
  have hval : c.val.toNat = c.toNat := rfl
  simp only [String.utf8EncodeChar, hval]
  -- Only the number of the character matters from here on: one to four octets by its size.
  generalize c.toNat = n at hvalid hback
  split
  · rw [List.cons_append, List.nil_append, decodeFrom_ascii (by omega), hback]
  · split
    · rw [List.cons_append, List.cons_append, List.nil_append,
        decodeFrom_lead (by omega) (by omega) (ofFirst?_two (by omega) (by assumption)),
        decodeFrom_last (by omega) (tail_bounds _) (Nat.le_refl 1)]
      have hbits : n / 64 * 64 + (n % 64 + 0x80 - 0x80) = n := by omega
      rw [hbits, hback]
    · split
      · obtain ⟨low, high, hfirst, hbounds⟩ :=
          exists_ofFirst?_three (n := n) (by omega) (by omega) (by omega)
        rw [List.cons_append, List.cons_append, List.cons_append, List.nil_append,
          decodeFrom_lead (by omega) (by omega) hfirst, decodeFrom_tail (by omega) hbounds (by simp),
          decodeFrom_last (by omega) (tail_bounds _) (Nat.le_refl 1)]
        have hbits : (n / 4096 * 64 + (n / 64 % 64 + 0x80 - 0x80)) * 64 + (n % 64 + 0x80 - 0x80)
            = n := by omega
        rw [hbits, hback]
      · obtain ⟨low, high, hfirst, hbounds⟩ :=
          exists_ofFirst?_four (n := n) (by omega) (by omega)
        rw [List.cons_append, List.cons_append, List.cons_append, List.cons_append,
          List.nil_append, decodeFrom_lead (by omega) (by omega) hfirst,
          decodeFrom_tail (by omega) hbounds (by simp),
          decodeFrom_tail (by omega) (tail_bounds _) (by simp),
          decodeFrom_last (by omega) (tail_bounds _) (Nat.le_refl 1)]
        have hbits : ((n / 262144 * 64 + (n / 4096 % 64 + 0x80 - 0x80)) * 64
            + (n / 64 % 64 + 0x80 - 0x80)) * 64 + (n % 64 + 0x80 - 0x80) = n := by omega
        rw [hbits, hback]

theorem decode_encode (cs : List Char) : decode (encode cs) = cs := by
  rw [decode, encode]
  induction cs with
  | nil => rfl
  | cons c cs ih => rw [List.flatMap_cons, decodeFrom_encodeChar, ih]

/-- A character of ASCII is one octet. -/
theorem encode_cons_ascii {c : Char} (h : c.toNat < 0x80) (cs : List Char) :
    encode (c :: cs) = UInt8.ofNat c.toNat :: encode cs := by
  have hle : c.val.toNat ≤ 0x7F := Nat.le_of_lt_succ h
  rw [encode, List.flatMap_cons, String.utf8EncodeChar, if_pos hle]
  rfl

end ListQuery.Text.Utf8
