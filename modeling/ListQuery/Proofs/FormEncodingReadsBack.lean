/-
Query strings read back.

* `decode_encode` — the query string of some pairs is read as these pairs.

Design notes: what is written is ASCII, so the octets of a query string are the code points of its
characters, and the reader's separators never stand inside a name or a value.
-/
import ListQuery.FormEncoding
import ListQuery.Proofs.Text.Utf8

namespace ListQuery.FormEncoding

open Text

/-! ### Characters of names and values -/

/-- A character that may stand inside a name or a value. -/
def IsInner (c : Char) : Prop :=
  c.toNat < 0x80 ∧ c ≠ '&' ∧ c ≠ '=' ∧ c ≠ '?'

/-- The octets of characters of ASCII. -/
def octets (cs : List Char) : List UInt8 :=
  cs.map fun c => UInt8.ofNat c.toNat

theorem octets_append (as bs : List Char) : octets (as ++ bs) = octets as ++ octets bs :=
  List.map_append

theorem encode_ascii {cs : List Char} (h : ∀ c ∈ cs, c.toNat < 0x80) :
    Utf8.encode cs = octets cs := by
  induction cs with
  | nil => rfl
  | cons c cs ih =>
    obtain ⟨hc, hcs⟩ := List.forall_mem_cons.mp h
    rw [Utf8.encode_cons_ascii hc, ih hcs, octets, octets, List.map_cons]

theorem toNat_ofNat_ascii {n : Nat} (h : n < 0x80) : (Char.ofNat n).toNat = n := by
  revert n
  decide

theorem lt_of_isPlain {b : UInt8} (h : isPlain b = true) : b.toNat < 0x80 := by
  rw [isPlain, Bool.and_eq_true, decide_eq_true_eq] at h
  exact UInt8.lt_iff_toNat_lt.mp h.1

theorem octets_plain {b : UInt8} (h : isPlain b = true) : octets [Char.ofNat b.toNat] = [b] := by
  rw [octets, List.map_singleton, toNat_ofNat_ascii (lt_of_isPlain h), UInt8.ofNat_toNat]

theorem isInner_plain {b : UInt8} (h : isPlain b = true) : IsInner (Char.ofNat b.toNat) := by
  have hlt := lt_of_isPlain h
  have hback : UInt8.ofNat (Char.ofNat b.toNat).toNat = b := by
    rw [toNat_ofNat_ascii hlt, UInt8.ofNat_toNat]
  have hne : ∀ d : Char, isPlain (UInt8.ofNat d.toNat) = false → Char.ofNat b.toNat ≠ d := by
    rintro d hd rfl
    rw [hback, h] at hd
    simp at hd
  exact ⟨by rwa [toNat_ofNat_ascii hlt], hne _ (by decide), hne _ (by decide), hne _ (by decide)⟩

theorem hexUpper_spec {d : Nat} (h : d < 16) :
    digit? 16 (hexUpper d) = some d ∧ IsInner (hexUpper d) := by
  have hall : ∀ d < 16, digit? 16 (hexUpper d) = some d ∧ (hexUpper d).toNat < 0x80
      ∧ hexUpper d ≠ '&' ∧ hexUpper d ≠ '=' ∧ hexUpper d ≠ '?' := by decide
  exact hall d h

theorem isInner_of_mem_encodeOctet {b : UInt8} {c : Char} (h : c ∈ encodeOctet b) : IsInner c := by
  have hlt : b.toNat < 256 := b.toNat_lt
  rw [encodeOctet] at h
  split at h
  · rename_i hplain
    rw [List.mem_singleton.mp h]
    exact isInner_plain hplain
  · split at h
    · rw [List.mem_singleton.mp h]
      exact ⟨by decide, by decide, by decide, by decide⟩
    · have hhigh : b.toNat / 16 < 16 := by omega
      simp only [List.mem_cons, List.not_mem_nil, or_false] at h
      rcases h with rfl | rfl | rfl
      · exact ⟨by decide, by decide, by decide, by decide⟩
      · exact (hexUpper_spec hhigh).2
      · exact (hexUpper_spec (Nat.mod_lt _ (by decide))).2

theorem isInner_of_mem_encodeText {s : String} {c : Char} (h : c ∈ encodeText s) : IsInner c := by
  obtain ⟨b, -, hc⟩ := List.mem_flatMap.mp h
  exact isInner_of_mem_encodeOctet hc

/-! ### Escapes -/

theorem decodeOctets_plain {b : UInt8} (hpercent : b ≠ 0x25) (hplus : b ≠ 0x2B)
    (rest : List UInt8) : decodeOctets (b :: rest) = b :: decodeOctets rest := by
  rw [decodeOctets.eq_def]
  split <;> simp_all

theorem decodeOctets_escape {a b : UInt8} {high low : Nat}
    (ha : digit? 16 (Char.ofNat a.toNat) = some high)
    (hb : digit? 16 (Char.ofNat b.toNat) = some low) (rest : List UInt8) :
    decodeOctets (0x25 :: a :: b :: rest) = UInt8.ofNat (high * 16 + low) :: decodeOctets rest := by
  rw [decodeOctets]
  simp only [ha, hb]

theorem digit?_hexUpper {d : Nat} (h : d < 16) :
    digit? 16 (Char.ofNat (UInt8.ofNat (hexUpper d).toNat).toNat) = some d := by
  obtain ⟨hdigit, hascii, -⟩ := hexUpper_spec h
  rw [Utf8.toNat_ofNat (by omega), Char.ofNat_toNat, hdigit]

theorem decodeOctets_encodeOctet (b : UInt8) (rest : List UInt8) :
    decodeOctets (octets (encodeOctet b) ++ rest) = b :: decodeOctets rest := by
  have hlt : b.toNat < 256 := b.toNat_lt
  rw [encodeOctet]
  split
  · rename_i hplain
    rw [octets_plain hplain, List.singleton_append]
    refine decodeOctets_plain ?_ ?_ rest
    · rintro rfl
      exact absurd hplain (by decide)
    · rintro rfl
      exact absurd hplain (by decide)
  · split
    · rename_i hspace
      rw [hspace]
      rfl
    · have hhigh : b.toNat / 16 < 16 := by omega
      have hlow : b.toNat % 16 < 16 := Nat.mod_lt _ (by decide)
      have hvalue : b.toNat / 16 * 16 + b.toNat % 16 = b.toNat := by omega
      refine (decodeOctets_escape (digit?_hexUpper hhigh) (digit?_hexUpper hlow) rest).trans ?_
      rw [hvalue, UInt8.ofNat_toNat]

theorem decodeOctets_flatMap (bs : List UInt8) :
    decodeOctets (octets (bs.flatMap encodeOctet)) = bs := by
  induction bs with
  | nil => rfl
  | cons b bs ih => rw [List.flatMap_cons, octets_append, decodeOctets_encodeOctet, ih]

theorem decodeText_encodeText (s : String) : decodeText (octets (encodeText s)) = s := by
  rw [decodeText, encodeText, decodeOctets_flatMap, Utf8.decode_encode, String.ofList_toList]

/-! ### Pairs -/

/-- An octet that separates is none of a name or a value. -/
theorem ne_of_mem_octets {sep : Char} (hsep : sep = '&' ∨ sep = '=') {s : String} {b : UInt8}
    (h : b ∈ octets (encodeText s)) : b ≠ UInt8.ofNat sep.toNat := by
  obtain ⟨c, hc, rfl⟩ := List.mem_map.mp h
  obtain ⟨hascii, hamp, heq, -⟩ := isInner_of_mem_encodeText hc
  have hsascii : sep.toNat < 0x80 := by rcases hsep with rfl | rfl <;> decide
  have hne : c ≠ sep := by
    rcases hsep with rfl | rfl
    · exact hamp
    · exact heq
  intro hb
  have hnat := congrArg UInt8.toNat hb
  rw [Utf8.toNat_ofNat (by omega), Utf8.toNat_ofNat (by omega)] at hnat
  exact hne (Char.toNat_inj.mp hnat)

theorem decodePair_encodePair (pair : String × String) :
    decodePair (octets (encodePair pair)) = pair := by
  have hname : ∀ b ∈ octets (encodeText pair.1), (b != 0x3D) = true := fun b hb =>
    bne_iff_ne.mpr (ne_of_mem_octets (Or.inr rfl) hb)
  have hpair : octets (encodePair pair)
      = octets (encodeText pair.1) ++ 0x3D :: octets (encodeText pair.2) := by
    rw [encodePair, octets_append]
    rfl
  rw [decodePair, hpair, List.takeWhile_append_of_pos hname, List.dropWhile_append_of_pos hname]
  show (decodeText (octets (encodeText pair.1) ++ []), decodeText (octets (encodeText pair.2))) = _
  rw [List.append_nil, decodeText_encodeText, decodeText_encodeText]

theorem octets_encodePair (pair : String × String) :
    0x26 ∉ octets (encodePair pair) ∧ (octets (encodePair pair)).isEmpty = false := by
  rw [encodePair, octets_append]
  refine ⟨fun h => ?_, by cases octets (encodeText pair.1) <;> rfl⟩
  rcases List.mem_append.mp h with h | h
  · exact ne_of_mem_octets (Or.inl rfl) h rfl
  · rcases List.mem_cons.mp h with h | h
    · exact absurd h (by decide)
    · exact ne_of_mem_octets (Or.inl rfl) h rfl

/-! ### Query strings -/

theorem splitAll_of_not_mem {sep : UInt8} {part : List UInt8} (h : sep ∉ part) :
    splitAll sep part = [part] := by
  induction part with
  | nil => rfl
  | cons b part ih =>
    rw [List.mem_cons, not_or] at h
    rw [splitAll, ih h.2]
    exact if_neg fun hb => h.1 hb.symm

theorem splitAll_ne_nil (sep : UInt8) (bs : List UInt8) : splitAll sep bs ≠ [] := by
  cases bs with
  | nil => simp [splitAll]
  | cons b bs =>
    rw [splitAll]
    split
    · split <;> simp
    · simp

theorem splitAll_append {sep : UInt8} {part : List UInt8} (h : sep ∉ part) (rest : List UInt8) :
    splitAll sep (part ++ sep :: rest) = part :: splitAll sep rest := by
  induction part with
  | nil =>
    rw [List.nil_append, splitAll]
    cases hrest : splitAll sep rest with
    | nil => exact absurd hrest (splitAll_ne_nil sep rest)
    | cons p ps => exact if_pos rfl
  | cons b part ih =>
    rw [List.mem_cons, not_or] at h
    rw [List.cons_append, splitAll, ih h.2]
    exact if_neg fun hb => h.1 hb.symm

theorem splitAll_intercalate {sep : UInt8} {parts : List (List UInt8)} (hne : parts ≠ [])
    (h : ∀ part ∈ parts, sep ∉ part) : splitAll sep (List.intercalate [sep] parts) = parts := by
  induction parts with
  | nil => exact absurd rfl hne
  | cons part rest ih =>
    obtain ⟨hpart, hrest⟩ := List.forall_mem_cons.mp h
    cases rest with
    | nil => rw [List.intercalate_singleton, splitAll_of_not_mem hpart]
    | cons next rest =>
      rw [List.intercalate_cons_cons, List.append_assoc, List.singleton_append,
        splitAll_append hpart, ih (List.cons_ne_nil _ _) hrest]

theorem octets_intercalate (parts : List (List Char)) :
    octets (List.intercalate ['&'] parts) = List.intercalate [0x26] (parts.map octets) := by
  induction parts with
  | nil => rfl
  | cons part rest ih =>
    cases rest with
    | nil => rw [List.map_singleton, List.intercalate_singleton, List.intercalate_singleton]
    | cons next rest =>
      rw [List.intercalate_cons_cons, octets_append, octets_append, ih, List.map_cons,
        List.map_cons, List.map_cons, List.intercalate_cons_cons]
      rfl

/-- What stands in a query string is ASCII, and no question mark. -/
theorem ascii_of_mem_encode {pairs : List (String × String)} {c : Char}
    (h : c ∈ List.intercalate ['&'] (pairs.map encodePair)) : c.toNat < 0x80 ∧ c ≠ '?' := by
  induction pairs with
  | nil => exact absurd h List.not_mem_nil
  | cons pair rest ih =>
    have htext : ∀ {s : String}, c ∈ encodeText s → c.toNat < 0x80 ∧ c ≠ '?' := fun hc =>
      ⟨(isInner_of_mem_encodeText hc).1, (isInner_of_mem_encodeText hc).2.2.2⟩
    have hpair : c ∈ encodePair pair → c.toNat < 0x80 ∧ c ≠ '?' := by
      intro hc
      rcases List.mem_append.mp hc with hc | hc
      · exact htext hc
      · rcases List.mem_cons.mp hc with rfl | hc
        · decide
        · exact htext hc
    cases rest with
    | nil =>
      rw [List.map_singleton, List.intercalate_singleton] at h
      exact hpair h
    | cons next rest =>
      rw [List.map_cons, List.map_cons, List.intercalate_cons_cons] at h
      -- A character is one of the first pair, the ampersand behind it, or one of the rest.
      rcases List.mem_append.mp h with h | h
      · rcases List.mem_append.mp h with h | h
        · exact hpair h
        · rw [List.mem_singleton.mp h]
          decide
      · exact ih h

/-- The query string of some pairs is read as these pairs. -/
theorem decode_encode (pairs : List (String × String)) : decode (encode pairs) = pairs := by
  have hascii : ∀ c ∈ List.intercalate ['&'] (pairs.map encodePair), c.toNat < 0x80 := fun c hc =>
    (ascii_of_mem_encode hc).1
  rw [decode, encode, String.toList_ofList, encode_ascii hascii, octets_intercalate]
  cases pairs with
  | nil => rfl
  | cons pair rest =>
    have hsplit : splitAll 0x26
        (List.intercalate [0x26] (((pair :: rest).map encodePair).map octets))
          = ((pair :: rest).map encodePair).map octets := by
      refine splitAll_intercalate (by simp) fun part hpart => ?_
      rw [List.map_map] at hpart
      obtain ⟨p, -, rfl⟩ := List.mem_map.mp hpart
      exact (octets_encodePair p).1
    -- Every pair has its equals sign, so no part is dropped as empty.
    have hkeep : ∀ part ∈ (((pair :: rest).map encodePair).map octets), (!part.isEmpty) = true := by
      intro part hpart
      rw [List.map_map] at hpart
      obtain ⟨p, -, rfl⟩ := List.mem_map.mp hpart
      rw [Function.comp_apply, (octets_encodePair p).2]
      rfl
    rw [hsplit, List.filter_eq_self.mpr hkeep, List.map_map, List.map_map]
    conv => rhs; rw [← List.map_id (pair :: rest)]
    exact List.map_congr_left fun p _ => decodePair_encodePair p

/-- A query string that is written starts with no question mark. -/
theorem head?_encode (pairs : List (String × String)) : (encode pairs).toList.head? ≠ some '?' := by
  intro h
  rw [encode, String.toList_ofList] at h
  exact (ascii_of_mem_encode (List.mem_of_head? h)).2 rfl

end ListQuery.FormEncoding
