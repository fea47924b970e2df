/-
The tokens of a JSON value's text.

`Json.tokens` lists the tokens of a value, and the text of a value is split into just these:

* `scan_chars` and `join_units` — the characters of a string are read back from its text;
* `number?_signed` and `number?_compact` — so are integers of 64 bits and finite numbers;
* `tokens?_chars` — the tokens of the text of a well-formed value, whatever follows that ends it.

Design notes: numbers and words go on as far as they can, so what follows a value has to start with
neither a character of a number nor a letter.  In a text only commas and closing brackets follow.
-/
import ListQuery.Json.Printer
import ListQuery.Proofs.Json.WellFormed
import ListQuery.Proofs.Numeric.Digits
import ListQuery.Proofs.Numeric.ShortestReadsBack

namespace ListQuery.Json

open Numeric

/-! ### Strings -/

/-- The three forms of a character inside a string: an escape of one letter, an escape of four digits,
and the character as it stands. -/
theorem charText_cases (c : Char) :
    (∃ e, charText c = ['\\', e] ∧ e ≠ 'u' ∧ Unit16.ofEscape? e = some (.char c))
      ∨ (c.toNat < 0x20 ∧ charText c
          = ['\\', 'u', '0', '0', Text.hexLower (c.toNat / 16), Text.hexLower (c.toNat % 16)])
      ∨ (charText c = [c] ∧ c ≠ '"' ∧ c ≠ '\\' ∧ 0x20 ≤ c.toNat) := by
  rw [charText.eq_def]
  split
  · exact Or.inl ⟨_, rfl, by decide, rfl⟩
  · exact Or.inl ⟨_, rfl, by decide, rfl⟩
  · exact Or.inl ⟨_, rfl, by decide, rfl⟩
  · exact Or.inl ⟨_, rfl, by decide, rfl⟩
  · exact Or.inl ⟨_, rfl, by decide, rfl⟩
  · exact Or.inl ⟨_, rfl, by decide, rfl⟩
  · exact Or.inl ⟨_, rfl, by decide, rfl⟩
  · rename_i hquote hslash _ _ _ _ _
    split
    · rename_i hc
      exact Or.inr (Or.inl ⟨hc, rfl⟩)
    · rename_i hc
      exact Or.inr (Or.inr ⟨rfl, hquote, hslash, Nat.not_lt.mp hc⟩)

namespace Unit16

/-- Whether a part of a string stands for a character. -/
def Spells (part : Unit16) (c : Char) : Prop :=
  part = .char c ∨ part = .escaped c.toNat ∧ c.toNat < 0x20

theorem digits?_control {n : Nat} (h : n < 0x20) :
    Text.digits? 16 ['0', '0', Text.hexLower (n / 16), Text.hexLower (n % 16)]
      = some [0, 0, n / 16, n % 16] := by
  revert n
  decide

theorem ofDigits_control {n : Nat} (h : n < 0x20) :
    Text.ofDigits 16 [0, 0, n / 16, n % 16] = n := by
  revert n
  decide

theorem exists_scan_charText (c : Char) (rest : List Char) :
    ∃ part : Unit16, part.Spells c ∧ ∀ parts after, scan rest = some (parts, after) →
      scan (charText c ++ rest) = some (part :: parts, after) := by
  rcases charText_cases c with ⟨e, htext, he, hpart⟩ | ⟨hc, htext⟩ | ⟨htext, hquote, hslash, hc⟩
  · refine ⟨.char c, Or.inl rfl, fun parts after hrest => ?_⟩
    rw [htext, List.cons_append, List.singleton_append, scan, hpart, hrest]
    rintro a b c d rest' h
    exact absurd h he
  · refine ⟨.escaped c.toNat, Or.inr ⟨rfl, hc⟩, fun parts after hrest => ?_⟩
    rw [htext]
    simp only [List.cons_append, List.nil_append, scan, digits?_control hc, hrest,
      ofDigits_control hc]
  · refine ⟨.char c, Or.inl rfl, fun parts after hrest => ?_⟩
    have hplain : ¬(c = '\\' ∨ c.toNat < 0x20) := fun h => h.elim hslash (Nat.not_lt.mpr hc)
    rw [htext, List.singleton_append, scan, if_neg hplain, hrest]
    · exact hquote
    · exact fun _ _ _ _ _ h _ => hslash h
    · exact fun _ _ h _ => hslash h

theorem join_cons {part : Unit16} {c : Char} (h : part.Spells c) (parts : List Unit16) :
    join (part :: parts) = (join parts).map (c :: ·) := by
  rcases h with rfl | ⟨rfl, hc⟩
  · rw [join]
  · have hhigh : isHigh c.toNat = false := decide_eq_false (by omega)
    have hlow : isLow c.toNat = false := decide_eq_false (by omega)
    cases parts with
    | nil => simp [join, hhigh, hlow]
    | cons next parts => cases next <;> simp [join, hhigh, hlow]

/-- The characters of a string are read back, up to its closing quote. -/
theorem exists_scan_chars (cs rest : List Char) :
    ∃ parts, scan (cs.flatMap charText ++ '"' :: rest) = some (parts, rest)
      ∧ join parts = some cs := by
  induction cs with
  | nil => exact ⟨[], rfl, rfl⟩
  | cons c cs ih =>
    obtain ⟨parts, hscan, hjoin⟩ := ih
    obtain ⟨part, hspells, hpart⟩ := exists_scan_charText c (cs.flatMap charText ++ '"' :: rest)
    refine ⟨part :: parts, ?_, by rw [join_cons hspells, hjoin, Option.map_some]⟩
    rw [List.flatMap_cons, List.append_assoc]
    exact hpart parts rest hscan

end Unit16

/-! ### Numbers and words -/

theorem isNumberChar_of_mem_chars {t : NumberText} (h : t.AllDigits) {c : Char}
    (hc : c ∈ t.chars) : isNumberChar c = true := by
  rcases NumberText.mem_chars h hc with hc | rfl | rfl | rfl | rfl
  · simp [isNumberChar, hc]
  · rfl
  · rfl
  · rfl
  · rfl

theorem isNumberChar_of_mem_signed {n : Int} {c : Char} (h : c ∈ Text.signed n) :
    isNumberChar c = true := by
  rw [← chars_integerParts] at h
  exact isNumberChar_of_mem_chars (allDigits_integerParts n) h

theorem isNumberChar_of_mem_text {style : FloatStyle} {zeros : Option Nat} (h : style.EndsIn zeros)
    (hz : zeros ≠ some 0) {x : FiniteFloat} {c : Char} (hc : c ∈ style.text x) :
    isNumberChar c = true := by
  obtain ⟨t, htext, hdigits, -⟩ := exists_parts_text h hz x
  rw [htext] at hc
  exact isNumberChar_of_mem_chars hdigits hc

theorem tidy_integerParts (n : Int) : (integerParts n).Tidy := by
  have hdecimal : ∀ n : Nat, (Text.decimal n).length = 1 ∨ (Text.decimal n).head? ≠ some '0' := by
    intro n
    rcases Nat.eq_zero_or_pos n with rfl | hn
    · exact Or.inl rfl
    · exact Or.inr (head?_decimal hn)
  cases n <;>
    exact ⟨decimal_ne_nil _, hdecimal _, fun _ h => by simp [integerParts, NumberText.ofWhole] at h,
      rfl⟩

/-- Tidy parts without a plus sign are spelt as JSON asks. -/
theorem isNumber_of_tidy {t : NumberText} (h : t.Tidy) (hsign : t.sign ≠ some .plus) :
    isNumber t = true := by
  have hfraction : t.fraction.all (fun ds => !ds.isEmpty) = true := by
    cases hf : t.fraction with
    | none => rfl
    | some ds => simpa using h.fraction ds hf
  simp [isNumber, hsign, h.whole, h.first, hfraction, h.exponent]

theorem number?_signed {n : Int} (h : (integer n).isWellFormed = true) :
    number? (Text.signed n) = some (.integer n) := by
  have hsign : (integerParts n).sign ≠ some .plus := by
    cases n <;> simp [integerParts, NumberText.ofWhole]
  have hzero : ¬((integerParts n).isNegative = true ∧ n = 0) := by
    rintro ⟨hneg, rfl⟩
    exact absurd hneg (by decide)
  have hrange := of_decide_eq_true h
  rw [number?, scan_signed]
  simp only [isNumber_of_tidy (tidy_integerParts n) hsign, if_true]
  rw [ofNumber?, wholeValue_integerParts,
    if_pos ⟨isInteger_integerParts n, hrange, hzero⟩]

theorem number?_compact (x : FiniteFloat) :
    number? (FloatStyle.compact.text x) = some (.float x) := by
  obtain ⟨t, htext, hdigits, htidy, hsign, hvalue, hinteger⟩ :=
    exists_parts_text endsIn_compact (by simp) x
  have hplus : t.sign ≠ some .plus := by
    rw [hsign]
    cases x.negative <;> simp [signOf]
  rw [htext, number?, NumberText.scan_chars hdigits]
  simp only [isNumber_of_tidy htidy hplus, if_true]
  have hnot : ¬t.isInteger = true := by simp [hinteger rfl]
  rw [ofNumber?, if_neg fun h => hnot h.1, hvalue]

theorem ofChar?_of_isNumberChar {c : Char} (h : isNumberChar c = true) :
    Token.ofChar? c = none := by
  rw [Token.ofChar?.eq_def]
  split <;> first | rfl | exact absurd h (by decide)

theorem isSpace_of_isNumberChar {c : Char} (h : isNumberChar c = true) : isSpace c = false := by
  cases hs : isSpace c with
  | false => rfl
  | true =>
    simp only [isSpace, Bool.or_eq_true, beq_iff_eq] at hs
    rcases hs with ((rfl | rfl) | rfl) | rfl <;> exact absurd h (by decide)

/-! ### The first token -/

/-- A text that starts with neither a character of a number nor a letter. -/
def EndsValue (cs : List Char) : Prop :=
  ∀ c, cs.head? = some c → isNumberChar c = false ∧ c.isAlpha = false

theorem tokens?_cons {c : Char} {rest after : List Char} {t : Token} (hs : isSpace c = false)
    (h : Token.next? c rest = some (t, after)) :
    tokens? (c :: rest) = (tokens? after).map (t :: ·) := by
  rw [tokens?, if_neg (by simp [hs])]
  split
  · rename_i t' after' h'
    obtain ⟨rfl, rfl⟩ := Prod.mk.inj (Option.some.inj (h'.symm.trans h))
    rfl
  · rename_i hnone
    rw [h] at hnone
    simp at hnone

theorem tokens?_ofChar {c : Char} {t : Token} (hs : isSpace c = false)
    (h : Token.ofChar? c = some t) (rest : List Char) :
    tokens? (c :: rest) = (tokens? rest).map (t :: ·) := by
  refine tokens?_cons hs ?_
  rw [Token.next?, h]

theorem tokens?_stringText (s : String) (rest : List Char) :
    tokens? (stringText s ++ rest) = (tokens? rest).map (.string s :: ·) := by
  obtain ⟨parts, hscan, hjoin⟩ := Unit16.exists_scan_chars s.toList rest
  have htext : stringText s ++ rest = '"' :: (s.toList.flatMap charText ++ '"' :: rest) := by
    simp [stringText]
  rw [htext]
  refine tokens?_cons (by decide) ?_
  rw [Token.next?, hscan]
  show (Unit16.join parts).map (fun cs => (Token.string (String.ofList cs), rest)) = _
  rw [hjoin, Option.map_some, String.ofList_toList]

theorem tokens?_number {cs rest : List Char} {v : Json} (hcs : ∀ c ∈ cs, isNumberChar c = true)
    (h : number? cs = some v) (hrest : EndsValue rest) :
    tokens? (cs ++ rest) = (tokens? rest).map (.atom v :: ·) := by
  cases cs with
  | nil =>
    have hnil : number? [] = none := by decide
    rw [hnil] at h
    simp at h
  | cons c cs =>
    obtain ⟨hc, hcs⟩ := List.forall_mem_cons.mp hcs
    obtain ⟨htake, hdrop⟩ := Text.takeWhile_append_stop hcs fun c hc => (hrest c hc).1
    have hquote : c ≠ '"' := by
      rintro rfl
      exact absurd hc (by decide)
    rw [List.cons_append]
    refine tokens?_cons (isSpace_of_isNumberChar hc) ?_
    rw [Token.next?, ofChar?_of_isNumberChar hc]
    simp only [if_neg hquote, hc, if_true, htake, hdrop, h, Option.map_some]

theorem tokens?_word {c : Char} {cs rest : List Char} {v : Json} (hc : Token.ofChar? c = none)
    (hother : c ≠ '"' ∧ isNumberChar c = false ∧ isSpace c = false)
    (hcs : ∀ c ∈ cs, c.isAlpha = true) (h : word? (c :: cs) = some v) (hrest : EndsValue rest) :
    tokens? (c :: cs ++ rest) = (tokens? rest).map (.atom v :: ·) := by
  obtain ⟨hquote, hnumber, hspace⟩ := hother
  obtain ⟨htake, hdrop⟩ := Text.takeWhile_append_stop hcs fun c hc => (hrest c hc).2
  rw [List.cons_append]
  refine tokens?_cons hspace ?_
  rw [Token.next?, hc]
  simp only [if_neg hquote, hnumber, Bool.false_eq_true, if_false, htake, hdrop, h, Option.map_some]

/-! ### The tokens of a value -/

mutual

/-- The tokens of a value. -/
def tokens : Json → List Token
  | .string s => [.string s]
  | .array [] => [.openBracket, .closeBracket]
  | .array (v :: vs) => .openBracket :: tokens v ++ itemTokens vs
  | .object [] => [.openBrace, .closeBrace]
  | .object ((n, v) :: ms) => .openBrace :: .string n :: .colon :: tokens v ++ memberTokens ms
  | v => [.atom v]

/-- The tokens of the items after the first one, with the bracket that ends them. -/
def itemTokens : List Json → List Token
  | [] => [.closeBracket]
  | v :: vs => .comma :: tokens v ++ itemTokens vs

/-- The tokens of the members after the first one, with the brace that ends them. -/
def memberTokens : List (String × Json) → List Token
  | [] => [.closeBrace]
  | (n, v) :: ms => .comma :: .string n :: .colon :: tokens v ++ memberTokens ms

end

theorem endsValue_itemsTail (vs : List Json) (rest : List Char) :
    EndsValue (itemsTail vs ++ rest) := by
  intro c hc
  cases vs with
  | nil =>
    obtain rfl : ']' = c := by simpa [itemsTail] using hc
    decide
  | cons v vs =>
    obtain rfl : ',' = c := by simpa [itemsTail] using hc
    decide

theorem endsValue_membersTail (ms : List (String × Json)) (rest : List Char) :
    EndsValue (membersTail ms ++ rest) := by
  intro c hc
  cases ms with
  | nil =>
    obtain rfl : '\x7d' = c := by simpa [membersTail] using hc
    decide
  | cons m ms =>
    obtain rfl : ',' = c := by simpa [membersTail] using hc
    decide

mutual

/-- The text of a well-formed value is split into the value's tokens. -/
theorem tokens?_chars : ∀ {v : Json}, v.isWellFormed = true → ∀ {rest : List Char}, EndsValue rest →
    tokens? (v.chars ++ rest) = (tokens? rest).map (v.tokens ++ ·)
  | .null, _, rest, hr | .bool true, _, rest, hr | .bool false, _, rest, hr =>
    tokens?_word (by decide) (by decide) (List.all_eq_true.mp rfl) rfl hr
  | .integer n, hw, rest, hr =>
    tokens?_number (fun _ => isNumberChar_of_mem_signed) (number?_signed hw) hr
  | .float x, _, rest, hr =>
    tokens?_number (fun _ => isNumberChar_of_mem_text endsIn_compact (by simp)) (number?_compact x) hr
  | .string s, _, rest, _ => tokens?_stringText s rest
  | .array [], _, rest, _ | .object [], _, rest, _ => by
    simp only [chars, tokens, List.cons_append, List.nil_append]
    rw [tokens?_ofChar (by decide) rfl, tokens?_ofChar (by decide) rfl, Option.map_map]
    rfl
  | .array (v :: vs), hw, rest, _ => by
    obtain ⟨hv, hvs⟩ := Bool.and_eq_true_iff.mp hw
    simp only [chars, tokens, List.cons_append, List.append_assoc]
    rw [tokens?_ofChar (by decide) rfl, tokens?_chars hv (endsValue_itemsTail vs rest),
      tokens?_itemsTail hvs, Option.map_map, Option.map_map]
    rfl
  | .object ((n, v) :: ms), hw, rest, _ => by
    obtain ⟨hv, hms⟩ := Bool.and_eq_true_iff.mp (Bool.and_eq_true_iff.mp hw).2
    simp only [chars, tokens, List.cons_append, List.append_assoc]
    rw [tokens?_ofChar (by decide) rfl, tokens?_stringText, tokens?_ofChar (by decide) rfl,
      tokens?_chars hv (endsValue_membersTail ms rest), tokens?_membersTail hms, Option.map_map,
      Option.map_map, Option.map_map, Option.map_map]
    rfl

theorem tokens?_itemsTail : ∀ {vs : List Json}, areWellFormed vs = true → ∀ {rest : List Char},
    tokens? (itemsTail vs ++ rest) = (tokens? rest).map (itemTokens vs ++ ·)
  | [], _, rest => tokens?_ofChar (by decide) rfl rest
  | v :: vs, hw, rest => by
    obtain ⟨hv, hvs⟩ := Bool.and_eq_true_iff.mp hw
    simp only [itemsTail, itemTokens, List.cons_append, List.append_assoc]
    rw [tokens?_ofChar (by decide) rfl, tokens?_chars hv (endsValue_itemsTail vs rest),
      tokens?_itemsTail hvs, Option.map_map, Option.map_map]
    rfl

theorem tokens?_membersTail : ∀ {ms : List (String × Json)}, membersWellFormed ms = true →
    ∀ {rest : List Char}, tokens? (membersTail ms ++ rest) = (tokens? rest).map (memberTokens ms ++ ·)
  | [], _, rest => tokens?_ofChar (by decide) rfl rest
  | (n, v) :: ms, hw, rest => by
    obtain ⟨hv, hms⟩ := Bool.and_eq_true_iff.mp hw
    simp only [membersTail, memberTokens, List.cons_append, List.append_assoc]
    rw [tokens?_ofChar (by decide) rfl, tokens?_stringText, tokens?_ofChar (by decide) rfl,
      tokens?_chars hv (endsValue_membersTail ms rest), tokens?_membersTail hms, Option.map_map,
      Option.map_map, Option.map_map, Option.map_map]
    rfl

end

end ListQuery.Json
