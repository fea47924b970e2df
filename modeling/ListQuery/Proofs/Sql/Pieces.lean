/-
The pieces of a printed condition, read as tokens.

Each piece is read as the tokens that it was printed for, and what follows it as it would be alone:

* `tokens?_keyword` and `tokens?_sign` — keywords and comparisons;
* `tokens?_quote` — a name, in quotes or bare, as `Token.ofName` says;
* `tokens?_placeholder` and `tokens?_escapeClause` — what depends on the dialect;
* `ofWord?_of_bare` — the keywords that a bare name may be taken for.

Design notes: words, names in quotes and texts go on as long as they can, so what follows one of them has
to start with neither a character of a name nor a quote.
-/
import ListQuery.Proofs.Numeric.Digits
import ListQuery.Proofs.Sql.Token

namespace ListQuery.Sql

variable {d : Dialect} {n : Nat} {rest : List Char} {ts : List Token}

/-- A text that goes on with nothing that a token before it could take in. -/
def Breaks (rest : List Char) : Prop :=
  ∀ c, rest.head? = some c → isNameChar c = false ∧ c ≠ '"' ∧ c ≠ '\''

theorem breaks_nil : Breaks [] := by
  intro c hc
  simp at hc

theorem breaks_cons {c : Char} (h : isNameChar c = false ∧ c ≠ '"' ∧ c ≠ '\'') (rest : List Char) :
    Breaks (c :: rest) := by
  intro c' hc'
  obtain rfl := Option.some.inj hc'
  exact h

/-! ### One token -/

theorem tokens?_nil : tokens? d n [] = some [] := by
  rw [tokens?]

theorem tokens?_space (h : tokens? d n rest = some ts) : tokens? d n (' ' :: rest) = some ts := by
  rw [tokens?, if_pos rfl]
  exact h

theorem tokens?_cons {c : Char} {t : Token} {after : List Char} (hc : c ≠ ' ')
    (ht : Token.next? d n c rest = some (t, after))
    (h : tokens? d (n + t.places) after = some ts) :
    tokens? d n (c :: rest) = some (t :: ts) := by
  rw [tokens?, if_neg hc]
  split
  · rename_i r hr
    obtain rfl := Option.some.inj (ht.symm.trans hr)
    rw [h]
    rfl
  · rename_i hr
    rw [ht] at hr
    simp at hr

theorem tokens?_openParen (h : tokens? d n rest = some ts) :
    tokens? d n ('(' :: rest) = some (.openParen :: ts) :=
  tokens?_cons (by decide) rfl h

theorem tokens?_closeParen (h : tokens? d n rest = some ts) :
    tokens? d n (')' :: rest) = some (.closeParen :: ts) :=
  tokens?_cons (by decide) rfl h

theorem tokens?_comma (h : tokens? d n rest = some ts) :
    tokens? d n (',' :: rest) = some (.comma :: ts) :=
  tokens?_cons (by decide) rfl h

theorem tokens?_dot (h : tokens? d n rest = some ts) :
    tokens? d n ('.' :: rest) = some (.dot :: ts) :=
  tokens?_cons (by decide) rfl h

/-- A comparison has a blank after it, so it cannot be taken for a longer one. -/
theorem tokens?_sign (op : Comparison) (h : tokens? d n rest = some ts) :
    tokens? d n (op.sign.toList ++ ' ' :: rest) = some (.sign op :: ts) := by
  have h' := tokens?_space h
  cases op <;> exact tokens?_cons (by decide) rfl h'

/-! ### Words -/

/-- Whether a text is one word. -/
def IsWord (cs : List Char) : Prop :=
  cs ≠ [] ∧ cs.all isNameChar = true ∧ cs.head?.any Char.isDigit = false

instance (cs : List Char) : Decidable (IsWord cs) :=
  inferInstanceAs (Decidable (_ ∧ _ ∧ _))

theorem ne_of_isNameChar {c c' : Char} (hc : isNameChar c = true) (hc' : isNameChar c' = false) :
    c ≠ c' := by
  rintro rfl
  exact Bool.false_ne_true (hc'.symm.trans hc)

theorem next?_of_isNameChar {c : Char} (hc : isNameChar c = true) (hdigit : c.isDigit = false)
    (rest : List Char) :
    Token.next? d n c rest
      = some (.ofWord (c :: rest.takeWhile isNameChar), rest.dropWhile isNameChar) := by
  -- A character of a name starts no other token.
  have hne : ∀ c' : Char, isNameChar c' = false → c ≠ c' := fun _ => ne_of_isNameChar hc
  have hone : Token.ofChar? c = none := by
    unfold Token.ofChar?
    split
    · exact absurd rfl (hne '.' (by decide))
    · exact absurd rfl (hne ',' (by decide))
    · exact absurd rfl (hne '(' (by decide))
    · exact absurd rfl (hne ')' (by decide))
    · exact absurd rfl (hne '=' (by decide))
    · rfl
  have hangle : ¬(c = '<' ∨ c = '>') := by
    rintro (he | he)
    · exact hne '<' (by decide) he
    · exact hne '>' (by decide) he
  rw [Token.next?, hone]
  simp only [if_neg (hne '"' (by decide)), if_neg (hne '\'' (by decide)), if_neg hangle, hdigit,
    Bool.false_eq_true, if_false, hc, if_true]

theorem tokens?_word {cs : List Char} (hcs : IsWord cs) (hb : Breaks rest)
    (h : tokens? d n rest = some ts) :
    tokens? d n (cs ++ rest) = some (.ofWord cs :: ts) := by
  obtain ⟨hne, hall, hdigit⟩ := hcs
  cases cs with
  | nil => exact absurd rfl hne
  | cons c cs =>
    obtain ⟨hc, hcs⟩ := List.forall_mem_cons.mp (List.all_eq_true.mp hall)
    obtain ⟨htake, hdrop⟩ := Text.takeWhile_append_stop hcs fun c hc => (hb c hc).1
    have hnext : Token.next? d n c (cs ++ rest) = some (.ofWord (c :: cs), rest) := by
      rw [next?_of_isNameChar hc hdigit, htake, hdrop]
    have hplaces : (Token.ofWord (c :: cs)).places = 0 := by
      unfold Token.ofWord
      split <;> rfl
    refine tokens?_cons ?_ hnext ?_
    · rintro rfl
      exact absurd hc (by decide)
    · rw [hplaces]
      exact h

/-- A keyword in upper case, as it is printed. -/
def Keyword.upper (k : Keyword) : List Char :=
  k.word.toList.map Char.toUpper

theorem tokens?_keyword (k : Keyword) (hb : Breaks rest) (h : tokens? d n rest = some ts) :
    tokens? d n (k.upper ++ rest) = some (.keyword k :: ts) := by
  have hword : IsWord k.upper ∧ Token.ofWord k.upper = .keyword k := by
    cases k <;> decide
  rw [← hword.2]
  exact tokens?_word hword.1 hb h

/-! ### Names -/

theorem enclosed_cons {quote c : Char} {hasBackslash : Bool} {cs after : List Char}
    (hquote : c ≠ quote) (hescape : ¬(hasBackslash = true ∧ c = '\\'))
    (h : enclosed quote hasBackslash cs = some (ts', after)) :
    enclosed quote hasBackslash (c :: cs) = some (c :: ts', after) := by
  cases cs with
  | nil => simp [enclosed] at h
  | cons c' cs =>
    rw [enclosed, if_neg hquote, if_neg hescape, h]
    rfl

theorem enclosed_end {quote : Char} {hasBackslash : Bool}
    (h : ∀ c, rest.head? = some c → c ≠ quote) :
    enclosed quote hasBackslash (quote :: rest) = some ([], rest) := by
  cases rest with
  | nil => rw [enclosed, if_pos rfl]
  | cons c rest => rw [enclosed, if_pos rfl, if_neg (h c rfl)]

/-- A name is read back from its quotes, each quote inside it standing twice. -/
theorem enclosed_doubled (name : List Char) (hb : Breaks rest) :
    enclosed '"' false (name.flatMap (fun c => if c = '"' then ['"', '"'] else [c]) ++ '"' :: rest)
      = some (name, rest) := by
  induction name with
  | nil => exact enclosed_end fun c hc => (hb c hc).2.1
  | cons c name ih =>
    rw [List.flatMap_cons, List.append_assoc]
    by_cases hc : c = '"'
    · subst hc
      show enclosed '"' false ('"' :: '"' :: (_ ++ '"' :: rest)) = _
      rw [enclosed, if_pos rfl, if_pos rfl, ih]
      rfl
    · rw [if_neg hc]
      exact enclosed_cons hc (by simp) ih

theorem toList_quoteAlways_append (name : String) (rest : List Char) :
    (quoteAlways name).toList ++ rest = '"' ::
      (name.toList.flatMap (fun c => if c = '"' then ['"', '"'] else [c]) ++ '"' :: rest) := by
  simp [quoteAlways]

theorem tokens?_quoteAlways (name : String) (hb : Breaks rest) (h : tokens? d n rest = some ts) :
    tokens? d n ((quoteAlways name).toList ++ rest) = some (.name name :: ts) := by
  have hnext : Token.next? d n '"'
      (name.toList.flatMap (fun c => if c = '"' then ['"', '"'] else [c]) ++ '"' :: rest)
        = some (.name name, rest) := by
    show (enclosed '"' false _).map _ = _
    rw [enclosed_doubled _ hb, Option.map_some, String.ofList_toList]
  rw [toList_quoteAlways_append]
  exact tokens?_cons (by decide) hnext h

/-- The token that a printed name is read as. -/
def Token.ofName (name : String) : Token :=
  if needsQuotes name then .name name else .ofWord name.toList

theorem isWord_of_bare {name : String} (h : needsQuotes name = false) : IsWord name.toList := by
  simp only [needsQuotes, Bool.or_eq_false_iff, Bool.not_eq_false'] at h
  obtain ⟨⟨⟨hempty, _⟩, hall⟩, hdigit⟩ := h
  exact ⟨List.isEmpty_eq_false_iff.mp hempty, hall, hdigit⟩

/-- A name is read as it was printed, in quotes or bare. -/
theorem tokens?_quote (name : String) (hb : Breaks rest) (h : tokens? d n rest = some ts) :
    tokens? d n ((quote name).toList ++ rest) = some (.ofName name :: ts) := by
  rw [quote, Token.ofName]
  split
  · exact tokens?_quoteAlways name hb h
  · rename_i hquotes
    exact tokens?_word (isWord_of_bare (Bool.eq_false_iff.mpr hquotes)) hb h

/-! ### Names that are taken for keywords -/

/-- The keywords of conditions that are missing among the reserved words. -/
def unreserved : List String :=
  ["true", "false", "escape"]

/-- Whether a name is a keyword that is not reserved, in any case of its letters. -/
def IsUnreserved (name : String) : Prop :=
  String.ofList (name.toList.map Char.toLower) ∈ unreserved

instance (name : String) : Decidable (IsUnreserved name) :=
  inferInstanceAs (Decidable (_ ∈ _))

theorem toLower_cases (c : Char) :
    (c.isUpper = false ∧ c.toLower = c)
      ∨ (c.isUpper = true ∧ 65 ≤ c.toNat ∧ c.toNat ≤ 90 ∧ c.toLower.toNat = c.toNat + 32) := by
  by_cases h : c.val ≥ 'A'.val ∧ c.val ≤ 'Z'.val
  · have hfirst : 65 ≤ c.toNat := UInt32.le_iff_toNat_le.mp h.1
    have hlast : c.toNat ≤ 90 := UInt32.le_iff_toNat_le.mp h.2
    have hlower : c.toLower.val = c.val + 32 := congrArg Char.val (dif_pos h)
    refine Or.inr ⟨decide_eq_true h, hfirst, hlast, ?_⟩
    show c.toLower.val.toNat = c.toNat + 32
    rw [hlower, UInt32.toNat_add]
    exact Nat.mod_eq_of_lt (Nat.lt_of_le_of_lt (Nat.add_le_add_right hlast 32) (by decide))
  · exact Or.inl ⟨decide_eq_false h, dif_neg h⟩

theorem isNameChar_iff (c : Char) : isNameChar c = true ↔
    (65 ≤ c.toNat ∧ c.toNat ≤ 90) ∨ (97 ≤ c.toNat ∧ c.toNat ≤ 122)
      ∨ (48 ≤ c.toNat ∧ c.toNat ≤ 57) ∨ c.toNat = 95 := by
  show (((decide (c.val ≥ 65 ∧ c.val ≤ 90) || (decide (c.val ≥ 97) && decide (c.val ≤ 122)))
    || (decide (c.val ≥ 48) && decide (c.val ≤ 57))) || c == '_') = true ↔ _
  simp [UInt32.le_iff_toNat_le, ← Char.toNat_inj, or_assoc]

@[simp] theorem isNameChar_toLower (c : Char) : isNameChar c.toLower = isNameChar c := by
  rw [Bool.eq_iff_iff, isNameChar_iff, isNameChar_iff]
  rcases toLower_cases c with ⟨-, h⟩ | ⟨-, h1, h2, h⟩
  · rw [h]
  · omega

@[simp] theorem isDigit_toLower (c : Char) : c.toLower.isDigit = c.isDigit := by
  rw [Bool.eq_iff_iff]
  rcases toLower_cases c with ⟨-, h⟩ | ⟨-, h1, h2, h⟩
  · rw [h]
  · simp only [Char.isDigit, Bool.and_eq_true, decide_eq_true_eq, ge_iff_le, UInt32.le_iff_toNat_le]
    show 48 ≤ c.toLower.toNat ∧ c.toLower.toNat ≤ 57 ↔ 48 ≤ c.toNat ∧ c.toNat ≤ 57
    omega

@[simp] theorem toLower_toLower (c : Char) : c.toLower.toLower = c.toLower := by
  rcases toLower_cases c with ⟨-, h⟩ | ⟨-, h1, h2, h⟩
  · rw [h, h]
  · rcases toLower_cases c.toLower with ⟨-, h'⟩ | ⟨-, h1', h2', h'⟩
    · exact h'
    · omega

/-- Quotes do not depend on the case of letters. -/
theorem needsQuotes_toLower (name : String) :
    needsQuotes (String.ofList (name.toList.map Char.toLower)) = needsQuotes name := by
  simp [needsQuotes, List.all_map, Function.comp_def, Option.any_map]

theorem not_reserved_of_bare {name : String} (hbare : needsQuotes name = false) :
    reservedWords.contains (String.ofList (name.toList.map Char.toLower)) = false := by
  simp only [needsQuotes, Bool.or_eq_false_iff] at hbare
  exact hbare.1.1.2

/-- The keywords that a bare name may spell. -/
theorem ofWord?_of_bare {name : String} (hbare : needsQuotes name = false) :
    (Keyword.ofWord? name.toList).isSome ↔ IsUnreserved name := by
  have hreserved := not_reserved_of_bare hbare
  rw [Keyword.ofWord?, List.find?_isSome, IsUnreserved]
  constructor
  · -- The other seven keywords are reserved, and the name is not.
    rintro ⟨k, -, hk⟩
    rw [beq_iff_eq] at hk
    rw [← hk] at hreserved ⊢
    cases k <;> revert hreserved <;> decide
  · intro h
    simp only [unreserved, List.mem_cons, List.not_mem_nil, or_false] at h
    rcases h with h | h | h
    · exact ⟨.true, by decide, by rw [h]; decide⟩
    · exact ⟨.false, by decide, by rw [h]; decide⟩
    · exact ⟨.escape, by decide, by rw [h]; decide⟩

theorem needsQuotes_of_isUnreserved {name : String} (h : IsUnreserved name) :
    needsQuotes name = false := by
  rw [← needsQuotes_toLower]
  simp only [IsUnreserved, unreserved, List.mem_cons, List.not_mem_nil, or_false] at h
  rcases h with h | h | h <;> rw [h] <;> decide

/-- An unreserved keyword is printed bare and taken for the keyword. -/
theorem ofName_of_isUnreserved {name : String} (h : IsUnreserved name) :
    ∃ k, Token.ofName name = .keyword k := by
  have hbare := needsQuotes_of_isUnreserved h
  obtain ⟨k, hk⟩ := Option.isSome_iff_exists.mp ((ofWord?_of_bare hbare).mpr h)
  refine ⟨k, ?_⟩
  rw [Token.ofName, hbare, Token.ofWord, hk]
  rfl

/-- Every other name is read back. -/
theorem ofName_of_not_isUnreserved {name : String} (h : ¬IsUnreserved name) :
    Token.ofName name = .name name := by
  rw [Token.ofName]
  split
  · rfl
  · rename_i hquotes
    have hnone : Keyword.ofWord? name.toList = none := by
      rw [← Option.not_isSome_iff_eq_none, ofWord?_of_bare (Bool.eq_false_iff.mpr hquotes)]
      exact h
    rw [Token.ofWord, hnone]
    exact congrArg Token.name String.ofList_toList

/-! ### Placeholders and escapes -/

theorem tokens?_placeholder (hb : Breaks rest) (h : tokens? d (n + 1) rest = some ts) :
    tokens? d n ((d.placeholder (n + 1)).toList ++ rest) = some (.param (n + 1) :: ts) := by
  cases d with
  | mysql =>
    have htext : (Dialect.mysql.placeholder (n + 1)).toList = ['?'] := by simp [Dialect.placeholder]
    rw [htext]
    exact tokens?_cons (by decide) rfl h
  | sqlite =>
    have htext : (Dialect.sqlite.placeholder (n + 1)).toList = ['?'] := by simp [Dialect.placeholder]
    rw [htext]
    exact tokens?_cons (by decide) rfl h
  | postgres =>
    -- The number of the placeholder ends where the text breaks, as no digit can follow it.
    have hdigits : ∀ c ∈ Text.decimal (n + 1), c.isDigit = true :=
      fun c hc => Numeric.isDigit_of_mem_decimal hc
    have hstop : ∀ c, rest.head? = some c → c.isDigit = false := by
      intro c hc
      have hname := (hb c hc).1
      simp only [isNameChar, Char.isAlphanum, Bool.or_eq_false_iff] at hname
      exact hname.1.2
    obtain ⟨htake, hdrop⟩ := Text.takeWhile_append_stop hdigits hstop
    have hne : (Text.decimal (n + 1)).isEmpty = false :=
      List.isEmpty_eq_false_iff.mpr (Numeric.decimal_ne_nil _)
    have hnext : Token.next? .postgres n '$' (Text.decimal (n + 1) ++ rest)
        = some (.param (n + 1), rest) := by
      show placeholder? .postgres n '$' _ = _
      simp only [placeholder?, htake, hdrop, hne, Bool.false_eq_true, if_false,
        Numeric.NumberText.natOf_decimal]
    have htext : (Dialect.postgres.placeholder (n + 1)).toList ++ rest
        = '$' :: (Text.decimal (n + 1) ++ rest) := by
      simp [Dialect.placeholder, Text.decimalText]
    rw [htext]
    exact tokens?_cons (by decide) hnext h

theorem tokens?_escapeClause (hb : Breaks rest) (h : tokens? d n rest = some ts) :
    tokens? d n (d.escapeClause.toList ++ rest) = some (.keyword .escape :: .text "\\" :: ts) := by
  have hend : enclosed '\'' d.hasBackslash ('\'' :: rest) = some ([], rest) :=
    enclosed_end fun c hc => (hb c hc).2.2
  have htext : ∀ cs, enclosed '\'' d.hasBackslash cs = some (['\\'], rest) →
      tokens? d n (' ' :: (Keyword.escape.upper ++ ' ' :: '\'' :: cs))
        = some (.keyword .escape :: .text "\\" :: ts) := by
    intro cs hcs
    have hnext : Token.next? d n '\'' cs = some (.text "\\", rest) := by
      show (enclosed '\'' d.hasBackslash cs).map _ = _
      rw [hcs]
      rfl
    refine tokens?_space (tokens?_keyword .escape (breaks_cons (by decide) _) (tokens?_space ?_))
    exact tokens?_cons (by decide) hnext h
  cases d with
  | mysql =>
    -- The literal holds two backslashes, the first of which escapes the second.
    refine htext ('\\' :: '\\' :: '\'' :: rest) ?_
    rw [enclosed, if_neg (by decide), if_pos (by decide), if_pos (by decide), hend]
    rfl
  | postgres => exact htext ('\\' :: '\'' :: rest) (enclosed_cons (by decide) (by decide) hend)
  | sqlite => exact htext ('\\' :: '\'' :: rest) (enclosed_cons (by decide) (by decide) hend)

end ListQuery.Sql
