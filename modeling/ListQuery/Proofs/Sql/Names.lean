/-
Names as each dialect reads them.

A dialect has its own mark around a quoted name and its own way to take a bare one: PostgreSQL folds bare
names to lower case, SQLite and MySQL keep them, and MySQL marks names by backticks and has texts in double
quotes.  The printer has one form for all of them.

* `Dialect.name?` and `Dialect.columnRef?` — the name, and the column after its table, that a text starts
  with;
* `Dialect.received?` — what a printed name is taken for;
* `name?_quote` and `columnRef?_qualified` — that is how printed names and columns are read;
* `received?_eq_self_iff` — the names that a dialect takes for themselves.

Design notes: the words that no bare name may be differ between dialects and their versions, so they are a
parameter, in lower case.  Bare names may hold more characters than the printer leaves bare, which makes no
difference to a name that is followed by none of them.
-/
import ListQuery.Proofs.Sql.Pieces

namespace ListQuery.Sql

variable {rest : List Char}

/-- A word in lower case. -/
def lowered (cs : List Char) : String :=
  String.ofList (cs.map Char.toLower)

namespace Dialect

/-! ### Reading names -/

/-- The mark around a quoted name. -/
def nameMark : Dialect → Char
  | .mysql => '`'
  | .postgres | .sqlite => '"'

/-- The name that a bare word is taken for. -/
def bareName : Dialect → List Char → String
  | .postgres, cs => lowered cs
  | .mysql, cs | .sqlite, cs => String.ofList cs

/-- The name that a text starts with, and what follows it.  Quotes that are not the dialect's mark hold a
text, and no name. -/
def name? (d : Dialect) (words : List String) : List Char → Option (String × List Char)
  | [] => none
  | c :: rest =>
    if c = d.nameMark then (enclosed c false rest).map fun r => (String.ofList r.1, r.2)
    else if isNameChar c = true ∧ c.isDigit = false then
      let word := c :: rest.takeWhile isNameChar
      if lowered word ∈ words then none else some (d.bareName word, rest.dropWhile isNameChar)
    else none

/-- The column that a text starts with, after its table and a dot, and what follows it. -/
def columnRef? (d : Dialect) (words : List String) (cs : List Char) :
    Option (Column × List Char) :=
  match d.name? words cs with
  | some (table, '.' :: rest) => (d.name? words rest).map fun r => (⟨table, r.1⟩, r.2)
  | _ => none

/-! ### Printed names -/

/-- What a printed name is taken for. -/
def received? (d : Dialect) (words : List String) (name : String) : Option String :=
  if needsQuotes name then if d.nameMark = '"' then some name else none
  else if lowered name.toList ∈ words then none
  else some (d.bareName name.toList)

/-- What a printed column is taken for. -/
def receivedColumn? (d : Dialect) (words : List String) (c : Column) : Option Column :=
  match d.received? words c.table, d.received? words c.name with
  | some table, some name => some ⟨table, name⟩
  | _, _ => none

/-- Whether a dialect takes a printed name for itself. -/
def Keeps (d : Dialect) (words : List String) (name : String) : Prop :=
  match d with
  | .sqlite => needsQuotes name = true ∨ lowered name.toList ∉ words
  | .postgres =>
    needsQuotes name = true ∨ lowered name.toList ∉ words ∧ ∀ c ∈ name.toList, c.isUpper = false
  | .mysql => needsQuotes name = false ∧ lowered name.toList ∉ words

instance (d : Dialect) (words : List String) (name : String) : Decidable (d.Keeps words name) :=
  match d with
  | .sqlite => inferInstanceAs (Decidable (_ ∨ _))
  | .postgres => inferInstanceAs (Decidable (_ ∨ _ ∧ _))
  | .mysql => inferInstanceAs (Decidable (_ ∧ _))

variable (d : Dialect) (words : List String)

/-- A name in double quotes is read where they mark names. -/
theorem name?_quoteAlways (name : String) (hb : Breaks rest) :
    d.name? words ((quoteAlways name).toList ++ rest)
      = if d.nameMark = '"' then some (name, rest) else none := by
  rw [toList_quoteAlways_append, name?]
  by_cases hmark : d.nameMark = '"'
  · rw [if_pos hmark.symm, if_pos hmark, enclosed_doubled _ hb, Option.map_some,
      String.ofList_toList]
  · rw [if_neg (Ne.symm hmark), if_neg hmark, if_neg (by decide)]

theorem not_isNameChar_nameMark : isNameChar d.nameMark = false := by
  cases d <;> decide

/-- A bare name is read unless it is one of the words. -/
theorem name?_word {cs : List Char} (hcs : IsWord cs) (hb : Breaks rest) :
    d.name? words (cs ++ rest)
      = if lowered cs ∈ words then none else some (d.bareName cs, rest) := by
  obtain ⟨hne, hall, hdigit⟩ := hcs
  cases cs with
  | nil => exact absurd rfl hne
  | cons c cs =>
    obtain ⟨hc, hcs⟩ := List.forall_mem_cons.mp (List.all_eq_true.mp hall)
    obtain ⟨htake, hdrop⟩ := Text.takeWhile_append_stop hcs fun c hc => (hb c hc).1
    have hmark : c ≠ d.nameMark := ne_of_isNameChar hc (not_isNameChar_nameMark d)
    rw [List.cons_append, name?, if_neg hmark, if_pos ⟨hc, hdigit⟩]
    simp only [htake, hdrop]

/-- A name is read as what it is taken for, in quotes or bare. -/
theorem name?_quote (name : String) (hb : Breaks rest) :
    d.name? words ((quote name).toList ++ rest) = (d.received? words name).map (·, rest) := by
  rw [quote, received?]
  cases hquotes : needsQuotes name with
  | true =>
    rw [if_pos rfl, if_pos rfl, name?_quoteAlways d words name hb]
    split <;> rfl
  | false =>
    rw [if_neg Bool.false_ne_true, if_neg Bool.false_ne_true,
      name?_word d words (isWord_of_bare hquotes) hb]
    split <;> rfl

theorem columnRef?_qualified (c : Column) (hb : Breaks rest) :
    d.columnRef? words ((quote c.table).toList ++ '.' :: ((quote c.name).toList ++ rest))
      = (d.receivedColumn? words c).map (·, rest) := by
  have hdot : Breaks ('.' :: ((quote c.name).toList ++ rest)) := breaks_cons (by decide) _
  rw [columnRef?, name?_quote d words c.table hdot, receivedColumn?]
  cases d.received? words c.table with
  | none => rfl
  | some table =>
    show (d.name? words _).map _ = _
    rw [name?_quote d words c.name hb]
    cases d.received? words c.name <;> rfl

/-! ### Names that are kept -/

theorem toLower_eq_self_iff (c : Char) : c.toLower = c ↔ c.isUpper = false := by
  rcases toLower_cases c with ⟨hupper, h⟩ | ⟨hupper, -, -, h⟩
  · exact iff_of_true h hupper
  · refine iff_of_false (fun heq => ?_) (ne_false_of_eq_true hupper)
    rw [heq] at h
    omega

theorem map_toLower_eq_self_iff (cs : List Char) :
    cs.map Char.toLower = cs ↔ ∀ c ∈ cs, c.isUpper = false := by
  induction cs with
  | nil => simp
  | cons c cs ih => rw [List.map_cons, List.cons.injEq, toLower_eq_self_iff, ih, List.forall_mem_cons]

/-- A name without capitals is its own lower case. -/
theorem lowered_eq_iff (name : String) :
    lowered name.toList = name ↔ ∀ c ∈ name.toList, c.isUpper = false := by
  rw [← map_toLower_eq_self_iff, lowered, ← String.toList_inj, String.toList_ofList]

variable {d words}

theorem received?_eq_self_iff {name : String} :
    d.received? words name = some name ↔ d.Keeps words name := by
  rw [received?]
  cases hquotes : needsQuotes name with
  | true => cases d <;> simp [nameMark, Keeps, hquotes]
  | false =>
    by_cases hword : lowered name.toList ∈ words
    · cases d <;> simp [Keeps, hquotes, hword]
    · cases d with
      | postgres => simp [Keeps, hquotes, hword, bareName, lowered_eq_iff]
      | mysql | sqlite => simp [Keeps, hquotes, hword, bareName]

theorem receivedColumn?_eq_self_iff {c : Column} :
    d.receivedColumn? words c = some c ↔ d.Keeps words c.table ∧ d.Keeps words c.name := by
  rw [← received?_eq_self_iff, ← received?_eq_self_iff, receivedColumn?]
  cases d.received? words c.table with
  | none => simp
  | some table =>
    cases d.received? words c.name with
    | none => simp
    | some name => cases c; simp

/-- A bare name is none of the words that are reserved. -/
theorem not_mem_of_bare (hwords : ∀ w ∈ words, w ∈ reservedWords) {name : String}
    (hbare : needsQuotes name = false) : lowered name.toList ∉ words := by
  intro hmem
  have hreserved : reservedWords.contains (lowered name.toList) = true :=
    List.contains_iff_mem.mpr (hwords _ hmem)
  exact Bool.false_ne_true ((not_reserved_of_bare hbare).symm.trans hreserved)

/-- Where quoted names are marked as they are printed and bare ones are kept, every name is taken for
itself, as long as the words are reserved. -/
theorem keeps_sqlite (hwords : ∀ w ∈ words, w ∈ reservedWords) (name : String) :
    Dialect.sqlite.Keeps words name := by
  cases hquotes : needsQuotes name with
  | true => exact Or.inl hquotes
  | false => exact Or.inr (not_mem_of_bare hwords hquotes)

end Dialect

end ListQuery.Sql
