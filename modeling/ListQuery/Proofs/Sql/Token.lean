/-
The tokens of SQL text.

A database reads a condition as tokens first.  `tokens?` is that reader for what conditions are made of:
names, keywords, placeholders, comparisons, texts, and four signs that stand alone.

Design notes: double quotes delimit names in every dialect, and the keywords are those of conditions
alone, in any case of their letters.  As in standard SQL no keyword is a name unless it is quoted.  A
placeholder without a number is the next one, so the reader counts the placeholders that it has seen.
-/
import ListQuery.Numeric.NumberText
import ListQuery.Predicate.Text

namespace ListQuery.Sql

/-! ### Tokens -/

/-- A keyword of conditions. -/
inductive Keyword where
  | and
  | or
  | not
  | is
  | null
  | like
  | escape
  | in
  | true
  | false
deriving DecidableEq

namespace Keyword

/-- Every keyword. -/
def all : List Keyword :=
  [.and, .or, .not, .is, .null, .like, .escape, .in, .true, .false]

/-- A keyword in lower case. -/
def word : Keyword → String
  | .and => "and"
  | .or => "or"
  | .not => "not"
  | .is => "is"
  | .null => "null"
  | .like => "like"
  | .escape => "escape"
  | .in => "in"
  | .true => "true"
  | .false => "false"

/-- The keyword that a word spells, in any case of its letters. -/
def ofWord? (cs : List Char) : Option Keyword :=
  all.find? fun k => k.word == String.ofList (cs.map Char.toLower)

end Keyword

/-- A token of a condition. -/
inductive Token where
  | name (s : String)
  | keyword (k : Keyword)
  /-- The placeholder of the parameter with this number. -/
  | param (number : Nat)
  | sign (op : Comparison)
  | text (s : String)
  | dot
  | comma
  | openParen
  | closeParen
deriving DecidableEq

namespace Token

/-- The token that is one character, whatever follows. -/
def ofChar? : Char → Option Token
  | '.' => some .dot
  | ',' => some .comma
  | '(' => some .openParen
  | ')' => some .closeParen
  | '=' => some (.sign .eq)
  | _ => none

/-- The token of a word. -/
def ofWord (cs : List Char) : Token :=
  match Keyword.ofWord? cs with
  | some k => .keyword k
  | none => .name (String.ofList cs)

/-- The number of placeholders that a token is. -/
def places : Token → Nat
  | .param _ => 1
  | _ => 0

end Token

/-! ### The reader -/

/-- Whether a backslash is an escape in the string literals of a dialect. -/
def Dialect.hasBackslash : Dialect → Bool
  | .mysql => true
  | .postgres | .sqlite => false

/-- The characters up to a closing quote, and what follows it.  A quote inside stands twice; where there
are escapes, a quote or a backslash may also follow a backslash. -/
def enclosed (quote : Char) (hasBackslash : Bool) : List Char → Option (List Char × List Char)
  | [] => none
  | [c] => if c = quote then some ([], []) else none
  | c :: d :: rest =>
    if c = quote then
      if d = quote then (enclosed quote hasBackslash rest).map fun r => (d :: r.1, r.2)
      else some ([], d :: rest)
    else if hasBackslash ∧ c = '\\' then
      if d = quote ∨ d = '\\' then (enclosed quote hasBackslash rest).map fun r => (d :: r.1, r.2)
      else none
    else (enclosed quote hasBackslash (d :: rest)).map fun r => (c :: r.1, r.2)

/-- The comparison that starts with an angle, and what follows it. -/
def angle (c : Char) (rest : List Char) : Comparison × List Char :=
  match c, rest with
  | '<', '=' :: after => (.lteq, after)
  | '<', '>' :: after => (.notEq, after)
  | '<', _ => (.lt, rest)
  | _, '=' :: after => (.gteq, after)
  | _, _ => (.gt, rest)

/-- The placeholder that starts with this character, and what follows it.  A dialect numbers its
placeholders, or counts them. -/
def placeholder? (d : Dialect) (seen : Nat) (c : Char) (rest : List Char) :
    Option (Token × List Char) :=
  match d, c with
  | .postgres, '$' =>
    -- The number is written out, and need not be the next one.
    let ds := rest.takeWhile Char.isDigit
    if ds.isEmpty then none
    else some (.param (Numeric.NumberText.natOf ds), rest.dropWhile Char.isDigit)
  | .mysql, '?' | .sqlite, '?' => some (.param (seen + 1), rest)
  | _, _ => none

/-- The first token of a text that starts with this character, and what follows the token. -/
def Token.next? (d : Dialect) (seen : Nat) (c : Char) (rest : List Char) :
    Option (Token × List Char) :=
  match Token.ofChar? c with
  | some t => some (t, rest)
  | none =>
    if c = '"' then (enclosed '"' false rest).map fun r => (.name (String.ofList r.1), r.2)
    else if c = '\'' then
      (enclosed '\'' d.hasBackslash rest).map fun r => (.text (String.ofList r.1), r.2)
    else if c = '<' ∨ c = '>' then some (.sign (angle c rest).1, (angle c rest).2)
    else if c.isDigit then none
    else if isNameChar c then
      some (.ofWord (c :: rest.takeWhile isNameChar), rest.dropWhile isNameChar)
    else placeholder? d seen c rest

theorem length_of_enclosed {quote : Char} {hasBackslash : Bool} {cs : List Char}
    {r : List Char × List Char} (h : enclosed quote hasBackslash cs = some r) :
    r.2.length ≤ cs.length := by
  fun_induction enclosed quote hasBackslash cs generalizing r <;> simp_all <;> grind

theorem length_angle_le (c : Char) (rest : List Char) :
    (angle c rest).2.length ≤ rest.length := by
  unfold angle
  split <;> simp

theorem length_of_placeholder? {d : Dialect} {seen : Nat} {c : Char} {rest : List Char}
    {r : Token × List Char} (h : placeholder? d seen c rest = some r) :
    r.2.length ≤ rest.length := by
  have hdrop := (List.dropWhile_sublist (l := rest) Char.isDigit).length_le
  unfold placeholder? at h
  split at h
  · simp only [Option.ite_none_left_eq_some, Option.some.injEq] at h
    obtain ⟨_, rfl⟩ := h
    exact hdrop
  · obtain rfl := Option.some.inj h
    exact Nat.le_refl _
  · obtain rfl := Option.some.inj h
    exact Nat.le_refl _
  · simp at h

theorem Token.length_of_next? {d : Dialect} {seen : Nat} {c : Char} {rest : List Char}
    {r : Token × List Char} (h : Token.next? d seen c rest = some r) :
    r.2.length ≤ rest.length := by
  have hdrop := (List.dropWhile_sublist (l := rest) isNameChar).length_le
  unfold Token.next? at h
  split at h
  · obtain rfl := Option.some.inj h
    exact Nat.le_refl _
  · split at h
    · obtain ⟨r', hr', rfl⟩ := Option.map_eq_some_iff.mp h
      exact length_of_enclosed hr'
    · split at h
      · obtain ⟨r', hr', rfl⟩ := Option.map_eq_some_iff.mp h
        exact length_of_enclosed hr'
      · split at h
        · obtain rfl := Option.some.inj h
          exact length_angle_le c rest
        · split at h
          · simp at h
          · split at h
            · obtain rfl := Option.some.inj h
              exact hdrop
            · exact length_of_placeholder? h

/-- The tokens of a text, when some placeholders were seen before it. -/
def tokens? (d : Dialect) (seen : Nat) : List Char → Option (List Token)
  | [] => some []
  | c :: rest =>
    if c = ' ' then tokens? d seen rest
    else
      match _h : Token.next? d seen c rest with
      | some r => (tokens? d (seen + r.1.places) r.2).map (r.1 :: ·)
      | none => none
termination_by cs => cs.length
decreasing_by
  · simp
  · have := Token.length_of_next? _h
    simp only [List.length_cons]
    omega

end ListQuery.Sql
