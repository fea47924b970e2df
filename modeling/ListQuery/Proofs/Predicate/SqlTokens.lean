/-
The tokens of a predicate's text.

* `Predicate.tokens` — the tokens that a predicate is printed as, its parameters numbered from some place;
* `toSql_text` and `toSql_params` — the statement of a predicate is what its fragments spell;
* `tokens?_fragments` — what the fragments spell is read as just these tokens, in every dialect.

Design notes: a child stands between parentheses and a test ends in a placeholder, a keyword or the name
of an escape, so whatever follows a fragment starts with a blank, a parenthesis or a comma.
-/
import ListQuery.Proofs.Sql.Pieces

namespace ListQuery

open Sql

/-! ### What fragments spell -/

namespace Fragment

/-- The literals that a fragment binds. -/
def operands : Fragment → List Literal
  | .operand v => [v]
  | _ => []

/-- The text of a fragment, when some parameters are bound before it. -/
def spell (d : Dialect) (n : Nat) : Fragment → String
  | .text t => t
  | .column c => qualified c.table c.name
  | .operand _ => d.placeholder (n + 1)
  | .escapeClause => d.escapeClause

/-- The text of some fragments, when some parameters are bound before them. -/
def spellAll (d : Dialect) (n : Nat) : List Fragment → List Char
  | [] => []
  | f :: fs => (f.spell d n).toList ++ spellAll d (n + f.operands.length) fs

theorem spellAll_append (d : Dialect) (n : Nat) (fs gs : List Fragment) :
    spellAll d n (fs ++ gs)
      = spellAll d n fs ++ spellAll d (n + (fs.flatMap operands).length) gs := by
  induction fs generalizing n with
  | nil => rfl
  | cons f fs ih =>
    rw [List.cons_append, spellAll, spellAll, ih, List.append_assoc, List.flatMap_cons,
      List.length_append, Nat.add_assoc]

end Fragment

/-- Adding a fragment to a statement puts its text and its literals at the end. -/
theorem add_eq (s : Statement) (f : Fragment) :
    s.add f = ⟨s.dialect, s.text ++ f.spell s.dialect s.params.length, s.params ++ f.operands⟩ := by
  cases f <;> simp [Statement.add, Statement.push, Statement.pushColumn, Statement.bind,
    Fragment.spell, Fragment.operands, Statement.nextNumber]

theorem foldl_add (fs : List Fragment) (s : Statement) :
    (fs.foldl Statement.add s).text.toList
        = s.text.toList ++ Fragment.spellAll s.dialect s.params.length fs
      ∧ (fs.foldl Statement.add s).params = s.params ++ fs.flatMap Fragment.operands := by
  induction fs generalizing s with
  | nil => simp [Fragment.spellAll]
  | cons f fs ih =>
    obtain ⟨htext, hparams⟩ := ih (s.add f)
    rw [List.foldl_cons, htext, hparams, add_eq]
    simp [Fragment.spellAll]

namespace Predicate

theorem toSql_text (p : Predicate) (d : Dialect) :
    (p.toSql d).text.toList = Fragment.spellAll d 0 p.fragments :=
  (foldl_add p.fragments (.empty d)).1

theorem toSql_params (p : Predicate) (d : Dialect) :
    (p.toSql d).params = p.fragments.flatMap Fragment.operands :=
  (foldl_add p.fragments (.empty d)).2

/-! ### Literals in order -/

mutual

/-- The literals of a predicate, in the order in which they are bound. -/
def operands : Predicate → List Literal
  | .compare _ _ v => [v]
  | .isNull _ | .isNotNull _ => []
  | .like _ _ pattern => [.text pattern]
  | .oneOf _ vs => vs
  | .range _ lower upper _ => [lower, upper]
  | .and children | .or children => operandsOf children
  | .not child => operands child

/-- The literals of some predicates, in order. -/
def operandsOf : List Predicate → List Literal
  | [] => []
  | p :: ps => operands p ++ operandsOf ps

end

theorem flatMap_listFragments (vs : List Literal) :
    (listFragments vs).flatMap Fragment.operands = vs := by
  fun_induction listFragments vs with
  | case1 => rfl
  | case2 v => rfl
  | case3 v vs _ ih => simp [Fragment.operands, ih]

mutual

/-- The fragments of a predicate bind its literals. -/
theorem flatMap_fragments : ∀ p : Predicate, p.fragments.flatMap Fragment.operands = p.operands
  | .compare _ _ _ | .isNull _ | .isNotNull _ | .like _ _ _ | .range _ _ _ _ => rfl
  | .oneOf _ vs => by simp [fragments, operands, Fragment.operands, flatMap_listFragments]
  | .and [] | .or [] => rfl
  | .and (p :: ps) => by
    simp [fragments, operands, operandsOf, Fragment.operands, flatMap_fragments p,
      flatMap_groupTail _ ps]
  | .or (p :: ps) => by
    simp [fragments, operands, operandsOf, Fragment.operands, flatMap_fragments p,
      flatMap_groupTail _ ps]
  | .not p => by simp [fragments, operands, Fragment.operands, flatMap_fragments p]

theorem flatMap_groupTail : ∀ (connective : String) (ps : List Predicate),
    (groupTail connective ps).flatMap Fragment.operands = operandsOf ps
  | _, [] => rfl
  | connective, p :: ps => by
    simp [groupTail, operandsOf, Fragment.operands, flatMap_fragments p,
      flatMap_groupTail connective ps]

end

/-! ### Tokens -/

/-- The tokens of a column as it is printed. -/
def columnTokens (c : Column) : List Token :=
  [.ofName c.table, .dot, .ofName c.name]

/-- The tokens of a list of parameters, with the parenthesis that ends it. -/
def paramTokens (n : Nat) : List Literal → List Token
  | [] => [.closeParen]
  | [_] => [.param (n + 1), .closeParen]
  | _ :: vs => .param (n + 1) :: .comma :: paramTokens (n + 1) vs

/-- The comparison with the upper bound of a range. -/
def upperSign (closed : Bool) : Comparison :=
  if closed then .lteq else .lt

mutual

/-- The tokens of a predicate, when some parameters are bound before it. -/
def tokens (n : Nat) : Predicate → List Token
  | .compare c op _ => columnTokens c ++ [.sign op, .param (n + 1)]
  | .isNull c => columnTokens c ++ [.keyword .is, .keyword .null]
  | .isNotNull c => columnTokens c ++ [.keyword .is, .keyword .not, .keyword .null]
  | .like c _ _ =>
    columnTokens c ++ [.keyword .like, .param (n + 1), .keyword .escape, .text "\\"]
  | .oneOf c vs => columnTokens c ++ .keyword .in :: .openParen :: paramTokens n vs
  | .range c _ _ closed =>
    columnTokens c ++ .sign .gteq :: .param (n + 1) :: .keyword .and ::
      (columnTokens c ++ [.sign (upperSign closed), .param (n + 2)])
  | .and [] => [.keyword .true]
  | .and (p :: ps) =>
    .openParen :: (tokens n p ++ .closeParen :: tailTokens .and (n + p.operands.length) ps)
  | .or [] => [.keyword .false]
  | .or (p :: ps) =>
    .openParen :: (tokens n p ++ .closeParen :: tailTokens .or (n + p.operands.length) ps)
  | .not p => .keyword .not :: .openParen :: (tokens n p ++ [.closeParen])

/-- The tokens of the children of a group after the first one. -/
def tailTokens (k : Keyword) (n : Nat) : List Predicate → List Token
  | [] => []
  | p :: ps =>
    .keyword k :: .openParen ::
      (tokens n p ++ .closeParen :: tailTokens k (n + p.operands.length) ps)

end

/-! ### The text read -/

variable {d : Dialect} {n : Nat} {rest : List Char} {ts : List Token}

theorem breaks_space (rest : List Char) : Breaks (' ' :: rest) :=
  breaks_cons (by decide) rest

theorem breaks_closeParen (rest : List Char) : Breaks (')' :: rest) :=
  breaks_cons (by decide) rest

theorem toList_qualified_append (c : Column) (rest : List Char) :
    (qualified c.table c.name).toList ++ rest
      = (quote c.table).toList ++ '.' :: ((quote c.name).toList ++ rest) := by
  simp [qualified]

theorem tokens?_column (c : Column) (hb : Breaks rest) (h : tokens? d n rest = some ts) :
    tokens? d n ((qualified c.table c.name).toList ++ rest) = some (columnTokens c ++ ts) := by
  rw [toList_qualified_append]
  exact tokens?_quote c.table (breaks_cons (by decide) _) (tokens?_dot (tokens?_quote c.name hb h))

/-- A comparison with a parameter. -/
theorem tokens?_comparison (op : Comparison) (hb : Breaks rest)
    (h : tokens? d (n + 1) rest = some ts) :
    tokens? d n (' ' :: (op.sign.toList ++ ' ' :: ((d.placeholder (n + 1)).toList ++ rest)))
      = some (.sign op :: .param (n + 1) :: ts) :=
  tokens?_space (tokens?_sign op (tokens?_placeholder hb h))

theorem tokens?_listFragments (vs : List Literal)
    (h : tokens? d (n + vs.length) rest = some ts) :
    tokens? d n (Fragment.spellAll d n (listFragments vs) ++ ')' :: rest)
      = some (paramTokens n vs ++ ts) := by
  fun_induction listFragments vs generalizing n with
  | case1 => exact tokens?_closeParen h
  | case2 v =>
    have htext : Fragment.spellAll d n [.operand v] ++ ')' :: rest
        = (d.placeholder (n + 1)).toList ++ ')' :: rest := by
      simp [Fragment.spellAll, Fragment.spell]
    rw [htext]
    exact tokens?_placeholder (breaks_closeParen _) (tokens?_closeParen h)
  | case3 v vs hvs ih =>
    -- The first value takes one number, and the others start from the next.
    have hlength : n + (v :: vs).length = n + 1 + vs.length := by
      rw [List.length_cons]
      omega
    rw [hlength] at h
    have htext : Fragment.spellAll d n (.operand v :: .text ", " :: listFragments vs) ++ ')' :: rest
        = (d.placeholder (n + 1)).toList ++ ',' :: ' ' ::
            (Fragment.spellAll d (n + 1) (listFragments vs) ++ ')' :: rest) := by
      simp [Fragment.spellAll, Fragment.spell, Fragment.operands]
    have htokens : paramTokens n (v :: vs) = .param (n + 1) :: .comma :: paramTokens (n + 1) vs := by
      cases vs with
      | nil => exact absurd rfl hvs
      | cons v' vs => rfl
    rw [htext, htokens]
    exact tokens?_placeholder (breaks_cons (by decide) _) (tokens?_comma (tokens?_space (ih h)))

/-- The text of a group: its first child in parentheses, and the others after it. -/
theorem spellAll_group (connective : String) (p : Predicate) (ps : List Predicate) (n : Nat)
    (rest : List Char) :
    Fragment.spellAll d n (.text "(" :: p.fragments ++ .text ")" :: groupTail connective ps) ++ rest
      = '(' :: (Fragment.spellAll d n p.fragments ++ ')' ::
          (Fragment.spellAll d (n + p.operands.length) (groupTail connective ps) ++ rest)) := by
  simp [Fragment.spellAll, Fragment.spell, Fragment.operands, Fragment.spellAll_append,
    flatMap_fragments]

theorem toList_and : " AND ".toList = ' ' :: (Keyword.and.upper ++ [' ']) := by
  decide

theorem toList_or : " OR ".toList = ' ' :: (Keyword.or.upper ++ [' ']) := by
  decide

mutual

/-- The text of a predicate is read as its tokens. -/
theorem tokens?_fragments : ∀ (p : Predicate) {n : Nat} {rest : List Char} {ts : List Token},
    Breaks rest → tokens? d (n + p.operands.length) rest = some ts →
    tokens? d n (Fragment.spellAll d n p.fragments ++ rest) = some (p.tokens n ++ ts)
  | .compare c op v, n, rest, ts, hb, h => by
    have htext : Fragment.spellAll d n (fragments (.compare c op v)) ++ rest
        = (qualified c.table c.name).toList ++ ' ' ::
            (op.sign.toList ++ ' ' :: ((d.placeholder (n + 1)).toList ++ rest)) := by
      simp [fragments, Fragment.spellAll, Fragment.spell, Fragment.operands]
    rw [htext, tokens, List.append_assoc]
    exact tokens?_column c (breaks_space _) (tokens?_comparison op hb h)
  | .isNull c, n, rest, ts, hb, h => by
    have htext : Fragment.spellAll d n (fragments (.isNull c)) ++ rest
        = (qualified c.table c.name).toList ++ ' ' ::
            (Keyword.is.upper ++ ' ' :: (Keyword.null.upper ++ rest)) := by
      simp [fragments, Fragment.spellAll, Fragment.spell, Keyword.upper, Keyword.word]
    rw [htext, tokens, List.append_assoc]
    refine tokens?_column c (breaks_space _) (tokens?_space ?_)
    exact tokens?_keyword .is (breaks_space _) (tokens?_space (tokens?_keyword .null hb h))
  | .isNotNull c, n, rest, ts, hb, h => by
    have htext : Fragment.spellAll d n (fragments (.isNotNull c)) ++ rest
        = (qualified c.table c.name).toList ++ ' ' :: (Keyword.is.upper ++ ' ' ::
            (Keyword.not.upper ++ ' ' :: (Keyword.null.upper ++ rest))) := by
      simp [fragments, Fragment.spellAll, Fragment.spell, Keyword.upper, Keyword.word]
    rw [htext, tokens, List.append_assoc]
    refine tokens?_column c (breaks_space _) (tokens?_space ?_)
    refine tokens?_keyword .is (breaks_space _) (tokens?_space ?_)
    exact tokens?_keyword .not (breaks_space _) (tokens?_space (tokens?_keyword .null hb h))
  | .like c kind pattern, n, rest, ts, hb, h => by
    have htext : Fragment.spellAll d n (fragments (.like c kind pattern)) ++ rest
        = (qualified c.table c.name).toList ++ ' ' :: (Keyword.like.upper ++ ' ' ::
            ((d.placeholder (n + 1)).toList ++ (d.escapeClause.toList ++ rest))) := by
      simp [fragments, Fragment.spellAll, Fragment.spell, Fragment.operands, Keyword.upper,
        Keyword.word]
    have hescape : Breaks (d.escapeClause.toList ++ rest) := by
      cases d <;> exact breaks_space _
    rw [htext, tokens, List.append_assoc]
    refine tokens?_column c (breaks_space _) (tokens?_space ?_)
    refine tokens?_keyword .like (breaks_space _) (tokens?_space ?_)
    exact tokens?_placeholder hescape (tokens?_escapeClause hb h)
  | .oneOf c vs, n, rest, ts, hb, h => by
    have htext : Fragment.spellAll d n (fragments (.oneOf c vs)) ++ rest
        = (qualified c.table c.name).toList ++ ' ' :: (Keyword.in.upper ++ ' ' :: '(' ::
            (Fragment.spellAll d n (listFragments vs) ++ ')' :: rest)) := by
      simp [fragments, Fragment.spellAll, Fragment.spell, Fragment.operands, Keyword.upper,
        Keyword.word, Fragment.spellAll_append]
    rw [htext, tokens, List.append_assoc]
    refine tokens?_column c (breaks_space _) (tokens?_space ?_)
    refine tokens?_keyword .in (breaks_space _) (tokens?_space (tokens?_openParen ?_))
    exact tokens?_listFragments vs h
  | .range c lower upper closed, n, rest, ts, hb, h => by
    have htext : Fragment.spellAll d n (fragments (.range c lower upper closed)) ++ rest
        = (qualified c.table c.name).toList ++ ' ' :: (Comparison.gteq.sign.toList ++ ' ' ::
            ((d.placeholder (n + 1)).toList ++ ' ' :: (Keyword.and.upper ++ ' ' ::
              ((qualified c.table c.name).toList ++ ' ' :: ((upperSign closed).sign.toList ++ ' ' ::
                ((d.placeholder (n + 2)).toList ++ rest)))))) := by
      cases closed <;> simp [fragments, Fragment.spellAll, Fragment.spell, Fragment.operands,
        Keyword.upper, Keyword.word, Comparison.sign, upperSign]
    rw [htext, tokens, List.append_assoc]
    -- The column is printed twice, each time with a placeholder of its own.
    refine tokens?_column c (breaks_space _) (tokens?_comparison .gteq (breaks_space _) ?_)
    refine tokens?_space (tokens?_keyword .and (breaks_space _) (tokens?_space ?_))
    rw [List.append_eq, List.append_assoc]
    exact tokens?_column c (breaks_space _) (tokens?_comparison (upperSign closed) hb h)
  | .and [], n, rest, ts, hb, h => by
    have htext : Fragment.spellAll d n (fragments (.and [])) ++ rest = Keyword.true.upper ++ rest := by
      simp [fragments, Fragment.spellAll, Fragment.spell, Keyword.upper, Keyword.word]
    rw [htext]
    exact tokens?_keyword .true hb h
  | .or [], n, rest, ts, hb, h => by
    have htext : Fragment.spellAll d n (fragments (.or [])) ++ rest
        = Keyword.false.upper ++ rest := by
      simp [fragments, Fragment.spellAll, Fragment.spell, Keyword.upper, Keyword.word]
    rw [htext]
    exact tokens?_keyword .false hb h
  | .and (p :: ps), n, rest, ts, _, h => by
    rw [operands, operandsOf, List.length_append, ← Nat.add_assoc] at h
    have htail := tokens?_groupTail toList_and ps h
    have hp := tokens?_fragments p (breaks_closeParen _) (tokens?_closeParen htail)
    rw [fragments, spellAll_group, tokens]
    simpa using tokens?_openParen hp
  | .or (p :: ps), n, rest, ts, _, h => by
    rw [operands, operandsOf, List.length_append, ← Nat.add_assoc] at h
    have htail := tokens?_groupTail toList_or ps h
    have hp := tokens?_fragments p (breaks_closeParen _) (tokens?_closeParen htail)
    rw [fragments, spellAll_group, tokens]
    simpa using tokens?_openParen hp
  | .not p, n, rest, ts, hb, h => by
    have htext : Fragment.spellAll d n (fragments (.not p)) ++ rest
        = Keyword.not.upper ++ ' ' :: '(' :: (Fragment.spellAll d n p.fragments ++ ')' :: rest) := by
      simp [fragments, Fragment.spellAll, Fragment.spell, Fragment.operands, Keyword.upper,
        Keyword.word, Fragment.spellAll_append]
    have hp := tokens?_fragments p (breaks_closeParen rest) (tokens?_closeParen h)
    rw [htext, tokens]
    simpa using tokens?_keyword .not (breaks_space _) (tokens?_space (tokens?_openParen hp))

theorem tokens?_groupTail {connective : String} {k : Keyword}
    (hk : connective.toList = ' ' :: (k.upper ++ [' '])) :
    ∀ (ps : List Predicate) {n : Nat} {rest : List Char} {ts : List Token},
      tokens? d (n + (operandsOf ps).length) rest = some ts →
      tokens? d n (Fragment.spellAll d n (groupTail connective ps) ++ rest)
        = some (tailTokens k n ps ++ ts)
  | [], n, rest, ts, h => h
  | p :: ps, n, rest, ts, h => by
    have htext : Fragment.spellAll d n (groupTail connective (p :: ps)) ++ rest
        = ' ' :: (k.upper ++ ' ' ::
            (Fragment.spellAll d n
              (.text "(" :: p.fragments ++ .text ")" :: groupTail connective ps) ++ rest)) := by
      simp [groupTail, Fragment.spellAll, Fragment.spell, Fragment.operands, hk]
    rw [operandsOf, List.length_append, ← Nat.add_assoc] at h
    have htail := tokens?_groupTail hk ps h
    have hp := tokens?_fragments p (breaks_closeParen _) (tokens?_closeParen htail)
    rw [htext, spellAll_group, tailTokens]
    simpa using
      tokens?_space (tokens?_keyword k (breaks_space _) (tokens?_space (tokens?_openParen hp)))

end

/-- The statement of a predicate is read as the tokens of the predicate. -/
theorem tokens?_toSql (p : Predicate) (d : Dialect) :
    tokens? d 0 (p.toSql d).text.toList = some (p.tokens 0) := by
  have h := tokens?_fragments (d := d) (n := 0) p breaks_nil tokens?_nil
  rw [List.append_nil, List.append_nil] at h
  rw [toSql_text]
  exact h

end Predicate

end ListQuery
