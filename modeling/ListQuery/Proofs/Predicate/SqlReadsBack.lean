/-
Rendered SQL means the predicate.

The text of a predicate is read by the grammar of conditions in exactly one way, whatever its names are
made of, unless one of them is a keyword that is missing among the reserved words:

* `toSql_readsBack_iff` — with no such name there is one reading, which has the predicate's columns, its
  parameters in order, and its value on every row; with such a name there is none;
* `derives_tokens` and `value_expr` — the condition that is read, and its value;
* `surplus_tokens` — a name that is taken for a keyword leaves a dot without its two names.

Design notes: the renderer prints ten keywords and reserves seven of them.  A table named `true` is
printed bare, and `true.id = $1` is no condition.
-/
import ListQuery.Proofs.Predicate.SqlTokens
import ListQuery.Proofs.Sql.Unambiguous

namespace ListQuery

open Sql

/-- Whether neither name of a column is a keyword that is not reserved. -/
def Column.Readable (c : Column) : Prop :=
  ¬IsUnreserved c.table ∧ ¬IsUnreserved c.name

namespace Predicate

/-! ### What the text names -/

mutual

/-- The columns that the text of a predicate names, from left to right: a range names its column for
either bound. -/
def mentions : Predicate → List Column
  | .compare c _ _ | .isNull c | .isNotNull c | .like c _ _ | .oneOf c _ => [c]
  | .range c _ _ _ => [c, c]
  | .and children | .or children => mentionsOf children
  | .not child => mentions child

/-- The columns that the texts of some predicates name. -/
def mentionsOf : List Predicate → List Column
  | [] => []
  | p :: ps => mentions p ++ mentionsOf ps

end

mutual

/-- The text names the columns of the tests and no others. -/
theorem mem_mentions {c : Column} : ∀ p : Predicate, c ∈ p.mentions ↔ c ∈ p.columns
  | .compare _ _ _ | .isNull _ | .isNotNull _ | .like _ _ _ | .oneOf _ _ => Iff.rfl
  | .range _ _ _ _ => by simp [mentions, columns]
  | .and children | .or children => mem_mentionsOf children
  | .not child => mem_mentions child

theorem mem_mentionsOf {c : Column} : ∀ ps : List Predicate, c ∈ mentionsOf ps ↔ c ∈ columnsOf ps
  | [] => Iff.rfl
  | p :: ps => by
    rw [mentionsOf, columnsOf, List.mem_append, List.mem_append, mem_mentions p, mem_mentionsOf ps]

end

/-- Whether no name of a predicate is a keyword that is not reserved. -/
def Readable (p : Predicate) : Prop :=
  ∀ c ∈ p.columns, c.Readable

instance (c : Column) : Decidable c.Readable :=
  inferInstanceAs (Decidable (_ ∧ _))

instance (p : Predicate) : Decidable p.Readable :=
  inferInstanceAs (Decidable (∀ c ∈ p.columns, c.Readable))

mutual

/-- Whether no list of a predicate is empty. -/
def ListsFilled : Predicate → Prop
  | .oneOf _ vs => vs ≠ []
  | .and children | .or children => AllListsFilled children
  | .not child => ListsFilled child
  | _ => True

/-- Whether no list of some predicates is empty. -/
def AllListsFilled : List Predicate → Prop
  | [] => True
  | p :: ps => ListsFilled p ∧ AllListsFilled ps

end

/-! ### The condition that is read -/

mutual

/-- The condition that a predicate is read as, when some parameters are bound before it. -/
def expr (n : Nat) : Predicate → Expr
  | .compare c op _ => .test (.column c) (.compare op (.param (n + 1)))
  | .isNull c => .test (.column c) (.null false)
  | .isNotNull c => .test (.column c) (.null true)
  | .like c _ _ => .test (.column c) (.like (.param (n + 1)) (some "\\"))
  | .oneOf c vs =>
    .test (.column c)
      (.oneOf (.param (n + 1)) ((List.range' (n + 2) (vs.length - 1)).map .param))
  | .range c _ _ closed =>
    .and (.test (.column c) (.compare .gteq (.param (n + 1))))
      (.test (.column c) (.compare (upperSign closed) (.param (n + 2))))
  | .and [] => .truth true
  | .and (p :: ps) => tailExpr .and (expr n p) (n + p.operands.length) ps
  | .or [] => .truth false
  | .or (p :: ps) => tailExpr .or (expr n p) (n + p.operands.length) ps
  | .not p => .not (expr n p)

/-- A condition joined with the children of a group after the first one, from the left. -/
def tailExpr (join : Expr → Expr → Expr) (e : Expr) (n : Nat) : List Predicate → Expr
  | [] => e
  | p :: ps => tailExpr join (join e (expr n p)) (n + p.operands.length) ps

end

theorem paramTokens_eq (n : Nat) (v : Literal) (vs : List Literal) :
    paramTokens n (v :: vs)
      = Operand.tokens (.param (n + 1)) ++
          listTokens ((List.range' (n + 2) vs.length).map .param) := by
  induction vs generalizing n v with
  | nil => rfl
  | cons v' vs ih =>
    show .param (n + 1) :: .comma :: paramTokens (n + 1) (v' :: vs) = _
    rw [ih]
    rfl

theorem columnTokens_of_readable {c : Column} (h : c.Readable) :
    columnTokens c = Operand.tokens (.column c) := by
  rw [columnTokens, ofName_of_not_isUnreserved h.1, ofName_of_not_isUnreserved h.2]
  rfl

/-- A test of a readable column is derived. -/
theorem derives_test {c : Column} (h : c.Readable) (check : Check) {ts : List Token}
    (hts : ts = columnTokens c ++ check.tokens) : Derives .factor ts (.test (.column c) check) := by
  rw [hts, columnTokens_of_readable h]
  exact .primary (.test (.column c) check)

mutual

/-- The tokens of a readable predicate derive the condition. -/
theorem derives_tokens : ∀ (p : Predicate) (n : Nat), p.Readable → p.ListsFilled →
    Derives .disjunction (p.tokens n) (p.expr n)
  | .compare c op _, n, hc, _ =>
    .conjunction (.factor (derives_test (hc c List.mem_cons_self) (.compare op (.param (n + 1))) rfl))
  | .isNull c, _, hc, _ =>
    .conjunction (.factor (derives_test (hc c List.mem_cons_self) (.null false) rfl))
  | .isNotNull c, _, hc, _ =>
    .conjunction (.factor (derives_test (hc c List.mem_cons_self) (.null true) rfl))
  | .like c _ _, n, hc, _ =>
    .conjunction (.factor
      (derives_test (hc c List.mem_cons_self) (.like (.param (n + 1)) (some "\\")) rfl))
  | .oneOf _ [], _, _, hfilled => absurd rfl hfilled
  | .oneOf c (v :: vs), n, hc, _ => by
    refine .conjunction (.factor (derives_test (hc c List.mem_cons_self) _ ?_))
    rw [tokens, paramTokens_eq]
    rfl
  | .range c _ _ closed, n, hc, _ => by
    -- The one conjunction without parentheses: its sides are tests, and `AND` takes them first.
    have hlower := derives_test (hc c List.mem_cons_self) (.compare .gteq (.param (n + 1))) rfl
    have hupper :=
      derives_test (hc c List.mem_cons_self) (.compare (upperSign closed) (.param (n + 2))) rfl
    rw [tokens, expr]
    simpa [Check.tokens, Operand.tokens] using Derives.conjunction (.and (.factor hlower) hupper)
  | .and [], _, _, _ => .conjunction (.factor (.primary (.truth true)))
  | .or [], _, _, _ => .conjunction (.factor (.primary (.truth false)))
  | .and (p :: ps), n, hc, hfilled => by
    have hp := derives_tokens p n (fun c h => hc c (List.mem_append_left _ h)) hfilled.1
    have hps := derives_tail .and .and (fun h h' => .and h (.primary h')) ps
      (n + p.operands.length) (fun c h => hc c (List.mem_append_right _ h)) hfilled.2
      (.factor (.primary (.paren hp)))
    rw [tokens, expr]
    simpa using Derives.conjunction hps
  | .or (p :: ps), n, hc, hfilled => by
    have hp := derives_tokens p n (fun c h => hc c (List.mem_append_left _ h)) hfilled.1
    have hps := derives_tail .or .or (fun h h' => .or h (.factor (.primary h'))) ps
      (n + p.operands.length) (fun c h => hc c (List.mem_append_right _ h)) hfilled.2
      (.conjunction (.factor (.primary (.paren hp))))
    rw [tokens, expr]
    simpa using hps
  | .not p, n, hc, hfilled =>
    .conjunction (.factor (.not (.primary (.paren (derives_tokens p n hc hfilled)))))

/-- So do the tokens of a group, whose children stand in parentheses. -/
theorem derives_tail {l : Level} (k : Keyword) (join : Expr → Expr → Expr)
    (hjoin : ∀ {ts us : List Token} {e f : Expr}, Derives l ts e → Derives .primary us f →
      Derives l (ts ++ .keyword k :: us) (join e f)) :
    ∀ (ps : List Predicate) (n : Nat), (∀ c ∈ columnsOf ps, c.Readable) → AllListsFilled ps →
      ∀ {ts : List Token} {e : Expr}, Derives l ts e →
        Derives l (ts ++ tailTokens k n ps) (tailExpr join e n ps)
  | [], _, _, _, ts, e, h => by
    rw [tailTokens, List.append_nil]
    exact h
  | p :: ps, n, hc, hfilled, ts, e, h => by
    have hp := derives_tokens p n (fun c h => hc c (List.mem_append_left _ h)) hfilled.1
    have hps := derives_tail k join hjoin ps (n + p.operands.length)
      (fun c h => hc c (List.mem_append_right _ h)) hfilled.2 (hjoin h (.paren hp))
    rw [tailTokens, tailExpr]
    simpa using hps

end

/-! ### Its columns and parameters -/

mutual

/-- The condition that is read names the columns of the text and the parameters in order. -/
theorem columns_expr : ∀ (p : Predicate) (n : Nat), p.ListsFilled →
    (p.expr n).columns = p.mentions
      ∧ (p.expr n).params = List.range' (n + 1) p.operands.length
  | .compare _ _ _, _, _ | .isNull _, _, _ | .isNotNull _, _, _ | .like _ _ _, _, _ => ⟨rfl, rfl⟩
  | .range _ _ _ _, _, _ => ⟨rfl, rfl⟩
  | .oneOf _ [], _, hfilled => absurd rfl hfilled
  | .oneOf c (v :: vs), n, _ => by
    constructor
    · simp [expr, mentions, Expr.columns, Check.columns, Operand.columns, List.flatMap_map]
    · simp [expr, operands, Expr.params, Check.params, Operand.params, List.flatMap_map,
        List.range'_succ, List.flatMap_singleton']
  | .and [], _, _ | .or [], _, _ => ⟨rfl, rfl⟩
  | .and (p :: ps), n, hfilled => by
    have hp := columns_expr p n hfilled.1
    exact columns_tailExpr .and (fun _ _ => ⟨rfl, rfl⟩) ps hfilled.2 hp
  | .or (p :: ps), n, hfilled => by
    have hp := columns_expr p n hfilled.1
    exact columns_tailExpr .or (fun _ _ => ⟨rfl, rfl⟩) ps hfilled.2 hp
  | .not p, n, hfilled => columns_expr p n hfilled

theorem columns_tailExpr (join : Expr → Expr → Expr)
    (hjoin : ∀ e f, (join e f).columns = e.columns ++ f.columns
      ∧ (join e f).params = e.params ++ f.params) :
    ∀ (ps : List Predicate), AllListsFilled ps → ∀ {n : Nat} {e : Expr} {cs : List Column}
      {vs : List Literal}, e.columns = cs ∧ e.params = List.range' (n + 1) vs.length →
        (tailExpr join e (n + vs.length) ps).columns = cs ++ mentionsOf ps
          ∧ (tailExpr join e (n + vs.length) ps).params
            = List.range' (n + 1) (vs ++ operandsOf ps).length
  | [], _, n, e, cs, vs, h => by
    rw [tailExpr, mentionsOf, operandsOf, List.append_nil, List.append_nil]
    exact h
  | p :: ps, hfilled, n, e, cs, vs, h => by
    obtain ⟨hcolumns, hparams⟩ := columns_expr p (n + vs.length) hfilled.1
    have hjoined : (join e (p.expr (n + vs.length))).columns = cs ++ p.mentions
        ∧ (join e (p.expr (n + vs.length))).params
          = List.range' (n + 1) (vs ++ p.operands).length := by
      rw [(hjoin e _).1, (hjoin e _).2, h.1, h.2, hcolumns, hparams, List.length_append,
        ← List.range'_append_1, Nat.add_right_comm]
      exact ⟨rfl, rfl⟩
    have htail := columns_tailExpr join hjoin ps hfilled.2 hjoined
    rw [List.length_append, ← Nat.add_assoc, List.append_assoc, List.append_assoc] at htail
    exact htail

end

/-! ### Its value -/

section Value

variable {V : Type} (E : Engine V) (row : Column → V) (bound : Nat → V)

/-- Whether the parameters from some place on are bound to some literals. -/
def Binds (n : Nat) (vs : List Literal) : Prop :=
  (List.range' (n + 1) vs.length).map bound = vs.map E.ofLiteral

variable {E bound}

theorem Binds.append {n : Nat} {vs ws : List Literal} (h : Binds E bound n (vs ++ ws)) :
    Binds E bound n vs ∧ Binds E bound (n + vs.length) ws := by
  rw [Binds, List.length_append, ← List.range'_append_1, List.map_append, List.map_append] at h
  have hsplit := List.append_inj h (by simp)
  rw [Nat.add_right_comm] at hsplit
  exact hsplit

theorem Binds.cons {n : Nat} {v : Literal} {vs : List Literal} (h : Binds E bound n (v :: vs)) :
    bound (n + 1) = E.ofLiteral v ∧ Binds E bound (n + 1) vs := by
  rw [Binds, List.length_cons, List.range'_succ, List.map_cons, List.map_cons] at h
  exact List.cons.inj h

/-- The parameters of a statement are numbered from one. -/
theorem binds_getD (vs : List Literal) :
    Binds E (fun k => E.ofLiteral (vs.getD (k - 1) .null)) 0 vs := by
  refine List.ext_getElem (by simp) fun i h h' => ?_
  have hi : i < vs.length := by simpa using h'
  simp [hi]

mutual

/-- The condition that is read has the value of the predicate. -/
theorem value_expr : ∀ (p : Predicate) (n : Nat), p.ListsFilled → Binds E bound n p.operands →
    (p.expr n).value E row bound = p.value (E.tests row)
  | .compare c op v, n, _, h => by
    show E.compare op (row c) (bound (n + 1)) = _
    rw [h.cons.1]
    rfl
  | .isNull c, _, _, _ => by
    show Truth.ofBool (E.isNull (row c) != false) = Truth.ofBool (E.isNull (row c))
    rw [Bool.bne_false]
  | .isNotNull c, _, _, _ => by
    show Truth.ofBool (E.isNull (row c) != true) = Truth.ofBool (!E.isNull (row c))
    rw [Bool.bne_true]
  | .like c _ pattern, n, _, h => by
    show E.like (row c) (bound (n + 1)) (some "\\") = _
    rw [h.cons.1]
    rfl
  | .oneOf _ [], _, hfilled, _ => absurd rfl hfilled
  | .oneOf c (v :: vs), n, _, h => by
    -- The parameters of the list follow each other, from the one after those used so far.
    have hlist : (Operand.param (n + 1) :: (List.range' (n + 2) vs.length).map Operand.param).map
        (Operand.value row bound) = (v :: vs).map E.ofLiteral := by
      have hmap : (List.range' (n + 1) (vs.length + 1)).map bound = (v :: vs).map E.ofLiteral := h
      rw [← hmap]
      simp [List.range'_succ, Operand.value, Function.comp_def]
    show E.oneOf (row c) (List.map _ _) = E.oneOf (row c) _
    exact congrArg (E.oneOf (row c)) hlist
  | .range c lower upper closed, n, _, h => by
    obtain ⟨hlower, hrest⟩ := h.cons
    show (E.compare .gteq (row c) (bound (n + 1))).and
      (E.compare (upperSign closed) (row c) (bound (n + 2))) = _
    rw [hlower, hrest.cons.1]
    rfl
  | .and [], _, _, _ => rfl
  | .or [], _, _, _ => rfl
  | .and (p :: ps), n, hfilled, h => by
    obtain ⟨hp, hps⟩ := h.append
    -- The text groups from the left and the tree from the right, which associativity makes equal.
    rw [expr, value_tailExpr .and Truth.and .true (fun _ _ => rfl) Truth.and_assoc Truth.and_true
      ps _ hfilled.2 hps, value_expr p n hfilled.1 hp]
    rfl
  | .or (p :: ps), n, hfilled, h => by
    obtain ⟨hp, hps⟩ := h.append
    rw [expr, value_tailExpr .or Truth.or .false (fun _ _ => rfl) Truth.or_assoc Truth.or_false
      ps _ hfilled.2 hps, value_expr p n hfilled.1 hp]
    rfl
  | .not p, n, hfilled, h => congrArg Truth.not (value_expr p n hfilled h)

/-- A group from the left has the value of the group from the right. -/
theorem value_tailExpr (join : Expr → Expr → Expr) (op : Truth → Truth → Truth) (unit : Truth)
    (hjoin : ∀ e f, (join e f).value E row bound = op (e.value E row bound) (f.value E row bound))
    (hassoc : ∀ a b c, op (op a b) c = op a (op b c)) (hunit : ∀ a, op a unit = a) :
    ∀ (ps : List Predicate) (n : Nat), AllListsFilled ps → Binds E bound n (operandsOf ps) →
      ∀ {e : Expr}, (tailExpr join e n ps).value E row bound
        = op (e.value E row bound) ((values (E.tests row) ps).foldr op unit)
  | [], _, _, _, e => (hunit _).symm
  | p :: ps, n, hfilled, h, e => by
    obtain ⟨hp, hps⟩ := h.append
    -- The next child goes to the left, where the others have been joined already.
    rw [tailExpr, value_tailExpr join op unit hjoin hassoc hunit ps _ hfilled.2 hps, hjoin,
      value_expr p n hfilled.1 hp, hassoc]
    rfl

end

end Value

/-! ### Names that are lost -/

theorem surplus_ofName (name : String) :
    (Token.ofName name).surplus ≤ 1 ∧ ((Token.ofName name).surplus = 1 ↔ ¬IsUnreserved name) := by
  by_cases h : IsUnreserved name
  · obtain ⟨k, hk⟩ := ofName_of_isUnreserved h
    rw [hk]
    simp [Token.surplus, h]
  · rw [ofName_of_not_isUnreserved h]
    simp [Token.surplus, h]

/-- A column is readable if its dot has its two names. -/
theorem surplus_columnTokens (c : Column) :
    surplus (columnTokens c) ≤ 0 ∧ (surplus (columnTokens c) = 0 → c.Readable) := by
  obtain ⟨htable, hisTable⟩ := surplus_ofName c.table
  obtain ⟨hname, hisName⟩ := surplus_ofName c.name
  have hsum : surplus (columnTokens c)
      = (Token.ofName c.table).surplus + (-2 + (Token.ofName c.name).surplus) := by
    simp [columnTokens, Token.surplus]
  rw [hsum]
  refine ⟨by omega, fun hzero => ⟨hisTable.mp (by omega), hisName.mp (by omega)⟩⟩

theorem surplus_paramTokens (n : Nat) (vs : List Literal) : surplus (paramTokens n vs) = 0 := by
  fun_induction paramTokens n vs with
  | case1 => rfl
  | case2 => rfl
  | case3 n v vs _ ih => simp [ih, Token.surplus]

/-- Columns have no names to spare, so none can make up for those that another one lacks. -/
theorem surplus_columns (cs : List Column) :
    surplus (cs.flatMap columnTokens) ≤ 0
      ∧ (surplus (cs.flatMap columnTokens) = 0 → ∀ c ∈ cs, c.Readable) := by
  induction cs with
  | nil => exact ⟨Int.le_refl 0, fun _ => List.forall_mem_nil _⟩
  | cons c cs ih =>
    obtain ⟨hle, hreadable⟩ := ih
    obtain ⟨hc, hcReadable⟩ := surplus_columnTokens c
    rw [List.flatMap_cons, surplus_append]
    refine ⟨by omega, fun h => List.forall_mem_cons.mpr ⟨hcReadable ?_, hreadable ?_⟩⟩
    · omega
    · omega

mutual

/-- The tokens of a predicate lack the names that are taken for keywords. -/
theorem surplus_tokens : ∀ (p : Predicate) (n : Nat),
    surplus (p.tokens n) = surplus (p.mentions.flatMap columnTokens)
  | .compare _ _ _, _ | .isNull _, _ | .isNotNull _, _ | .like _ _ _, _ | .range _ _ _ _, _ => by
    simp [tokens, mentions, Token.surplus]
  | .oneOf _ _, _ => by simp [tokens, mentions, Token.surplus, surplus_paramTokens]
  | .and [], _ | .or [], _ => rfl
  | .and (p :: ps), n => by
    simp [tokens, mentions, mentionsOf, Token.surplus, surplus_tokens p n, surplus_tailTokens]
  | .or (p :: ps), n => by
    simp [tokens, mentions, mentionsOf, Token.surplus, surplus_tokens p n, surplus_tailTokens]
  | .not p, n => by simp [tokens, mentions, Token.surplus, surplus_tokens p n]

theorem surplus_tailTokens (k : Keyword) : ∀ (n : Nat) (ps : List Predicate),
    surplus (tailTokens k n ps) = surplus ((mentionsOf ps).flatMap columnTokens)
  | _, [] => rfl
  | n, p :: ps => by
    simp [tailTokens, mentionsOf, Token.surplus, surplus_tokens p n, surplus_tailTokens k _ ps]

end

/-- A predicate that is read at all has readable names. -/
theorem readable_of_derives {p : Predicate} {n : Nat} {l : Level} {e : Expr}
    (h : Derives l (p.tokens n) e) : p.Readable := by
  have hsum := h.surplus_eq_zero
  rw [surplus_tokens] at hsum
  intro c hc
  exact (surplus_columns p.mentions).2 hsum c ((mem_mentions p).mpr hc)

/-! ### The text -/

/-- Whether a condition is the only one that the text of a predicate is read as, with its names, its
parameters and its value on every row. -/
structure ReadsBack (p : Predicate) (d : Dialect) (e : Expr) : Prop where
  unique : ∀ e', Reads d (p.toSql d).text e' ↔ e' = e
  columns : e.columns = p.mentions
  params : e.params = List.range' 1 (p.toSql d).params.length
  value : ∀ {V : Type} (E : Engine V) (row : Column → V),
    e.value E row (fun k => E.ofLiteral ((p.toSql d).params.getD (k - 1) .null))
      = p.value (E.tests row)

theorem reads_toSql {p : Predicate} {d : Dialect} {e : Expr} :
    Reads d (p.toSql d).text e ↔ Derives .disjunction (p.tokens 0) e := by
  rw [Reads, tokens?_toSql]
  constructor
  · rintro ⟨ts, hts, h⟩
    rw [Option.some.inj hts]
    exact h
  · intro h
    exact ⟨_, rfl, h⟩

theorem readsBack_expr {p : Predicate} (hc : p.Readable) (hfilled : p.ListsFilled) (d : Dialect) :
    p.ReadsBack d (p.expr 0) where
  unique e := by
    rw [reads_toSql]
    constructor
    · intro h
      exact h.eq (derives_tokens p 0 hc hfilled)
    · rintro rfl
      exact derives_tokens p 0 hc hfilled
  columns := (columns_expr p 0 hfilled).1
  params := by
    rw [toSql_params, flatMap_fragments]
    exact (columns_expr p 0 hfilled).2
  value E row := by
    rw [toSql_params, flatMap_fragments]
    exact value_expr row p 0 hfilled (binds_getD p.operands)

/-- With no name that is an unreserved keyword, the text of a predicate is read in one way, as the
predicate; with such a name it is no condition. -/
theorem toSql_readsBack_iff (p : Predicate) (h : p.ListsFilled) (d : Dialect) :
    ((∃ e, p.ReadsBack d e) ↔ p.Readable) ∧ (¬p.Readable → ∀ e, ¬Reads d (p.toSql d).text e) := by
  -- The tokens are known whatever the names are, so a reading of any kind tells about them.
  have hreadable : ∀ e, Reads d (p.toSql d).text e → p.Readable := by
    intro e he
    exact readable_of_derives (reads_toSql.mp he)
  refine ⟨⟨?_, ?_⟩, ?_⟩
  · rintro ⟨e, he⟩
    exact hreadable e ((he.unique e).mpr rfl)
  · intro hc
    exact ⟨p.expr 0, readsBack_expr hc h d⟩
  · intro hc e he
    exact hc (hreadable e he)

/-- A reserved word and a quote are read back; a table named `true` is not. -/
theorem toSql_readsBack_iff_order_true :
    (∃ e, (Predicate.oneOf ⟨"order", "a\"b"⟩ [.null]).ReadsBack .mysql e)
      ∧ ∀ e, ¬Reads .postgres
          ((Predicate.compare ⟨"true", "id"⟩ .eq .null).toSql .postgres).text e := by
  constructor
  · exact (toSql_readsBack_iff _ (by simp [ListsFilled]) .mysql).1.mpr (by decide)
  · exact (toSql_readsBack_iff _ (by simp [ListsFilled]) .postgres).2 (by decide)

example : ((Predicate.compare ⟨"true", "id"⟩ .eq .null).toSql .postgres).text = "true.id = $1" := by
  decide

end Predicate

end ListQuery
