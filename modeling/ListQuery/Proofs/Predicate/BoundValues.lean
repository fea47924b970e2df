/-
Literals are bound and never printed.

A statement is pieces of text with one placeholder between each two of them.  The pieces are those of
the predicate without its literals, and the literals are what is bound, in the order of their
placeholders.  So two predicates that differ in their literals alone have one text.

* `Predicate.blank` — a predicate without its literals, which it is made of with these;
* `Fragment.pieces` and `weave` — pieces of text, and the text that placeholders make of them;
* `toSql_eq_weave` — the statement of a predicate.

Design notes: a list keeps its length when its literals are taken away, since each of them has a
placeholder of its own.
-/
import ListQuery.Proofs.Predicate.SqlTokens

namespace ListQuery

open Sql

/-! ### Pieces of text -/

/-- The text of some pieces with the placeholders of a dialect between them, when some parameters are
bound before. -/
def weave (d : Dialect) (n : Nat) : List String → String
  | [] => ""
  | [piece] => piece
  | piece :: rest => piece ++ d.placeholder (n + 1) ++ weave d (n + 1) rest

/-- Some pieces with a text in front of the first one. -/
def glue (text : String) : List String → List String
  | [] => [text]
  | piece :: rest => (text ++ piece) :: rest

theorem length_glue (text : String) {pieces : List String} (h : pieces ≠ []) :
    (glue text pieces).length = pieces.length := by
  cases pieces with
  | nil => exact absurd rfl h
  | cons piece rest => rfl

theorem weave_glue (d : Dialect) (n : Nat) (text : String) (pieces : List String) :
    weave d n (glue text pieces) = text ++ weave d n pieces := by
  rcases pieces with - | ⟨piece, - | ⟨second, rest⟩⟩
  · exact String.append_empty.symm
  · rfl
  · simp only [glue, weave, String.append_assoc]

theorem weave_cons (d : Dialect) (n : Nat) (piece : String) {pieces : List String}
    (h : pieces ≠ []) :
    weave d n (piece :: pieces) = piece ++ d.placeholder (n + 1) ++ weave d (n + 1) pieces := by
  cases pieces with
  | nil => exact absurd rfl h
  | cons second rest => rfl

namespace Fragment

/-- The text before, between and after the operands of some fragments. -/
def pieces (d : Dialect) : List Fragment → List String
  | [] => [""]
  | .operand _ :: fs => "" :: pieces d fs
  | .text t :: fs => glue t (pieces d fs)
  | .column c :: fs => glue (qualified c.table c.name) (pieces d fs)
  | .escapeClause :: fs => glue d.escapeClause (pieces d fs)

/-- There is one piece more than there are operands. -/
theorem length_pieces (d : Dialect) (fs : List Fragment) :
    (pieces d fs).length = (fs.flatMap operands).length + 1 := by
  induction fs with
  | nil => rfl
  | cons f fs ih =>
    have hne : pieces d fs ≠ [] := by
      intro hnil
      simp [hnil] at ih
    rw [List.flatMap_cons, List.length_append]
    cases f with
    | operand v =>
      rw [pieces, List.length_cons, ih]
      simp only [operands, List.length_singleton]
      omega
    | text | column | escapeClause =>
      rw [pieces, length_glue _ hne, ih]
      simp only [operands, List.length_nil, Nat.zero_add]

theorem pieces_ne_nil (d : Dialect) (fs : List Fragment) : pieces d fs ≠ [] := by
  intro hnil
  have hlength := length_pieces d fs
  simp [hnil] at hlength

/-- What some fragments spell are their pieces, with placeholders between them. -/
theorem spellAll_eq_weave (d : Dialect) (n : Nat) (fs : List Fragment) :
    spellAll d n fs = (weave d n (pieces d fs)).toList := by
  induction fs generalizing n with
  | nil => rfl
  | cons f fs ih =>
    rw [spellAll, ih, ← String.toList_append]
    cases f with
    | operand v =>
      rw [pieces, weave_cons d n "" (pieces_ne_nil d fs), String.empty_append]
      rfl
    | text | column | escapeClause =>
      rw [pieces, weave_glue]
      rfl

/-- A fragment without the literal that it binds. -/
def blank : Fragment → Fragment
  | .operand _ => .operand .null
  | f => f

theorem pieces_map_blank (d : Dialect) (fs : List Fragment) :
    pieces d (fs.map blank) = pieces d fs := by
  induction fs with
  | nil => rfl
  | cons f fs ih => cases f <;> simp only [List.map_cons, blank, pieces, ih]

end Fragment

/-! ### Predicates without their literals -/

namespace Predicate

mutual

/-- A predicate without its literals: values are null, patterns are empty, and lists keep their
length. -/
def blank : Predicate → Predicate
  | .compare c op _ => .compare c op .null
  | .isNull c => .isNull c
  | .isNotNull c => .isNotNull c
  | .like c kind _ => .like c kind ""
  | .oneOf c vs => .oneOf c (List.replicate vs.length .null)
  | .range c _ _ closed => .range c .null .null closed
  | .and children => .and (blankAll children)
  | .or children => .or (blankAll children)
  | .not child => .not (blank child)

/-- Some predicates without their literals. -/
def blankAll : List Predicate → List Predicate
  | [] => []
  | p :: ps => blank p :: blankAll ps

end

theorem map_blank_listFragments (vs : List Literal) :
    (listFragments (List.replicate vs.length .null)).map Fragment.blank
      = (listFragments vs).map Fragment.blank := by
  fun_induction listFragments vs with
  | case1 => rfl
  | case2 v => rfl
  | case3 v vs hvs ih =>
    have hsplit : listFragments (.null :: List.replicate vs.length .null)
        = .operand .null :: .text ", " :: listFragments (List.replicate vs.length .null) := by
      cases vs with
      | nil => exact absurd rfl hvs
      | cons v' vs => rfl
    rw [List.length_cons, List.replicate_succ, hsplit, List.map_cons, List.map_cons, ih]
    rfl

mutual

/-- The literals aside, a predicate has the fragments that it has without them. -/
theorem map_blank_fragments : ∀ p : Predicate,
    p.blank.fragments.map Fragment.blank = p.fragments.map Fragment.blank
  | .compare _ _ _ | .isNull _ | .isNotNull _ | .like _ _ _ | .range _ _ _ _ => rfl
  | .oneOf _ vs => by simp [blank, fragments, map_blank_listFragments]
  | .and [] | .or [] => rfl
  | .and (p :: ps) => by
    simp [blank, blankAll, fragments, map_blank_fragments p, map_blank_groupTail _ ps]
  | .or (p :: ps) => by
    simp [blank, blankAll, fragments, map_blank_fragments p, map_blank_groupTail _ ps]
  | .not p => by simp [blank, fragments, map_blank_fragments p]

theorem map_blank_groupTail : ∀ (connective : String) (ps : List Predicate),
    (groupTail connective (blankAll ps)).map Fragment.blank
      = (groupTail connective ps).map Fragment.blank
  | _, [] => rfl
  | connective, p :: ps => by
    simp [blankAll, groupTail, map_blank_fragments p, map_blank_groupTail connective ps]

end

mutual

theorem length_operands_blank : ∀ p : Predicate, p.blank.operands.length = p.operands.length
  | .compare _ _ _ | .isNull _ | .isNotNull _ | .like _ _ _ | .range _ _ _ _ => rfl
  | .oneOf _ _ => List.length_replicate
  | .and ps | .or ps => length_operandsOf_blankAll ps
  | .not p => length_operands_blank p

theorem length_operandsOf_blankAll : ∀ ps : List Predicate,
    (operandsOf (blankAll ps)).length = (operandsOf ps).length
  | [] => rfl
  | p :: ps => by
    rw [blankAll, operandsOf, operandsOf, List.length_append, List.length_append,
      length_operands_blank p, length_operandsOf_blankAll ps]

end

mutual

/-- Nothing of a predicate is lost but its literals: without them, and with the same ones bound, two
predicates are one. -/
theorem eq_of_blank : ∀ {p q : Predicate}, p.blank = q.blank → p.operands = q.operands → p = q
  | .compare _ _ _, q, h, ho | .isNull _, q, h, ho | .isNotNull _, q, h, ho
  | .like _ _ _, q, h, ho | .oneOf _ _, q, h, ho | .range _ _ _ _, q, h, ho => by
    cases q <;> simp_all [blank, operands]
  | .and ps, q, h, ho => by
    cases q <;> simp only [blank, reduceCtorEq, and.injEq] at h
    exact congrArg and (eq_of_blankAll h ho)
  | .or ps, q, h, ho => by
    cases q <;> simp only [blank, reduceCtorEq, or.injEq] at h
    exact congrArg or (eq_of_blankAll h ho)
  | .not p, q, h, ho => by
    cases q <;> simp only [blank, reduceCtorEq, not.injEq] at h
    exact congrArg not (eq_of_blank h ho)

theorem eq_of_blankAll : ∀ {ps qs : List Predicate}, blankAll ps = blankAll qs →
    operandsOf ps = operandsOf qs → ps = qs
  | [], [], _, _ => rfl
  | [], q :: qs, h, _ => by simp [blankAll] at h
  | p :: ps, [], h, _ => by simp [blankAll] at h
  | p :: ps, q :: qs, h, ho => by
    obtain ⟨hfirst, hrest⟩ := List.cons.inj h
    -- The first predicates bind equally many literals, so the two lists are split at one place.
    have hlength : p.operands.length = q.operands.length := by
      rw [← length_operands_blank p, ← length_operands_blank q, hfirst]
    obtain ⟨hp, hps⟩ := List.append_inj ho hlength
    rw [eq_of_blank hfirst hp, eq_of_blankAll hrest hps]

end

/-! ### Statements -/

/-- The text of a predicate before, between and after its placeholders. -/
def pieces (p : Predicate) (d : Dialect) : List String :=
  Fragment.pieces d p.fragments

theorem pieces_blank (p : Predicate) (d : Dialect) : p.blank.pieces d = p.pieces d := by
  rw [pieces, pieces, ← Fragment.pieces_map_blank, map_blank_fragments, Fragment.pieces_map_blank]

theorem text_eq_weave (p : Predicate) (d : Dialect) :
    (p.toSql d).text = weave d 0 (p.blank.pieces d) := by
  rw [← String.toList_inj, toSql_text, Fragment.spellAll_eq_weave, pieces_blank, pieces]

/-- The statement of a predicate binds the predicate's literals from left to right, the same ones in
every dialect.  Its text is made of pieces that the literals have no part in, one more than there are
parameters, with the placeholders in order between them; so it is the text of every predicate that
differs in its literals alone. -/
theorem toSql_eq_weave (p : Predicate) (d : Dialect) :
    (p.toSql d).params = p.operands
      ∧ (p.toSql d).text = weave d 0 (p.blank.pieces d)
      ∧ (p.blank.pieces d).length = (p.toSql d).params.length + 1
      ∧ ∀ q : Predicate, q.blank = p.blank → (q.toSql d).text = (p.toSql d).text := by
  have hparams : (p.toSql d).params = p.operands := by
    rw [toSql_params, flatMap_fragments]
  refine ⟨hparams, text_eq_weave p d, ?_, fun q hq => ?_⟩
  · rw [pieces_blank, pieces, Fragment.length_pieces, flatMap_fragments, hparams]
  · rw [text_eq_weave, text_eq_weave, hq]

theorem toSql_other_values :
    let p : Predicate := .and [.range ⟨"parts", "id"⟩ (.int 1) (.int 5) false,
      .not (.oneOf ⟨"parts", "id"⟩ [.int 2, .int 3])]
    let q : Predicate := .and [.range ⟨"parts", "id"⟩ (.int 7) .null false,
      .not (.oneOf ⟨"parts", "id"⟩ [.text "' OR 1=1", .int 8])]
    q.blank = p.blank ∧ (q.toSql .postgres).text = (p.toSql .postgres).text
      ∧ (p.toSql .postgres).params = [.int 1, .int 5, .int 2, .int 3]
      ∧ (p.toSql .postgres).text
          = "(parts.id >= $1 AND parts.id < $2) AND (NOT (parts.id IN ($3, $4)))" := by
  intro p q
  have hblank : q.blank = p.blank := rfl
  obtain ⟨hparams, -, -, htext⟩ := toSql_eq_weave p .postgres
  exact ⟨hblank, htext q hblank, hparams, rfl⟩

end Predicate

end ListQuery
