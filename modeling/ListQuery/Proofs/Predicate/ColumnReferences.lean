/-
Columns as each dialect reads them.

Wherever the text of a predicate names a column, a dialect reads a column there, or nothing.  Which column
it is depends on the two names and the dialect alone, for the names are followed by a blank.

* `Fragment.Spaced` — whether each column among some fragments has a blank after it;
* `spaced_fragments` — in every predicate it has one;
* `columnRef?_of_toSql` — the column that a dialect reads, and the columns that it reads as they are.

Design notes: names are printed without regard to the dialect.  In PostgreSQL a bare name with capitals is
another name, and in MySQL a name in double quotes is a text; SQLite reads every name as it is.
-/
import ListQuery.Proofs.Predicate.SqlTokens
import ListQuery.Proofs.Sql.Names

namespace ListQuery

open Sql

/-! ### Blanks after columns -/

namespace Fragment

/-- Whether some fragments start with a blank. -/
def StartsBlank : List Fragment → Prop
  | .text t :: _ => t.toList.head? = some ' '
  | _ => False

/-- Whether each column among some fragments has a blank after it. -/
def Spaced : List Fragment → Prop
  | [] => True
  | .column _ :: fs => StartsBlank fs ∧ Spaced fs
  | _ :: fs => Spaced fs

theorem StartsBlank.append {fs : List Fragment} (h : StartsBlank fs) (gs : List Fragment) :
    StartsBlank (fs ++ gs) := by
  cases fs with
  | nil => exact h.elim
  | cons f fs =>
    cases f with
    | text t => exact h
    | column | operand | escapeClause => exact h.elim

theorem Spaced.append {fs gs : List Fragment} (hf : Spaced fs) (hg : Spaced gs) :
    Spaced (fs ++ gs) := by
  induction fs with
  | nil => exact hg
  | cons f fs ih =>
    cases f with
    | column c => exact ⟨hf.1.append gs, ih hf.2⟩
    | text | operand | escapeClause => exact ih hf

theorem Spaced.startsBlank {fs gs : List Fragment} {c : Column}
    (h : Spaced (fs ++ .column c :: gs)) : StartsBlank gs := by
  induction fs with
  | nil => exact h.1
  | cons f fs ih =>
    cases f with
    | column c => exact ih h.2
    | text | operand | escapeClause => exact ih h

theorem StartsBlank.breaks {fs : List Fragment} (h : StartsBlank fs) (d : Dialect) (n : Nat) :
    Breaks (spellAll d n fs) := by
  cases fs with
  | nil => exact h.elim
  | cons f fs =>
    cases f with
    | text t =>
      have hblank : t.toList.head? = some ' ' := h
      intro c hc
      rw [spellAll, spell, List.head?_append, hblank, Option.some_or] at hc
      obtain rfl := Option.some.inj hc
      decide
    | column | operand | escapeClause => exact h.elim

end Fragment

namespace Predicate

open Fragment

theorem spaced_listFragments (vs : List Literal) : Spaced (listFragments vs) := by
  fun_induction listFragments vs with
  | case1 => trivial
  | case2 v => trivial
  | case3 v vs _ ih => exact ih

mutual

/-- A test starts with its column and goes on with a blank; groups add no columns of their own. -/
theorem spaced_fragments : ∀ p : Predicate, Spaced p.fragments
  | .compare _ op _ => by
    refine ⟨?_, trivial⟩
    cases op <;> rfl
  | .isNull _ | .isNotNull _ | .like _ _ _ => ⟨rfl, trivial⟩
  | .oneOf _ vs => ⟨rfl, (spaced_listFragments vs).append trivial⟩
  | .range _ _ _ closed => by
    refine ⟨rfl, ?_, trivial⟩
    cases closed <;> rfl
  | .and [] | .or [] => trivial
  | .and (p :: ps) => (spaced_fragments p).append (spaced_groupTail " AND " ps)
  | .or (p :: ps) => (spaced_fragments p).append (spaced_groupTail " OR " ps)
  | .not p => (spaced_fragments p).append trivial

theorem spaced_groupTail : ∀ (connective : String) (ps : List Predicate),
    Spaced (groupTail connective ps)
  | _, [] => trivial
  | connective, p :: ps => (spaced_fragments p).append (spaced_groupTail connective ps)

end

/-! ### The columns of a text -/

/-- Wherever the text of a predicate names a column, a dialect reads there what it takes the printed column
for.  It reads the column itself exactly if it keeps the two names; SQLite keeps all names, as long as its
words are reserved. -/
theorem columnRef?_of_toSql {p : Predicate} {fs gs : List Fragment} {c : Column}
    (h : p.fragments = fs ++ .column c :: gs) (d : Dialect) (words : List String) :
    ∃ after, (p.toSql d).text.toList
          = spellAll d 0 fs ++ ((qualified c.table c.name).toList ++ after)
      ∧ d.columnRef? words ((qualified c.table c.name).toList ++ after)
          = (d.receivedColumn? words c).map (·, after)
      ∧ (d.receivedColumn? words c = some c ↔ d.Keeps words c.table ∧ d.Keeps words c.name)
      ∧ (d = .sqlite → (∀ w ∈ words, w ∈ reservedWords) → d.receivedColumn? words c = some c) := by
  have hspaced := spaced_fragments p
  rw [h] at hspaced
  let n := (fs.flatMap Fragment.operands).length
  -- The name of the column ends at the blank, whatever is printed after that.
  have hbreaks : Breaks (spellAll d n gs) := hspaced.startsBlank.breaks d n
  refine ⟨spellAll d n gs, ?_, ?_, Dialect.receivedColumn?_eq_self_iff, ?_⟩
  · rw [toSql_text, h, spellAll_append, Nat.zero_add]
    rfl
  · rw [toList_qualified_append]
    exact d.columnRef?_qualified words c hbreaks
  · rintro rfl hwords
    exact Dialect.receivedColumn?_eq_self_iff.mpr
      ⟨Dialect.keeps_sqlite hwords c.table, Dialect.keeps_sqlite hwords c.name⟩

/-- A quoted table is no name in MySQL, a table with a capital is another one in PostgreSQL, and SQLite
reads both. -/
theorem columnRef?_of_toSql_line_items :
    (∃ after, ((isNull ⟨"line items", "id"⟩).toSql .mysql).text.toList
          = (qualified "line items" "id").toList ++ after
        ∧ Dialect.mysql.columnRef? [] ((qualified "line items" "id").toList ++ after) = none)
      ∧ (∃ after, ((isNull ⟨"Parts", "id"⟩).toSql .postgres).text.toList
          = (qualified "Parts" "id").toList ++ after
        ∧ Dialect.postgres.columnRef? [] ((qualified "Parts" "id").toList ++ after)
          = some (⟨"parts", "id"⟩, after))
      ∧ ∃ after, ((isNull ⟨"line items", "Id"⟩).toSql .sqlite).text.toList
          = (qualified "line items" "Id").toList ++ after
        ∧ Dialect.sqlite.columnRef? [] ((qualified "line items" "Id").toList ++ after)
          = some (⟨"line items", "Id"⟩, after) := by
  have hfragments : ∀ c : Column, (isNull c).fragments = [] ++ .column c :: [.text " IS NULL"] :=
    fun _ => rfl
  refine ⟨?_, ?_, ?_⟩
  · obtain ⟨after, htext, hread, -⟩ := columnRef?_of_toSql (hfragments ⟨"line items", "id"⟩) .mysql []
    have hlost : Dialect.mysql.receivedColumn? [] ⟨"line items", "id"⟩ = none := by decide
    exact ⟨after, htext, by rw [hread, hlost, Option.map_none]⟩
  · obtain ⟨after, htext, hread, -⟩ := columnRef?_of_toSql (hfragments ⟨"Parts", "id"⟩) .postgres []
    have hfolded : Dialect.postgres.receivedColumn? [] ⟨"Parts", "id"⟩ = some ⟨"parts", "id"⟩ := by
      decide
    exact ⟨after, htext, by rw [hread, hfolded, Option.map_some]⟩
  · obtain ⟨after, htext, hread, -, hkept⟩ :=
      columnRef?_of_toSql (hfragments ⟨"line items", "Id"⟩) .sqlite []
    exact ⟨after, htext, by rw [hread, hkept rfl (List.forall_mem_nil _), Option.map_some]⟩

end Predicate

end ListQuery
