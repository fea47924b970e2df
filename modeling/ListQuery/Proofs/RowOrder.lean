/-
Rows in the order of a plan.

The terms of an order compare two rows one after the other, and the first that tells them apart decides.
The primary key is among the terms of every order that a registry resolves.  So where rows differ in
their keys, no two of them tie, and there is one way only to put them in order.

What a page says of its order is the first field with its direction.  A field that a request names has
to be one that rows may be ordered by, and the usual one of a registry need not be, so an order that a
page shows may be refused when it is asked for.

* `RowOrder.inOrder` — whether a row may stand before another one;
* `exists_term_of_key` — the primary key is a term of every order;
* `resolve_echo_of_built` — what the order that a page shows is answered with, asked for again;
* `eq_of_arranged` — rows of different keys have one arrangement.
-/
import Mathlib.Data.List.Nodup
import Mathlib.Order.Compare
import ListQuery.Proofs.Registry.Built
import ListQuery.RowOrder

namespace ListQuery

/-! ### The terms of an order -/

theorem get?_of_field {r : Registry} (hr : r.Consistent) {o : OrderRequest} {f : Field}
    (h : o.field r = .ok f) : r.get? f.name = some f := by
  rw [OrderRequest.field] at h
  split at h
  · obtain rfl := Except.ok.inj h
    exact hr.order
  · split at h
    · rename_i g hg
      obtain rfl := Except.ok.inj h
      have hget := (Option.filter_eq_some_iff.mp hg).1
      rw [Fields.name_of_get? hget]
      exact hget
    · simp at h

/-- The parts that an order is put together from. -/
theorem parts_of_resolve {r : Registry} {o : OrderRequest} {order : RowOrder}
    (h : o.resolve r = .ok order) :
    ∃ f direction, o.field r = .ok f
      ∧ (∀ text, o.direction = some text → Direction.read text = .ok direction)
      ∧ order = ⟨r.table, .ofField f direction,
          (r.primaryKey.filter (·.name ≠ f.name)).map (OrderTerm.ofField · .asc)⟩ := by
  obtain ⟨f, hf, h⟩ := bind_eq_ok_iff.mp h
  cases hdirection : o.direction with
  | none =>
    rw [hdirection] at h
    exact ⟨f, r.defaultDirection, hf, fun _ htext => by simp at htext, (pure_eq_ok_iff.mp h).symm⟩
  | some text =>
    rw [hdirection] at h
    obtain ⟨direction, hread, h⟩ := bind_eq_ok_iff.mp h
    refine ⟨f, direction, hf, fun text' htext => ?_, (pure_eq_ok_iff.mp h).symm⟩
    rw [← Option.some.inj htext]
    exact hread

/-- The column of the primary key is that of some term, whatever field the request orders by. -/
theorem exists_term_of_key {r : Registry} (hr : r.Consistent) {key : Field}
    (hkey : r.primaryKey = some key) {o : OrderRequest} {order : RowOrder}
    (h : o.resolve r = .ok order) : ∃ term ∈ order.terms, term.column = key.column := by
  obtain ⟨f, direction, hf, -, rfl⟩ := parts_of_resolve h
  by_cases hname : key.name = f.name
  · -- Fields are found by their names, so the field that is ordered by is the key itself.
    have hsame : f = key := by
      have hget := get?_of_field hr hf
      rw [← hname, hr.primaryKey key hkey] at hget
      exact (Option.some.inj hget).symm
    exact ⟨.ofField f direction, List.mem_cons_self, by rw [hsame]; rfl⟩
  · refine ⟨.ofField key .asc, List.mem_cons_of_mem _ ?_, rfl⟩
    simp [hkey, hname]

/-! ### An order asked for again -/

/-- The request for the order that a page shows: the first field and its direction. -/
def RowOrder.echo (order : RowOrder) : OrderRequest :=
  ⟨some order.primary.field, some order.primary.direction.name⟩

theorem read_name (d : Direction) : Direction.read d.name = .ok d := by
  cases d <;> rfl

/-- A field that a request names is one that rows may be ordered by. -/
theorem sortable_of_field {r : Registry} {o : OrderRequest} {f : Field} (h : o.field r = .ok f) :
    f.sortable = (o.orderBy.isSome || r.defaultOrderBy.sortable) := by
  rw [OrderRequest.field] at h
  cases hname : o.orderBy with
  | none =>
    rw [hname] at h
    obtain rfl := Except.ok.inj h
    rfl
  | some name =>
    rw [hname] at h
    dsimp only at h
    split at h
    · rename_i g hg
      obtain rfl := Except.ok.inj h
      exact (Option.filter_eq_some_iff.mp hg).2
    · simp at h

theorem field_echo {r : Registry} (hr : r.Consistent) {o : OrderRequest} {f : Field}
    (h : o.field r = .ok f) (direction : Option String) :
    OrderRequest.field ⟨some f.name, direction⟩ r
      = if f.sortable then .ok f else .error (.field f.name .notSortable) := by
  have hlookup : r.sortable? f.name = if f.sortable then some f else none := by
    rw [Registry.sortable?, get?_of_field hr h, Option.filter_some]
  simp only [OrderRequest.field, hlookup]
  cases f.sortable <;> rfl

theorem resolve_echo_eq {r : Registry} (hr : r.Consistent) {o : OrderRequest} {order : RowOrder}
    (h : o.resolve r = .ok order) :
    order.echo.resolve r = if o.orderBy.isSome || r.defaultOrderBy.sortable then .ok order
      else .error (.field r.defaultOrderBy.name .notSortable) := by
  obtain ⟨f, direction, hf, -, rfl⟩ := parts_of_resolve h
  have hsortable := sortable_of_field hf
  have hecho := field_echo hr hf (some direction.name)
  rw [RowOrder.echo, OrderRequest.resolve, OrderTerm.ofField, hecho, ← hsortable]
  cases hs : f.sortable with
  | true =>
    simp only [if_true, read_name]
    rfl
  | false =>
    -- A field that may not be named was not, so it is the usual one.
    rw [hs] at hsortable
    have hnone : o.orderBy = none := by
      simpa using (Bool.or_eq_false_iff.mp hsortable.symm).1
    have husual : f = r.defaultOrderBy := by
      rw [OrderRequest.field, hnone] at hf
      exact (Except.ok.inj hf).symm
    rw [husual]
    rfl

/-- An order that a built registry gives is given again where the request named its field or the usual
field may be named.  Otherwise the request for it is refused, the field not being one that rows may be
ordered by. -/
theorem resolve_echo_of_built {r : Registry} (hr : r.Built) {o : OrderRequest} {order : RowOrder}
    (h : o.resolve r = .ok order) :
    order.echo.resolve r = if o.orderBy.isSome || r.defaultOrderBy.sortable then .ok order
      else .error (.field r.defaultOrderBy.name .notSortable) :=
  resolve_echo_eq (Registry.consistent_of_built hr) h

theorem resolve_echo_of_built_unsortable :
    let id := Field.ofType "id" .integer
    let r : Registry := ⟨"parts", "parts", some id, [id], Registry.usualMaxItems,
      Registry.usualItems, id, .asc⟩
    OrderRequest.empty.resolve r = .ok ⟨"parts", ⟨"id", "id", .asc⟩, none⟩
      ∧ OrderRequest.resolve ⟨some "id", some "asc"⟩ r = .error (.field "id" .notSortable) := by
  intro id r
  have hr : r.Built :=
    ⟨((Registry.Draft.ofResource "parts").withPrimaryKey "id").withField id,
      List.pairwise_singleton _ _, rfl⟩
  have horder : OrderRequest.empty.resolve r = .ok ⟨"parts", ⟨"id", "id", .asc⟩, none⟩ := rfl
  exact ⟨horder, resolve_echo_of_built hr horder⟩

/-! ### Comparing rows -/

section Rows

variable {Row : Type} {V : String → Type} [∀ column, LinearOrder (V column)]

/-- How two rows compare in the column of a term. -/
def OrderTerm.compareRows (cell : Row → (column : String) → V column) (term : OrderTerm)
    (a b : Row) : Ordering :=
  match term.direction with
  | .asc => compare (cell a term.column) (cell b term.column)
  | .desc => compare (cell b term.column) (cell a term.column)

/-- How two rows compare, the first term that tells them apart deciding. -/
def compareRows (cell : Row → (column : String) → V column) : List OrderTerm → Row → Row → Ordering
  | [] => fun _ _ => .eq
  | term :: terms => compareLex (term.compareRows cell) (compareRows cell terms)

/-- Whether a row may stand before another one. -/
def RowOrder.inOrder (cell : Row → (column : String) → V column) (o : RowOrder) (a b : Row) : Bool :=
  (compareRows cell o.terms a b).isLE

variable {cell : Row → (column : String) → V column}

instance transCmp_term (term : OrderTerm) : Std.TransCmp (term.compareRows cell) := by
  obtain ⟨field, column, direction⟩ := term
  cases direction with
  | asc => exact inferInstanceAs (Std.TransCmp (compareOn (cell · column)))
  | desc =>
    have hasc : Std.TransCmp (compareOn (cell · column)) := inferInstance
    exact hasc.opposite

instance transCmp_terms : (terms : List OrderTerm) → Std.TransCmp (compareRows cell terms)
  | [] => { eq_swap := rfl, isLE_trans := fun _ _ => rfl }
  | term :: terms =>
    have := transCmp_terms terms
    inferInstanceAs (Std.TransCmp (compareLex (term.compareRows cell) (compareRows cell terms)))

theorem cell_eq_of_compareRows {terms : List OrderTerm} {a b : Row}
    (h : compareRows cell terms a b = .eq) {term : OrderTerm} (hterm : term ∈ terms) :
    cell a term.column = cell b term.column := by
  induction terms with
  | nil => exact absurd hterm List.not_mem_nil
  | cons first terms ih =>
    obtain ⟨hfirst, hrest⟩ := compareLex_eq_eq.mp h
    rcases List.mem_cons.mp hterm with rfl | hterm
    · rw [OrderTerm.compareRows] at hfirst
      split at hfirst
      · exact compare_eq_iff_eq.mp hfirst
      · exact (compare_eq_iff_eq.mp hfirst).symm
    · exact ih hrest hterm

theorem inOrder_trans (o : RowOrder) (a b c : Row) (hab : o.inOrder cell a b = true)
    (hbc : o.inOrder cell b c = true) : o.inOrder cell a c = true :=
  Std.TransCmp.isLE_trans hab hbc

theorem inOrder_total (o : RowOrder) (a b : Row) :
    (o.inOrder cell a b || o.inOrder cell b a) = true := by
  have hswap : compareRows cell o.terms b a = (compareRows cell o.terms a b).swap :=
    Std.OrientedCmp.eq_swap
  rw [RowOrder.inOrder, RowOrder.inOrder, hswap]
  cases compareRows cell o.terms a b <;> rfl

/-- An arrangement of rows in an order. -/
structure RowOrder.Arranged (cell : Row → (column : String) → V column) (o : RowOrder)
    (rows arranged : List Row) : Prop where
  perm : arranged.Perm rows
  sorted : arranged.Pairwise fun a b => o.inOrder cell a b = true

theorem arranged_mergeSort (o : RowOrder) {rows found : List Row} (h : found.Perm rows) :
    o.Arranged cell rows (found.mergeSort (o.inOrder cell)) where
  perm := (List.mergeSort_perm found _).trans h
  sorted := List.pairwise_mergeSort (inOrder_trans o) (inOrder_total o) found

/-- Rows that all differ in the column of some term have one arrangement only. -/
theorem eq_of_arranged {o : RowOrder} {rows l l' : List Row} {term : OrderTerm}
    (hterm : term ∈ o.terms) (hkeys : (rows.map (cell · term.column)).Nodup)
    (h : o.Arranged cell rows l) (h' : o.Arranged cell rows l') : l = l' := by
  have hties : ∀ a b, a ∈ l → b ∈ l' → o.inOrder cell a b = true → o.inOrder cell b a = true →
      a = b := by
    intro a b ha hb hab hba
    have heq : compareRows cell o.terms a b = .eq := Std.OrientedCmp.isLE_antisymm hab hba
    exact List.inj_on_of_nodup_map hkeys (h.perm.mem_iff.mp ha) (h'.perm.mem_iff.mp hb)
      (cell_eq_of_compareRows heq hterm)
  exact List.Perm.eq_of_pairwise hties h.sorted h'.sorted (h.perm.trans h'.perm.symm)

end Rows

end ListQuery
