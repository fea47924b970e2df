/-
The value of a condition on a row, and of the predicate that it compiles to.

A leaf has the value of its own test on the column of its field.  A group combines the values of its
children: a conjunction, a disjunction, or, for `not`, the conjunction of their negations.

* `Condition.value` — the value of a condition, given what the tests of single columns give;
* `value_of_compile` — a predicate has the value of the condition that it was compiled from;
* `value_all` and `value_of_any` — joining conditions joins their values, however the trees are
  flattened.
-/
import ListQuery.Proofs.Condition.Sound
import ListQuery.Proofs.Predicate.Value
import ListQuery.Proofs.Predicate.Whitelist

namespace ListQuery

namespace Truth

theorem all_append (ts us : List Truth) : all (ts ++ us) = (all ts).and (all us) := by
  induction ts with
  | nil => rfl
  | cons t ts ih =>
    show t.and (all (ts ++ us)) = (t.and (all ts)).and (all us)
    rw [ih, and_assoc]

theorem any_append (ts us : List Truth) : any (ts ++ us) = (any ts).or (any us) := by
  induction ts with
  | nil => rfl
  | cons t ts ih =>
    show t.or (any (ts ++ us)) = (t.or (any ts)).or (any us)
    rw [ih, or_assoc]

end Truth

/-- The value of a group whose children have these values. -/
def Combinator.truth : Combinator → List Truth → Truth
  | .and, ts => Truth.all ts
  | .or, ts => Truth.any ts
  | .not, ts => Truth.all (ts.map Truth.not)

namespace TestValues

/-- What a test of a field gives on the field's column. -/
def onColumn (t : TestValues) (c : Column) : Test → Truth
  | .compare .eq .null => t.isNull c
  | .compare .notEq .null => t.isNotNull c
  | .compare op v => t.compare c op v
  | .pattern kind text => t.like c kind (kind.pattern text)
  | .oneOf vs => t.oneOf c vs
  | .range i => t.range c i.lower i.upper i.closed

/-- What a test of a named field gives; nothing is known of a field that filters may not use. -/
def onField (t : TestValues) (table : TableRef) (name : String) (test : Test) : Truth :=
  match table.filterColumn? name with
  | some c => t.onColumn c test
  | none => .unknown

end TestValues

namespace Condition

mutual

/-- The value of a condition on a table, given what the tests of single columns give. -/
def value (t : TestValues) (table : TableRef) : Condition → Truth
  | .leaf field test => t.onField table field test
  | .group kind children => kind.truth (values t table children)

/-- The values of some conditions. -/
def values (t : TestValues) (table : TableRef) : List Condition → List Truth
  | [] => []
  | c :: cs => value t table c :: values t table cs

end

variable {t : TestValues} {table : TableRef}

theorem values_eq_map (cs : List Condition) : values t table cs = cs.map (value t table) := by
  induction cs with
  | nil => rfl
  | cons c cs ih => rw [values, ih, List.map_cons]

/-! ### What is compiled -/

theorem value_onColumn (column : Column) (test : Test) :
    (test.onColumn column).value t = t.onColumn column test := by
  rw [Test.onColumn.eq_def, TestValues.onColumn.eq_def]
  -- Both sides look for a comparison with null first.
  split <;> simp only [Predicate.value]

theorem values_map_not (ps : List Predicate) :
    Predicate.values t (ps.map .not) = (Predicate.values t ps).map Truth.not := by
  induction ps with
  | nil => rfl
  | cons p ps ih => rw [List.map_cons, Predicate.values, Predicate.value, ih, Predicate.values,
      List.map_cons]

/-- A group of predicates has the value of its combinator, the negation of a single child included. -/
theorem value_predicate (kind : Combinator) (ps : List Predicate) :
    (kind.predicate ps).value t = kind.truth (Predicate.values t ps) := by
  rw [Combinator.predicate.eq_def]
  split
  · rw [Predicate.value, Combinator.truth]
  · rw [Predicate.value, Combinator.truth]
  · rename_i p
    show (p.value t).not = (p.value t).not.and .true
    rw [Truth.and_true]
  · rw [Predicate.value, Combinator.truth, values_map_not]

mutual

/-- A predicate has the value of the condition that it was compiled from. -/
theorem value_of_compile : ∀ {c : Condition} {p : Predicate}, c.compile table = .ok p →
    p.value t = c.value t table
  | .leaf field test, p, h => by
    rw [compile] at h
    obtain ⟨column, hcolumn, h⟩ := bind_eq_ok_iff.mp h
    obtain rfl := pure_eq_ok_iff.mp h
    rw [value_onColumn, value, TestValues.onField, (columnFor_eq_ok hcolumn).2]
  | .group kind children, p, h => by
    rw [compile] at h
    obtain ⟨⟨⟩, -, h⟩ := bind_eq_ok_iff.mp h
    obtain ⟨ps, hps, h⟩ := bind_eq_ok_iff.mp h
    obtain rfl := pure_eq_ok_iff.mp h
    rw [value_predicate, value, values_of_compileAll hps]

theorem values_of_compileAll : ∀ {cs : List Condition} {ps : List Predicate},
    compileAll table cs = .ok ps → Predicate.values t ps = values t table cs
  | [], ps, h => by
    obtain rfl := Except.ok.inj h
    rfl
  | c :: cs, ps, h => by
    rw [compileAll] at h
    obtain ⟨p, hp, h⟩ := bind_eq_ok_iff.mp h
    obtain ⟨qs, hqs, h⟩ := bind_eq_ok_iff.mp h
    obtain rfl := pure_eq_ok_iff.mp h
    rw [Predicate.values, values, value_of_compile hp, values_of_compileAll hqs]

end

/-! ### What is joined -/

/-- A condition has the value of the conjunction of its conjuncts. -/
theorem value_conjuncts (c : Condition) :
    Truth.all (c.conjuncts.map (value t table)) = c.value t table := by
  rw [conjuncts.eq_def]
  split
  · rw [value, Combinator.truth, values_eq_map]
  · show (c.value t table).and .true = c.value t table
    rw [Truth.and_true]

theorem value_collapse_and (cs : List Condition) :
    (collapse .and cs).elim .true (value t table) = Truth.all (cs.map (value t table)) := by
  rcases cs with _ | ⟨c, _ | ⟨d, rest⟩⟩
  · rfl
  · show c.value t table = (c.value t table).and .true
    rw [Truth.and_true]
  · show value t table (.group .and (c :: d :: rest)) = _
    rw [value, Combinator.truth, values_eq_map]

/-- The conjunction of some conditions has the value of the conjunction of their values. -/
theorem value_all (cs : List Condition) :
    (all cs).elim .true (value t table) = Truth.all (cs.map (value t table)) := by
  rw [all, value_collapse_and]
  induction cs with
  | nil => rfl
  | cons c cs ih =>
    rw [List.flatMap_cons, List.map_append, Truth.all_append, ih, value_conjuncts]
    rfl

theorem value_of_any {cs : List Condition} {c : Condition} (h : any cs = some c) :
    c.value t table = Truth.any (cs.map (value t table)) := by
  rcases cs with _ | ⟨d, _ | ⟨e, rest⟩⟩
  · simp [any, collapse] at h
  · obtain rfl := Option.some.inj h
    show d.value t table = (d.value t table).or .false
    rw [Truth.or_false]
  · obtain rfl := Option.some.inj h
    rw [value, Combinator.truth, values_eq_map]

end Condition

end ListQuery
