/-
The compiler lets through what a registry permits, and nothing else.

A condition may have been built by hand, so the compiler looks at every node again, each before those
below it and children from left to right.

* `Condition.Permitted` — a leaf whose field filters may test so, a group with children enough;
* `Condition.fault` — the error of a node that is not permitted;
* `compile_whitelist` — a condition compiles exactly if all its nodes are permitted; its columns are then
  those of its fields, in order, and otherwise the error is that of the first node that is not permitted.
-/
import ListQuery.Predicate.Compile
import ListQuery.Proofs.Registry.Built

namespace ListQuery

/-- The column of a field's name on a table, where filters may use the field. -/
def TableRef.filterColumn? (t : TableRef) (name : String) : Option Column :=
  (t.registry.filterable? name).map fun f => ⟨t.qualifier, f.column⟩

namespace Condition

mutual

/-- The nodes, each before those below it, and children from left to right. -/
def nodes : Condition → List Condition
  | .leaf field test => [.leaf field test]
  | .group kind children => .group kind children :: nodesOf children

/-- The nodes of some conditions. -/
def nodesOf : List Condition → List Condition
  | [] => []
  | c :: cs => nodes c ++ nodesOf cs

end

/-- Whether a node, what is below it aside, is permitted. -/
def Permitted (r : Registry) : Condition → Prop
  | .leaf field test => ∃ f, r.filterable? field = some f ∧ f.allows test.operator = true
  | .group kind children => kind.minChildren ≤ children.length

/-- What is wrong with a node that is not permitted. -/
def fault (r : Registry) : Condition → QueryError
  | .leaf field test =>
    match r.get? field with
    | none => .field field .unknown
    | some f =>
      if f.filterable then .operator field test.operator.tag (.notPermitted f.type)
      else .field field .notFilterable
  | .group kind children => .arity kind.key kind.minChildren children.length

/-- Whether an error is that of the first of some nodes that is not permitted. -/
def FirstFault (r : Registry) (nodes : List Condition) (e : QueryError) : Prop :=
  ∃ before node after, nodes = before ++ node :: after ∧ (∀ n ∈ before, n.Permitted r)
    ∧ ¬node.Permitted r ∧ e = node.fault r

section FirstFault

variable {r : Registry} {ns : List Condition} {e : QueryError}

theorem FirstFault.append_right (h : FirstFault r ns e) (others : List Condition) :
    FirstFault r (ns ++ others) e := by
  obtain ⟨before, node, after, rfl, hbefore, hnode, he⟩ := h
  exact ⟨before, node, after ++ others, by simp, hbefore, hnode, he⟩

theorem FirstFault.append_left {first : List Condition} (hfirst : ∀ n ∈ first, n.Permitted r)
    (h : FirstFault r ns e) : FirstFault r (first ++ ns) e := by
  obtain ⟨before, node, after, rfl, hbefore, hnode, he⟩ := h
  refine ⟨first ++ before, node, after, by simp, fun n hn => ?_, hnode, he⟩
  exact (List.mem_append.mp hn).elim (hfirst n) (hbefore n)

theorem FirstFault.head {c : Condition} (h : ¬c.Permitted r) (others : List Condition) :
    FirstFault r (c :: others) (c.fault r) :=
  ⟨[], c, others, rfl, fun _ hn => absurd hn List.not_mem_nil, h, rfl⟩

theorem FirstFault.not_forall (h : FirstFault r ns e) : ¬∀ n ∈ ns, n.Permitted r := by
  obtain ⟨before, node, after, rfl, -, hnode, -⟩ := h
  intro hall
  exact hnode (hall node (by simp))

end FirstFault

/-! ### Single nodes -/

theorem columnFor_eq_ok {t : TableRef} {field : String} {test : Test} {column : Column}
    (h : t.columnFor field test.operator = .ok column) :
    (leaf field test).Permitted t.registry
      ∧ t.filterColumn? field = some column := by
  obtain ⟨f, hf, h⟩ := bind_eq_ok_iff.mp h
  have hf := Registry.filterField_eq_ok_iff.mp hf
  split at h
  · rename_i hallows
    obtain rfl := pure_eq_ok_iff.mp h
    exact ⟨⟨f, hf, hallows⟩, by rw [TableRef.filterColumn?, hf]; rfl⟩
  · simp at h

theorem columnFor_eq_error {t : TableRef} {field : String} {test : Test} {e : QueryError}
    (h : t.columnFor field test.operator = .error e) :
    ¬(leaf field test).Permitted t.registry ∧ e = (leaf field test).fault t.registry := by
  simp only [TableRef.columnFor, Registry.filterField] at h
  simp only [Permitted, Registry.filterable?, fault]
  cases hget : t.registry.get? field with
  | none =>
    rw [hget] at h
    exact ⟨by simp, (Except.error.inj h).symm⟩
  | some f =>
    rw [hget] at h
    simp only [Option.filter_some]
    cases hf : f.filterable with
    | false =>
      simp only [hf] at h
      exact ⟨by simp, (Except.error.inj h).symm⟩
    | true =>
      simp only [hf, if_true, bind, Except.bind] at h
      split at h
      · simp [pure, Except.pure] at h
      · rename_i hallows
        refine ⟨?_, (Except.error.inj h).symm⟩
        rintro ⟨g, hg, hop⟩
        obtain rfl := Option.some.inj hg
        exact hallows hop

theorem columns_onColumn (column : Column) (test : Test) :
    (test.onColumn column).columns = [column] := by
  rw [Test.onColumn.eq_def]
  split <;> simp only [Predicate.columns]

theorem columnsOf_map_not (ps : List Predicate) :
    Predicate.columnsOf (ps.map .not) = Predicate.columnsOf ps := by
  induction ps with
  | nil => rfl
  | cons p ps ih => rw [List.map_cons, Predicate.columnsOf, Predicate.columns, ih, Predicate.columnsOf]

/-- A group has the columns of its children, in the same order. -/
theorem columns_predicate (kind : Combinator) (ps : List Predicate) :
    (kind.predicate ps).columns = Predicate.columnsOf ps := by
  rw [Combinator.predicate.eq_def]
  split
  · rw [Predicate.columns]
  · rw [Predicate.columns]
  · rw [Predicate.columns, Predicate.columnsOf, Predicate.columnsOf, List.append_nil]
  · rw [Predicate.columns, columnsOf_map_not]

theorem checkArity_eq_ok {r : Registry} {kind : Combinator} {children : List Condition}
    (h : (group kind children).Permitted r) : checkArity kind children.length = .ok () :=
  if_neg (Nat.not_lt.mpr h)

theorem checkArity_eq_error {r : Registry} {kind : Combinator} {children : List Condition}
    (h : ¬(group kind children).Permitted r) :
    checkArity kind children.length = .error ((group kind children).fault r) :=
  if_pos (Nat.not_le.mp h)

/-! ### Whole conditions -/

mutual

/-- A condition compiles to the columns of its fields, all its nodes being permitted, or to the error of
the first node that is not. -/
theorem compile_cases (t : TableRef) : ∀ c : Condition,
    (∃ p, c.compile t = .ok p ∧ (∀ n ∈ c.nodes, n.Permitted t.registry)
        ∧ p.columns.map some = c.fields.map t.filterColumn?)
      ∨ ∃ e, c.compile t = .error e ∧ FirstFault t.registry c.nodes e
  | .leaf field test => by
    rw [compile, nodes]
    cases hcolumn : t.columnFor field test.operator with
    | ok column =>
      obtain ⟨hpermitted, hfield⟩ := columnFor_eq_ok hcolumn
      refine Or.inl ⟨test.onColumn column, rfl, List.forall_mem_singleton.mpr hpermitted, ?_⟩
      rw [columns_onColumn, fields, List.map_singleton, List.map_singleton, hfield]
    | error e =>
      obtain ⟨hnot, rfl⟩ := columnFor_eq_error hcolumn
      exact Or.inr ⟨_, rfl, .head hnot []⟩
  | .group kind children => by
    rw [compile, nodes]
    by_cases harity : (group kind children).Permitted t.registry
    · rw [checkArity_eq_ok harity]
      -- The node is permitted, so what comes first among the children is what comes first at all.
      rcases compileAll_cases t children with ⟨ps, hps, hnodes, hcolumns⟩ | ⟨e, he, hfault⟩
      · rw [hps]
        refine Or.inl ⟨kind.predicate ps, rfl, List.forall_mem_cons.mpr ⟨harity, hnodes⟩, ?_⟩
        rw [columns_predicate, hcolumns, fields]
      · rw [he]
        have hhead : ∀ n ∈ [group kind children], n.Permitted t.registry :=
          List.forall_mem_singleton.mpr harity
        exact Or.inr ⟨e, rfl, hfault.append_left hhead⟩
    · rw [checkArity_eq_error harity]
      exact Or.inr ⟨_, rfl, .head harity _⟩

/-- Conditions compile to the columns of their fields, or to the error of the first node that is not
permitted. -/
theorem compileAll_cases (t : TableRef) : ∀ cs : List Condition,
    (∃ ps, compileAll t cs = .ok ps ∧ (∀ n ∈ nodesOf cs, n.Permitted t.registry)
        ∧ (Predicate.columnsOf ps).map some = (fieldsOf cs).map t.filterColumn?)
      ∨ ∃ e, compileAll t cs = .error e ∧ FirstFault t.registry (nodesOf cs) e
  | [] => Or.inl ⟨[], rfl, fun _ hn => absurd hn List.not_mem_nil, rfl⟩
  | c :: cs => by
    rw [compileAll, nodesOf]
    rcases compile_cases t c with ⟨p, hp, hnodes, hcolumns⟩ | ⟨e, he, hfault⟩
    · rw [hp]
      -- The later conditions are compiled only if the first one does not fail.
      rcases compileAll_cases t cs with ⟨ps, hps, hrest, hothers⟩ | ⟨e, he, hfault⟩
      · rw [hps]
        refine Or.inl ⟨p :: ps, rfl, List.forall_mem_append.mpr ⟨hnodes, hrest⟩, ?_⟩
        rw [Predicate.columnsOf, fieldsOf, List.map_append, List.map_append, hcolumns, hothers]
      · rw [he]
        exact Or.inr ⟨e, rfl, hfault.append_left hnodes⟩
    · rw [he]
      exact Or.inr ⟨e, rfl, hfault.append_right (nodesOf cs)⟩

end

/-- A condition compiles exactly if all its nodes are permitted.  The columns are then those of its
fields, in order; otherwise the error is that of the first node that is not permitted. -/
theorem compile_whitelist (t : TableRef) (c : Condition) :
    ((∃ p, c.compile t = .ok p) ↔ ∀ n ∈ c.nodes, n.Permitted t.registry)
      ∧ (∀ p, c.compile t = .ok p → p.columns.map some = c.fields.map t.filterColumn?)
      ∧ ∀ e, c.compile t = .error e → FirstFault t.registry c.nodes e := by
  rcases compile_cases t c with ⟨p, hp, hnodes, hcolumns⟩ | ⟨e, he, hfault⟩
  · refine ⟨⟨fun _ => hnodes, fun _ => ⟨p, hp⟩⟩, fun q hq => ?_, fun e he => ?_⟩
    · obtain rfl := Except.ok.inj (hp.symm.trans hq)
      exact hcolumns
    · exact absurd (hp.symm.trans he) (by simp)
  · refine ⟨⟨fun ⟨p, hp⟩ => ?_, fun hall => absurd hall hfault.not_forall⟩, fun p hp => ?_,
      fun e' he' => ?_⟩
    · exact absurd (he.symm.trans hp) (by simp)
    · exact absurd (he.symm.trans hp) (by simp)
    · obtain rfl := Except.error.inj (he.symm.trans he')
      exact hfault

end Condition

end ListQuery
