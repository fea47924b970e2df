/-
Conjunctions of conjunctions.

A conjunction takes the conjunctions among its conditions apart, one level deep, and leaves a single
condition as it is.  The conditions that it joins are therefore the conjuncts of what it gives, and it does
not matter which of them were joined before.

* `flatMap_conjuncts_all` — the conjuncts of a conjunction are those of its conditions;
* `flatMap_fields_all` — its fields are those of its conditions;
* `all_regrouped` — joining once and joining in parts give the same condition.

Design notes: this needs groups of children enough.  A conjunction of one conjunction would be taken apart
again where it is joined with more, and one without children would be lost.
-/
import ListQuery.Proofs.Condition.EchoReadsBack

namespace ListQuery.Condition

variable {P : String → Test → Prop}

/-! ### Conjuncts -/

theorem flatMap_conjuncts_all {cs : List Condition} (h : ∀ c ∈ cs, c.Every P) :
    (all cs).toList.flatMap conjuncts = cs.flatMap conjuncts := by
  -- None are missing, one stays as it is, and more become a group of their conjuncts.
  rcases cs with _ | ⟨c, _ | ⟨d, rest⟩⟩
  · rfl
  · rw [all_singleton (h c List.mem_cons_self), Option.toList_some]
  · rw [all_of_two h, Option.toList_some, List.flatMap_singleton, conjuncts]

/-- Conditions with the same conjuncts have the same conjunction. -/
theorem all_congr {cs ds : List Condition} (h : cs.flatMap conjuncts = ds.flatMap conjuncts) :
    all cs = all ds :=
  congrArg (collapse .and) h

/-! ### Fields -/

theorem fieldsOf_eq_flatMap (cs : List Condition) : fieldsOf cs = cs.flatMap fields := by
  induction cs with
  | nil => rfl
  | cons c cs ih => rw [fieldsOf, ih, List.flatMap_cons]

theorem flatMap_fields_conjuncts (c : Condition) : c.conjuncts.flatMap fields = c.fields := by
  rw [conjuncts.eq_def]
  split
  · rw [fields, fieldsOf_eq_flatMap]
  · rw [List.flatMap_singleton]

theorem flatMap_fields_collapse (kind : Combinator) (cs : List Condition) :
    (collapse kind cs).toList.flatMap fields = cs.flatMap fields := by
  rcases cs with _ | ⟨c, _ | ⟨d, rest⟩⟩
  · rfl
  · rfl
  · show [group kind (c :: d :: rest)].flatMap fields = _
    rw [List.flatMap_singleton, fields, fieldsOf_eq_flatMap]

theorem flatMap_fields_all (cs : List Condition) :
    (all cs).toList.flatMap fields = cs.flatMap fields := by
  rw [all, flatMap_fields_collapse, List.flatMap_assoc]
  exact congrArg cs.flatMap (funext flatMap_fields_conjuncts)

/-! ### Joining in parts -/

/-- Conditions whose groups have children enough are joined alike at once and in parts, where a missing
part adds nothing.  Their conjunction is missing exactly if there are none of them.  It is its own
conjunction, has their fields in order, and is of their kind: its leaves are as theirs, and its groups have
children enough. -/
theorem all_regrouped {xs ys : List Condition} (hxs : ∀ c ∈ xs, c.Every P)
    (hys : ∀ c ∈ ys, c.Every P) :
    (all ((all xs).toList ++ ys) = all (xs ++ ys) ∧ all (xs ++ (all ys).toList) = all (xs ++ ys))
      ∧ (all xs = none ↔ xs = [])
      ∧ ∀ c, all xs = some c → all [c] = some c ∧ c.fields = xs.flatMap fields ∧ c.Every P := by
  refine ⟨⟨?_, ?_⟩, all_eq_none_iff hxs, ?_⟩
  · refine all_congr ?_
    rw [List.flatMap_append, flatMap_conjuncts_all hxs, List.flatMap_append]
  · refine all_congr ?_
    rw [List.flatMap_append, flatMap_conjuncts_all hys, List.flatMap_append]
  · intro c hc
    have hevery := every_of_all hxs hc
    refine ⟨all_singleton hevery, ?_, hevery⟩
    have hfields := flatMap_fields_all xs
    rwa [hc, Option.toList_some, List.flatMap_singleton] at hfields

/-- A conjunction and a test, joined before and after a disjunction. -/
theorem all_regrouped_four :
    let low : Condition := .leaf "size" (.compare .lt (.int 3))
    let high : Condition := .leaf "size" (.compare .gt (.int 9))
    let named : Condition := .leaf "kind" (.pattern .contains "b")
    let both : Condition := .group .and [low, named]
    let either : Condition := .group .or [low, high]
    all ((all [both, high]).toList ++ [either]) = some (.group .and [low, named, high, either])
      ∧ all ([either] ++ (all [both, high]).toList) = some (.group .and [either, low, named, high])
      ∧ ∃ c, all [both, high] = some c ∧ all [c] = some c ∧ c.fields = ["size", "kind", "size"] := by
  intro low high named both either
  have hleaf : ∀ field test, (leaf field test).Every fun _ _ => True := fun _ _ => .leaf trivial
  have hparts : ∀ c ∈ [both, high], c.Every fun _ _ => True := by
    refine List.forall_mem_cons.mpr ⟨.group (by decide) ?_, List.forall_mem_singleton.mpr (hleaf _ _)⟩
    exact List.forall_mem_cons.mpr ⟨hleaf _ _, List.forall_mem_singleton.mpr (hleaf _ _)⟩
  have heither : ∀ c ∈ [either], c.Every fun _ _ => True := by
    refine List.forall_mem_singleton.mpr (.group (by decide) ?_)
    exact List.forall_mem_cons.mpr ⟨hleaf _ _, List.forall_mem_singleton.mpr (hleaf _ _)⟩
  obtain ⟨⟨hbefore, -⟩, -, hjoined⟩ := all_regrouped hparts heither
  obtain ⟨⟨-, hafter⟩, -, -⟩ := all_regrouped heither hparts
  obtain ⟨hagain, hfields, -⟩ := hjoined (.group .and [low, named, high]) rfl
  exact ⟨hbefore, hafter, _, rfl, hagain, hfields⟩

-- A conjunction of one conjunction is taken apart twice where it is joined in parts.
example (c d e : Condition) :
    all ((all [.group .and [.group .and [c, d]]]).toList ++ [.group .or [e]])
        = some (.group .and [c, d, .group .or [e]])
      ∧ all ([.group .and [.group .and [c, d]]] ++ [.group .or [e]])
        = some (.group .and [.group .and [c, d], .group .or [e]]) :=
  ⟨rfl, rfl⟩

end ListQuery.Condition
