/-
The last values of names.

Values that are set one after the other leave each name with its last value, at the place where the name
came first.

* `Pairs.valuesOf` and `Pairs.last?` — the values of a name, and the last one of them;
* `Pairs.lastValues` — the names in the order in which they come first, each with its last value;
* `Pairs.setAll_nil` and `Pairs.get?_lastValues` — that is what is kept of values that are set;
* `Pairs.lastValues_renamed` — names may be replaced before the last values are taken or after.
-/
import Mathlib.Data.List.Basic
import ListQuery.Proofs.Request.Received

namespace ListQuery.Pairs

/-- The values of a name, in order. -/
def valuesOf (ps : Pairs) (name : String) : List String :=
  (ps.filter fun p => p.1 = name).map (·.2)

/-- The last value of a name. -/
def last? (ps : Pairs) (name : String) : Option String :=
  (ps.valuesOf name).getLast?

/-- The names in the order in which they come first, each with its last value. -/
def lastValues (ps : Pairs) : Pairs :=
  (ps.map (·.1)).eraseDups.filterMap fun name => (ps.last? name).map fun value => (name, value)

theorem mem_valuesOf_iff {ps : Pairs} {name value : String} :
    value ∈ ps.valuesOf name ↔ (name, value) ∈ ps := by
  simp [valuesOf]

theorem last?_cons (n v : String) (ps : Pairs) (name : String) :
    last? ((n, v) :: ps) name = (ps.last? name).or (if n = name then some v else none) := by
  by_cases h : n = name
  · simp [last?, valuesOf, h, List.getLast?_cons]
  · simp [last?, valuesOf, h]

theorem last?_isSome_iff {ps : Pairs} {name : String} :
    (ps.last? name).isSome ↔ name ∈ ps.map (·.1) := by
  simp [last?, valuesOf]

theorem last?_filter_ne {n name : String} (h : name ≠ n) (ps : Pairs) :
    last? (ps.filter fun p => p.1 ≠ n) name = ps.last? name := by
  have hfilter : (ps.filter fun p => p.1 ≠ n).filter (fun p => p.1 = name)
      = ps.filter fun p => p.1 = name := by
    rw [List.filter_filter]
    refine List.filter_congr fun p _ => ?_
    by_cases hp : p.1 = name <;> simp [hp, h]
  rw [last?, valuesOf, hfilter]
  rfl

theorem lastValues_cons (n v : String) (ps : Pairs) :
    lastValues ((n, v) :: ps)
      = (n, (ps.last? n).getD v) :: lastValues (ps.filter fun p => p.1 ≠ n) := by
  have hfirst : last? ((n, v) :: ps) n = some ((ps.last? n).getD v) := by
    rw [last?_cons, if_pos rfl]
    cases ps.last? n <;> rfl
  have hnames : (ps.map (·.1)).filter (fun name => !name == n)
      = (ps.filter fun p => p.1 ≠ n).map (·.1) := by
    rw [List.filter_map]
    refine congrArg _ (List.filter_congr fun p _ => ?_)
    by_cases h : p.1 = n <;> simp [h]
  rw [lastValues, List.map_cons, List.eraseDups_cons, hnames, List.filterMap_cons, hfirst,
    Option.map_some, lastValues]
  refine congrArg _ (List.filterMap_congr fun name hname => ?_)
  have hne : name ≠ n := by
    obtain ⟨p, hp, rfl⟩ := List.mem_map.mp (List.mem_eraseDups.mp hname)
    simpa using (List.mem_filter.mp hp).2
  rw [last?_cons, if_neg hne.symm, Option.or_none, last?_filter_ne hne]

/-! ### What is kept -/

theorem setAll_append (before ps ps' : Pairs) :
    before.setAll (ps ++ ps') = (before.setAll ps).setAll ps' :=
  List.foldl_append

theorem distinct_setAll {before : Pairs} (h : before.Distinct) (ps : Pairs) :
    (before.setAll ps).Distinct := by
  induction ps generalizing before with
  | nil => exact h
  | cons p ps ih => exact ih (distinct_set h)

theorem mem_of_mem_setAll {before ps : Pairs} {p : String × String} (h : p ∈ before.setAll ps) :
    p ∈ before ∨ p ∈ ps := by
  induction ps generalizing before with
  | nil => exact Or.inl h
  | cons q ps ih =>
    rcases ih h with h | h
    · rcases mem_of_mem_set h with rfl | h
      · exact Or.inr List.mem_cons_self
      · exact Or.inl h
    · exact Or.inr (List.mem_cons_of_mem _ h)

theorem get?_setAll (before ps : Pairs) (name : String) :
    (before.setAll ps).get? name = (ps.last? name).or (before.get? name) := by
  induction ps generalizing before with
  | nil => rfl
  | cons p ps ih =>
    obtain ⟨n, v⟩ := p
    rw [last?_cons, Option.or_assoc]
    refine (ih (before.set n v)).trans (congrArg _ ?_)
    by_cases h : n = name
    · rw [h, get?_set, if_pos rfl, Option.some_or]
    · rw [get?_set_of_ne (Ne.symm h), if_neg h, Option.none_or]

/-- The pair that is kept first has the last value of its name. -/
theorem setAll_cons_eq (n v : String) (before ps : Pairs) :
    setAll ((n, v) :: before) ps
      = (n, (ps.last? n).getD v) :: setAll before (ps.filter fun p => p.1 ≠ n) := by
  induction ps generalizing v before with
  | nil => rfl
  | cons p ps ih =>
    obtain ⟨m, w⟩ := p
    show setAll (set m w ((n, v) :: before)) ps = _
    rw [set, last?_cons]
    by_cases h : n = m
    · subst h
      rw [if_pos rfl, ih, if_pos rfl, List.filter_cons_of_neg (by simp)]
      cases last? ps n <;> rfl
    · rw [if_neg h, ih, if_neg (Ne.symm h), Option.or_none,
        List.filter_cons_of_pos (by simpa using Ne.symm h)]
      rfl

/-- Of values that are set one after the other, the last ones are kept, in the order of the names. -/
theorem setAll_nil (ps : Pairs) : setAll [] ps = lastValues ps := by
  match ps with
  | [] => rfl
  | (n, v) :: ps =>
    show setAll [(n, v)] ps = _
    rw [setAll_cons_eq, lastValues_cons, setAll_nil (ps.filter fun p => p.1 ≠ n)]
termination_by ps.length
decreasing_by exact Nat.lt_succ_of_le (List.length_filter_le _ _)

theorem distinct_lastValues (ps : Pairs) : ps.lastValues.Distinct := by
  rw [← setAll_nil]
  exact distinct_setAll List.Pairwise.nil ps

theorem mem_of_mem_lastValues {ps : Pairs} {p : String × String} (h : p ∈ ps.lastValues) : p ∈ ps := by
  rw [← setAll_nil] at h
  exact (mem_of_mem_setAll h).resolve_left List.not_mem_nil

theorem get?_lastValues (ps : Pairs) (name : String) : ps.lastValues.get? name = ps.last? name := by
  rw [← setAll_nil, get?_setAll]
  exact Option.or_none

@[simp] theorem lastValues_lastValues (ps : Pairs) : ps.lastValues.lastValues = ps.lastValues := by
  have hdistinct : Distinct ([] ++ ps.lastValues) := ps.distinct_lastValues
  exact (setAll_nil ps.lastValues).symm.trans (setAll_eq_append hdistinct)

@[simp] theorem last?_lastValues (ps : Pairs) (name : String) :
    ps.lastValues.last? name = ps.last? name := by
  rw [← get?_lastValues, lastValues_lastValues, get?_lastValues]

/-! ### Other names -/

/-- The pairs under other names; those that get no other name are left out. -/
def renamed (rename : String → Option String) (ps : Pairs) : Pairs :=
  ps.filterMap fun p => (rename p.1).map fun name => (name, p.2)

section Renamed

variable {rename : String → Option String}
  (hrename : ∀ n m other, rename n = some other → rename m = some other → n = m)

theorem renamed_cons_of_none {n : String} (h : rename n = none) (v : String) (ps : Pairs) :
    renamed rename ((n, v) :: ps) = ps.renamed rename := by
  simp [renamed, h]

theorem renamed_cons_of_some {n other : String} (h : rename n = some other) (v : String) (ps : Pairs) :
    renamed rename ((n, v) :: ps) = (other, v) :: ps.renamed rename := by
  simp [renamed, h]

theorem renamed_append (ps ps' : Pairs) :
    renamed rename (ps ++ ps') = ps.renamed rename ++ ps'.renamed rename :=
  List.filterMap_append

/-- Pairs that get their names back. -/
theorem map_renamed {restore : String → String}
    (h : ∀ n other, rename n = some other → restore other = n) (ps : Pairs) :
    (ps.renamed rename).map (fun p => (restore p.1, p.2))
      = ps.filter fun p => (rename p.1).isSome := by
  induction ps with
  | nil => rfl
  | cons p ps ih =>
    obtain ⟨n, v⟩ := p
    cases hother : rename n with
    | none =>
      rw [renamed_cons_of_none hother, ih, List.filter_cons_of_neg (by simp [hother])]
    | some other =>
      rw [renamed_cons_of_some hother, List.map_cons, ih, h n other hother,
        List.filter_cons_of_pos (by simp [hother])]

theorem renamed_set_of_none {n : String} (h : rename n = none) (v : String) (ps : Pairs) :
    (ps.set n v).renamed rename = ps.renamed rename := by
  induction ps with
  | nil => exact renamed_cons_of_none h v []
  | cons p ps ih =>
    obtain ⟨m, w⟩ := p
    rw [set]
    by_cases hm : m = n
    · rw [if_pos hm, renamed_cons_of_none (hm ▸ h), renamed_cons_of_none (hm ▸ h)]
    · rw [if_neg hm]
      cases hother : rename m with
      | none => rw [renamed_cons_of_none hother, renamed_cons_of_none hother, ih]
      | some other => rw [renamed_cons_of_some hother, renamed_cons_of_some hother, ih]

include hrename in
theorem renamed_set_of_some {n other : String} (h : rename n = some other) (v : String) (ps : Pairs) :
    (ps.set n v).renamed rename = (ps.renamed rename).set other v := by
  induction ps with
  | nil => exact renamed_cons_of_some h v []
  | cons p ps ih =>
    obtain ⟨m, w⟩ := p
    rw [set]
    by_cases hm : m = n
    · rw [if_pos hm, renamed_cons_of_some (hm ▸ h), renamed_cons_of_some (hm ▸ h), set, if_pos rfl]
    · rw [if_neg hm]
      cases hother : rename m with
      | none => rw [renamed_cons_of_none hother, renamed_cons_of_none hother, ih]
      | some other' =>
        have hne : other' ≠ other := fun heq => hm (hrename m n other (heq ▸ hother) h)
        rw [renamed_cons_of_some hother, renamed_cons_of_some hother, ih, set, if_neg hne]

include hrename in
/-- The last values of the other names, if different names get different ones. -/
theorem lastValues_renamed (ps : Pairs) :
    (ps.renamed rename).lastValues = ps.lastValues.renamed rename := by
  have hstep : ∀ before : Pairs,
      (before.renamed rename).setAll (ps.renamed rename) = (before.setAll ps).renamed rename := by
    induction ps with
    | nil => exact fun _ => rfl
    | cons p ps ih =>
      intro before
      obtain ⟨n, v⟩ := p
      refine Eq.trans ?_ (ih (before.set n v))
      cases h : rename n with
      | none => rw [renamed_cons_of_none h, renamed_set_of_none h]
      | some other =>
        rw [renamed_cons_of_some h, renamed_set_of_some hrename h]
        rfl
  rw [← setAll_nil, ← setAll_nil]
  exact hstep []

end Renamed

end ListQuery.Pairs
