/-
What a plan asks of a row.

A request demands what its filter says, each of its equalities, and that some searched field contains
its text; blank filters and blank texts demand nothing.  A row meets the predicate of the plan as far as
it meets all demands, in the logic of three values and whatever the tests of single columns give.

* `Request.demands` — what a request demands, one value a demand;
* `value_of_build` — the predicate of a plan has the value of the conjunction of the demands, and is
  missing exactly where there are none.
-/
import ListQuery.Proofs.Condition.Value
import ListQuery.Proofs.Plan.Parts
import ListQuery.Proofs.Plan.Validated

namespace ListQuery

namespace Registry

/-- What a filter gives on the table of a registry; nothing is known where it is refused. -/
def filterValue (r : Registry) (t : TestValues) (raw : Json) : Truth :=
  match Condition.read r raw with
  | .ok c => c.value t (.ofRegistry r)
  | .error _ => .unknown

/-- What the equality of a field with the value that a text spells gives on the table of a registry;
nothing is known where there is no such field or value. -/
def equalityValue (r : Registry) (t : TestValues) (name raw : String) : Truth :=
  match r.filterable? name with
  | none => .unknown
  | some f =>
    match f.type.coerce (.text raw) with
    | .ok v => t.compare ⟨r.table, f.column⟩ .eq v
    | .error _ => .unknown

/-- What the search for a text gives on the table of a registry: whether some searched field contains
it. -/
def searchValue (r : Registry) (t : TestValues) (text : String) : Truth :=
  Truth.any (r.textFields.map fun f =>
    t.like ⟨r.table, f.column⟩ .contains (Placement.contains.pattern (Text.trim text)))

end Registry

/-- What a request demands of a row: its filter, its equalities and its text, what is blank aside. -/
def Request.demands (q : Request) (r : Registry) (t : TestValues) : List Truth :=
  (q.filter.toList.filter (!·.isBlankFilter)).map (r.filterValue t)
    ++ q.equalities.map (fun (name, raw) => r.equalityValue t name raw)
    ++ (q.text.toList.filter (!Text.isBlankText ·)).map (r.searchValue t)

variable {r : Registry} {t : TestValues}

/-! ### Filters -/

theorem value_of_filterCondition {q : Request} {filter : Option Condition}
    (h : q.filterCondition r = .ok filter) :
    filter.elim .true (Condition.value t (.ofRegistry r))
      = Truth.all ((q.filter.toList.filter (!·.isBlankFilter)).map (r.filterValue t)) := by
  rcases Request.filterCondition_cases h with ⟨raw, c, hraw, hblank, hread, rfl⟩ | ⟨hblank, rfl⟩
  · simp [hraw, hblank, Truth.all, Registry.filterValue, hread]
  · cases hraw : q.filter with
    | none => rfl
    | some raw => simp [hblank raw hraw, Truth.all]

theorem filterCondition_eq_none_iff {q : Request} {filter : Option Condition}
    (h : q.filterCondition r = .ok filter) :
    filter = none ↔ ∀ raw, q.filter = some raw → raw.isBlankFilter = true := by
  rcases Request.filterCondition_cases h with ⟨raw, c, hraw, hblank, -, rfl⟩ | ⟨hblank, rfl⟩
  · simp [hraw, hblank]
  · exact iff_of_true rfl hblank

/-! ### Equalities -/

theorem value_of_equality {name raw : String} {c : Condition} (h : r.equality name raw = .ok c) :
    c.value t (.ofRegistry r) = r.equalityValue t name raw := by
  obtain ⟨f, hf, h⟩ := bind_eq_ok_iff.mp h
  have hf := Registry.filterField_eq_ok_iff.mp hf
  split at h
  · simp at h
  · split at h
    · rename_i v hv
      obtain rfl := pure_eq_ok_iff.mp h
      have hcolumn : (TableRef.ofRegistry r).filterColumn? f.name = some ⟨r.table, f.column⟩ := by
        rw [Registry.name_of_filterable? hf]
        simp [TableRef.filterColumn?, TableRef.ofRegistry, TableRef.qualifier, hf]
      rw [Condition.value, TestValues.onField, hcolumn, Registry.equalityValue, hf]
      simp only [hv]
      -- A text spells no null, so the test is a comparison and none for null.
      have hnull := FieldType.ne_null_of_coerce_text hv
      cases v with
      | null => exact absurd rfl hnull
      | bool | int | float | text | list => rfl
    · simp at h

theorem value_of_equalityCondition {equalities : Pairs} {condition : Option Condition}
    (h : r.equalityCondition equalities = .ok condition) :
    condition.elim .true (Condition.value t (.ofRegistry r))
      = Truth.all (equalities.map fun (name, raw) => r.equalityValue t name raw) := by
  obtain ⟨cs, hcs, h⟩ := bind_eq_ok_iff.mp h
  obtain rfl := pure_eq_ok_iff.mp h
  have hvalues := map_of_mapM (g := Condition.value t (.ofRegistry r))
    (k := fun (name, raw) => r.equalityValue t name raw)
    (fun (name, raw) c hc => value_of_equality hc) hcs
  rw [Condition.value_all, hvalues]

theorem equalityCondition_eq_none_iff {equalities : Pairs} {condition : Option Condition}
    (h : r.equalityCondition equalities = .ok condition) : condition = none ↔ equalities = [] := by
  obtain ⟨cs, hcs, h⟩ := bind_eq_ok_iff.mp h
  obtain rfl := pure_eq_ok_iff.mp h
  have hsound : ∀ c ∈ cs, c.Sound r := by
    intro c hc
    obtain ⟨⟨name, raw⟩, -, hread⟩ := exists_of_mem_mapM hcs hc
    exact Condition.sound_of_equality hread
  rw [Condition.all_eq_none_iff hsound, ← List.length_eq_zero_iff, length_of_mapM hcs,
    List.length_eq_zero_iff]

/-! ### Text -/

/-- The column of a searched field is that of its own name. -/
theorem filterColumn?_of_mem_textFields (hr : r.Consistent) {f : Field} (hf : f ∈ r.textFields) :
    (TableRef.ofRegistry r).filterColumn? f.name = some ⟨r.table, f.column⟩ := by
  simp [TableRef.filterColumn?, TableRef.ofRegistry, TableRef.qualifier,
    hr.filterable?_of_mem_textFields hf]

theorem value_of_textCondition (hr : r.Consistent) {text : String} {condition : Option Condition}
    (h : r.textCondition text = .ok condition) :
    condition.elim .true (Condition.value t (.ofRegistry r))
      = if Text.isBlankText text then .true else r.searchValue t text := by
  rcases Condition.textCondition_cases h with ⟨hblank, rfl⟩ | ⟨hblank, hfields, hcondition⟩
  · rw [hblank, if_pos rfl]
    rfl
  · rw [hblank, if_neg Bool.false_ne_true]
    cases condition with
    | none =>
      -- There are searched fields, so their disjunction is no empty one.
      have hnil := List.map_eq_nil_iff.mp (Condition.collapse_eq_none_iff.mp hcondition.symm)
      exact absurd hnil hfields
    | some c =>
      rw [Option.elim_some, Condition.value_of_any hcondition.symm, Registry.searchValue, List.map_map]
      congr 1
      refine List.map_congr_left fun f hf => ?_
      show t.onField _ f.name _ = _
      rw [TestValues.onField, filterColumn?_of_mem_textFields hr hf]
      rfl

theorem textCondition_eq_none_iff {text : String} {condition : Option Condition}
    (h : r.textCondition text = .ok condition) :
    condition = none ↔ Text.isBlankText text = true := by
  rcases Condition.textCondition_cases h with ⟨hblank, rfl⟩ | ⟨hblank, hfields, rfl⟩
  · exact iff_of_true rfl hblank
  · rw [Condition.any, Condition.collapse_eq_none_iff, List.map_eq_nil_iff]
    exact iff_of_false hfields (Bool.eq_false_iff.mp hblank)

theorem value_of_searchCondition (hr : r.Consistent) {q : Request} {search : Option Condition}
    (h : q.searchCondition r = .ok search) :
    search.elim .true (Condition.value t (.ofRegistry r))
      = Truth.all ((q.text.toList.filter (!Text.isBlankText ·)).map (r.searchValue t)) := by
  rw [Request.searchCondition] at h
  cases htext : q.text with
  | none =>
    rw [htext] at h
    obtain rfl := Except.ok.inj h
    rfl
  | some text =>
    rw [htext] at h
    rw [value_of_textCondition hr h]
    cases hblank : Text.isBlankText text with
    | true => simp [hblank, Truth.all]
    | false => simp [hblank, Truth.all]

theorem searchCondition_eq_none_iff {q : Request} {search : Option Condition}
    (h : q.searchCondition r = .ok search) :
    search = none ↔ ∀ text, q.text = some text → Text.isBlankText text = true := by
  rw [Request.searchCondition] at h
  cases htext : q.text with
  | none =>
    rw [htext] at h
    obtain rfl := Except.ok.inj h
    simp
  | some text =>
    rw [htext] at h
    rw [textCondition_eq_none_iff h]
    simp

/-! ### Plans -/

namespace Plan

theorem value_of_compile? {condition : Option Condition} {predicate : Option Predicate}
    {table : TableRef} (h : Condition.compile? table condition = .ok predicate) :
    predicate.elim .true (Predicate.value t) = condition.elim .true (Condition.value t table) := by
  cases condition with
  | none =>
    obtain rfl := Except.ok.inj h
    rfl
  | some c =>
    obtain ⟨p, hp, rfl⟩ := map_eq_ok_iff.mp h
    exact Condition.value_of_compile hp

theorem compile?_eq_none_iff {condition : Option Condition} {predicate : Option Predicate}
    {table : TableRef} (h : Condition.compile? table condition = .ok predicate) :
    predicate = none ↔ condition = none := by
  cases condition with
  | none =>
    obtain rfl := Except.ok.inj h
    simp
  | some c =>
    obtain ⟨p, -, rfl⟩ := map_eq_ok_iff.mp h
    simp

theorem all_toList (condition : Option Condition) {table : TableRef} :
    Truth.all (condition.toList.map (Condition.value t table))
      = condition.elim .true (Condition.value t table) := by
  cases condition with
  | none => rfl
  | some c => exact Truth.and_true _

/-- The predicate of a plan has, whatever the tests of single columns give, the value of the conjunction
of what the request demands: its filter, each of its equalities, and that some searched field contains
its text.  It is missing exactly where the filter is blank, there are no equalities, and the text is
blank. -/
theorem value_of_build {r : Registry} (hr : r.Built) {q : Request} {path : String} {p : Plan}
    (h : Plan.build q r path = .ok p) :
    (∀ t : TestValues, p.predicate.elim .true (Predicate.value t) = Truth.all (q.demands r t))
      ∧ (p.predicate = none
          ↔ (∀ raw, q.filter = some raw → raw.isBlankFilter = true) ∧ q.equalities = []
            ∧ ∀ text, q.text = some text → Text.isBlankText text = true) := by
  have hconsistent := Registry.consistent_of_built hr
  obtain ⟨filter, equalities, search, hfilter, hequalities, hsearch, hcondition, hpredicate, -⟩ :=
    build_eq_ok_iff.mp h
  constructor
  · intro t
    calc p.predicate.elim .true (Predicate.value t)
      _ = p.condition.elim .true (Condition.value t (.ofRegistry r)) := value_of_compile? hpredicate
      _ = Truth.all ((filter.toList ++ equalities.toList ++ search.toList).map
            (Condition.value t (.ofRegistry r))) := by rw [hcondition, Condition.value_all]
      _ = Truth.all (q.demands r t) := by
        rw [List.map_append, List.map_append, Truth.all_append, Truth.all_append, all_toList,
          all_toList, all_toList, value_of_filterCondition hfilter,
          value_of_equalityCondition hequalities, value_of_searchCondition hconsistent hsearch,
          Request.demands, Truth.all_append, Truth.all_append]
  · have hevery : ∀ c ∈ filter.toList ++ equalities.toList ++ search.toList,
        c.Every fun field test => (Condition.leaf field test).Permitted r := by
      intro c hc
      exact Condition.every_of_validated hconsistent
        (validated_of_mem_parts hfilter hequalities hsearch hc)
    rw [compile?_eq_none_iff hpredicate, hcondition, Condition.all_eq_none_iff hevery]
    rw [List.append_eq_nil_iff, List.append_eq_nil_iff, Option.toList_eq_nil_iff,
      Option.toList_eq_nil_iff, Option.toList_eq_nil_iff, filterCondition_eq_none_iff hfilter,
      equalityCondition_eq_none_iff hequalities, searchCondition_eq_none_iff hsearch, and_assoc]

theorem value_of_build_parts :
    let q : Request := { Request.empty with
      filter := some (.object [("id", .object [("gt", .integer 1), ("not_in", .array [.integer 5])])])
      equalities := [("kind", "a")]
      text := some " b " }
    ∃ p, Plan.build q .parts "/parts" = .ok p ∧ p.predicate ≠ none
      ∧ ∀ t : TestValues, p.predicate.elim .true (Predicate.value t) = Truth.all
        [Truth.all [t.compare ⟨"parts", "id"⟩ .gt (.int 1),
            Truth.all [(t.oneOf ⟨"parts", "id"⟩ [.int 5]).not]],
          t.compare ⟨"parts", "kind"⟩ .eq (.text "a"),
          Truth.any [t.like ⟨"parts", "kind"⟩ .contains "%b%"]] := by
  intro q
  obtain ⟨p, hp⟩ : ∃ p, Plan.build q .parts "/parts" = .ok p := ⟨_, rfl⟩
  have hmeaning := value_of_build Registry.built_parts hp
  refine ⟨p, hp, ?_, fun t => (hmeaning.1 t).trans rfl⟩
  intro hnone
  exact absurd (hmeaning.2.mp hnone).2.1 (List.cons_ne_nil _ _)

end Plan

end ListQuery
