/-
What a registry that was built can be relied on for.

The settings of a registry keep their fields under different names, and `Draft.build` checks the rest.

* `Registry.Built` — the registries that come out of `Draft.build`;
* `Registry.Consistent` — fields of different names, operators that suit their types, text search on
  texts only, page sizes in order, and primary key and order among the fields;
* `consistent_of_built` — a built registry is consistent.
-/
import ListQuery.Proofs.Outcome
import ListQuery.Registry.Outline

namespace ListQuery

namespace Fields

/-- Whether no two fields have the same name. -/
def Distinct (fields : Fields) : Prop :=
  fields.Pairwise fun f g => f.name ≠ g.name

theorem mem_of_mem_insert {fields : Fields} {f g : Field} (h : g ∈ fields.insert f) :
    g = f ∨ g ∈ fields := by
  induction fields with
  | nil => simpa [Fields.insert] using h
  | cons k rest ih =>
    rw [Fields.insert] at h
    split at h
    · exact (List.mem_cons.mp h).imp id (List.mem_cons_of_mem _)
    · rcases List.mem_cons.mp h with rfl | h
      · exact Or.inr List.mem_cons_self
      · exact (ih h).imp id (List.mem_cons_of_mem _)

theorem distinct_insert {fields : Fields} (h : fields.Distinct) (f : Field) :
    (fields.insert f).Distinct := by
  induction fields with
  | nil => exact List.pairwise_singleton _ _
  | cons g rest ih =>
    obtain ⟨hg, hrest⟩ := List.pairwise_cons.mp h
    rw [Fields.insert]
    split
    · rename_i hname
      exact List.pairwise_cons.mpr ⟨fun k hk => hname ▸ hg k hk, hrest⟩
    · rename_i hname
      refine List.pairwise_cons.mpr ⟨fun k hk => ?_, ih hrest⟩
      rcases mem_of_mem_insert hk with rfl | hk
      · exact hname
      · exact hg k hk

theorem get?_of_mem {fields : Fields} (h : fields.Distinct) {f : Field} (hf : f ∈ fields) :
    fields.get? f.name = some f := by
  induction fields with
  | nil => exact absurd hf List.not_mem_nil
  | cons g rest ih =>
    obtain ⟨hg, hrest⟩ := List.pairwise_cons.mp h
    rcases List.mem_cons.mp hf with rfl | hf
    · simp [get?]
    · have hname : (g.name == f.name) = false := by simpa using hg f hf
      rw [get?, List.find?_cons, hname]
      exact ih hrest hf

/-- The fields with others registered one after the other. -/
def insertAll (kept fields : Fields) : Fields :=
  fields.foldl (fun kept f => kept.insert f) kept

theorem distinct_insertAll {kept : Fields} (h : kept.Distinct) (fields : Fields) :
    (kept.insertAll fields).Distinct := by
  induction fields generalizing kept with
  | nil => exact h
  | cons f fields ih => exact ih (distinct_insert h f)

end Fields

namespace Registry

open Draft

/-! ### Settings -/

/-- The settings that a description asks for have fields of different names. -/
theorem Outline.distinct_draft {c : Outline} {d : Draft} (h : c.draft = .ok d) :
    d.fields.Distinct := by
  obtain ⟨fields, -, h⟩ := bind_eq_ok_iff.mp h
  obtain rfl := pure_eq_ok_iff.mp h
  exact Fields.distinct_insertAll List.Pairwise.nil fields

/-- A registry that `Draft.build` gives, the fields of the settings having different names. -/
def Built (r : Registry) : Prop :=
  ∃ d : Draft, d.fields.Distinct ∧ d.build = .ok r

/-! ### What is checked -/

/-- A registry whose parts fit together. -/
structure Consistent (r : Registry) : Prop where
  distinct : r.fields.Distinct
  suits : ∀ f ∈ r.fields, ∀ op ∈ f.operators, op ∈ f.type.operators
  searches : ∀ f ∈ r.fields, f.textSearch = true →
    f.type = .text ∧ f.filterable = true ∧ .pattern .contains ∈ f.operators
  items : 1 ≤ r.defaultItems ∧ r.defaultItems ≤ r.maxItems
  primaryKey : ∀ f, r.primaryKey = some f → r.get? f.name = some f
  order : r.get? r.defaultOrderBy.name = some r.defaultOrderBy

theorem Draft.checkField_eq_ok_iff {resource : String} {f : Field} :
    checkField resource f = .ok ()
      ↔ (∀ op ∈ f.operators, op ∈ f.type.operators)
        ∧ (f.textSearch = true →
            f.type = .text ∧ f.filterable = true ∧ .pattern .contains ∈ f.operators) := by
  rw [checkField]
  cases hfind : f.operators.find? fun op => !f.type.operators.contains op with
  | some op =>
    have hmem := List.mem_of_find?_eq_some hfind
    have hnot : op ∉ f.type.operators := by simpa using List.find?_some hfind
    exact iff_of_false (by simp) fun h => hnot (h.1 op hmem)
  | none =>
    have hsuits : ∀ op ∈ f.operators, op ∈ f.type.operators := fun op hop => by
      simpa using List.find?_eq_none.mp hfind op hop
    rw [and_iff_right hsuits]
    grind

theorem Draft.checkItems_eq_ok_iff {d : Draft} :
    d.checkItems = .ok () ↔ 1 ≤ d.defaultItems ∧ d.defaultItems ≤ d.maxItems := by
  rw [checkItems]
  split
  · exact iff_of_false (by simp) (by omega)
  · split
    · exact iff_of_false (by simp) (by omega)
    · exact iff_of_true rfl (by omega)

theorem Draft.resolvePrimaryKey_eq_ok_iff {d : Draft} {key : Option Field} :
    d.resolvePrimaryKey = .ok key
      ↔ key = d.primaryKey.bind d.fields.get? ∧ key.isSome = d.primaryKey.isSome := by
  rw [resolvePrimaryKey]
  cases d.primaryKey with
  | none =>
    constructor
    · rintro ⟨⟩
      exact ⟨rfl, rfl⟩
    · rintro ⟨rfl, -⟩
      rfl
  | some name =>
    simp only [Option.bind_some]
    cases d.fields.get? name with
    | some f =>
      constructor
      · rintro ⟨⟩
        exact ⟨rfl, rfl⟩
      · rintro ⟨rfl, -⟩
        rfl
    | none =>
      refine iff_of_false (by simp) ?_
      rintro ⟨rfl, hkey⟩
      simp at hkey

theorem Draft.resolveOrder_eq_ok_iff {d : Draft} {f : Field} :
    d.resolveOrder = .ok f ↔ (d.defaultOrderBy.or d.primaryKey).bind d.fields.get? = some f := by
  rw [resolveOrder]
  cases d.defaultOrderBy.or d.primaryKey with
  | none => simp
  | some name => cases hget : d.fields.get? name <;> simp [hget]

theorem Draft.build_eq_ok_iff {d : Draft} {r : Registry} :
    d.build = .ok r
      ↔ d.checkItems = .ok () ∧ (∀ f ∈ d.fields, checkField d.resource f = .ok ())
        ∧ d.resolvePrimaryKey = .ok r.primaryKey ∧ d.resolveOrder = .ok r.defaultOrderBy
        ∧ r = ⟨d.resource, d.table.getD d.resource, r.primaryKey, d.fields, d.maxItems, d.defaultItems,
            r.defaultOrderBy, d.defaultDirection⟩ := by
  constructor
  · intro h
    obtain ⟨⟨⟩, hitems, h⟩ := bind_eq_ok_iff.mp h
    obtain ⟨⟨⟩, hfields, h⟩ := bind_eq_ok_iff.mp h
    obtain ⟨primaryKey, hkey, h⟩ := bind_eq_ok_iff.mp h
    obtain ⟨order, horder, h⟩ := bind_eq_ok_iff.mp h
    obtain rfl := pure_eq_ok_iff.mp h
    exact ⟨hitems, forM_eq_ok_iff.mp hfields, hkey, horder, rfl⟩
  · rintro ⟨hitems, hfields, hkey, horder, hr⟩
    refine bind_eq_ok_iff.mpr ⟨⟨⟩, hitems, ?_⟩
    refine bind_eq_ok_iff.mpr ⟨⟨⟩, forM_eq_ok_iff.mpr hfields, ?_⟩
    refine bind_eq_ok_iff.mpr ⟨_, hkey, ?_⟩
    exact bind_eq_ok_iff.mpr ⟨_, horder, congrArg Except.ok hr.symm⟩

/-- A field that a name leads to is led to by its own name. -/
theorem get?_name_of_bind {fields : Fields} {name : Option String} {f : Field}
    (h : name.bind fields.get? = some f) : fields.get? f.name = some f := by
  obtain ⟨name, rfl, hget⟩ := Option.bind_eq_some_iff.mp h
  rw [Fields.name_of_get? hget]
  exact hget

theorem consistent_of_built {r : Registry} (h : r.Built) : r.Consistent := by
  obtain ⟨d, hdistinct, hbuild⟩ := h
  obtain ⟨hitems, hfields, hkey, horder, hr⟩ := build_eq_ok_iff.mp hbuild
  obtain ⟨hkey, -⟩ := resolvePrimaryKey_eq_ok_iff.mp hkey
  have horder := resolveOrder_eq_ok_iff.mp horder
  have hsame : r.fields = d.fields := congrArg Registry.fields hr
  have hcheck : ∀ f ∈ r.fields, _ := fun f hf => checkField_eq_ok_iff.mp (hfields f (hsame ▸ hf))
  exact
    { distinct := hsame ▸ hdistinct
      suits := fun f hf => (hcheck f hf).1
      searches := fun f hf => (hcheck f hf).2
      items := by
        rw [congrArg Registry.defaultItems hr, congrArg Registry.maxItems hr]
        exact checkItems_eq_ok_iff.mp hitems
      primaryKey := fun f hf => by
        rw [get?, hsame]
        exact get?_name_of_bind (hkey.symm.trans hf)
      order := by
        rw [get?, hsame]
        exact get?_name_of_bind horder }

/-- A field of texts that rows may be ordered by. -/
def textField (name : String) : Field :=
  { Field.ofType name .text with sortable := true }

/-- A registry whose one field is a text. -/
def ofTextField (resource name : String) : Registry :=
  ⟨resource, resource, none, [textField name], usualMaxItems, usualItems, textField name, .asc⟩

theorem built_ofTextField (resource name : String) : (ofTextField resource name).Built := by
  refine ⟨⟨resource, none, none, [textField name], usualMaxItems, usualItems, some name, .asc⟩,
    List.pairwise_singleton _ _, ?_⟩
  have hget : Fields.get? [textField name] name = some (textField name) := by
    simp [Fields.get?, textField, Field.ofType]
  have horder : Draft.resolveOrder
      ⟨resource, none, none, [textField name], usualMaxItems, usualItems, some name, .asc⟩
        = .ok (textField name) := by
    simp only [resolveOrder, Option.some_or, hget]
  rw [build, horder]
  rfl

/-- A registry of parts: a number that is their key, and a kind in which texts are searched. -/
def parts : Registry :=
  let id : Field := { Field.ofType "id" .integer with sortable := true }
  let kind : Field := { Field.ofType "kind" .text with sortable := true, textSearch := true }
  ⟨"parts", "parts", some id, [id, kind], usualMaxItems, usualItems, id, .asc⟩

theorem built_parts : parts.Built := by
  refine ⟨⟨"parts", none, some "id", parts.fields, usualMaxItems, usualItems, none, .asc⟩, ?_, rfl⟩
  have hnames : "id" ≠ "kind" := by decide
  exact List.pairwise_pair.mpr hnames

/-- A registry of readings of sensors, with a field of each type. -/
def readings : Registry :=
  let id : Field := { Field.ofType "id" .uuid with sortable := true }
  ⟨"readings", "readings", some id,
    [id, .ofType "taken" .timestamp, .ofType "level" .float, .ofType "count" .integer,
      .ofType "valid" .boolean, .ofType "note" .text],
    usualMaxItems, usualItems, id, .asc⟩

theorem built_readings : readings.Built := by
  refine ⟨⟨"readings", none, some "id", readings.fields, usualMaxItems, usualItems, none, .asc⟩, ?_,
    rfl⟩
  have hnames : (readings.fields.map Field.name).Pairwise (· ≠ ·) := by decide
  exact List.pairwise_map.mp hnames

/-! ### Fields of a registry -/

theorem mem_of_get? {r : Registry} {name : String} {f : Field} (h : r.get? name = some f) :
    f ∈ r.fields :=
  Fields.mem_of_get? h

theorem filterField_eq_ok_iff {r : Registry} {name : String} {f : Field} :
    r.filterField name = .ok f ↔ r.filterable? name = some f := by
  rw [filterField, filterable?]
  cases hget : r.get? name with
  | none => simp
  | some g =>
    simp only [Option.filter_some]
    split <;> simp

theorem filterable?_eq_some_iff {r : Registry} {name : String} {f : Field} :
    r.filterable? name = some f ↔ r.get? name = some f ∧ f.filterable = true := by
  rw [filterable?, Option.filter_eq_some_iff]

theorem name_of_filterable? {r : Registry} {name : String} {f : Field}
    (h : r.filterable? name = some f) : f.name = name :=
  Fields.name_of_get? (filterable?_eq_some_iff.mp h).1

/-- A field that text search covers is one that filters may use. -/
theorem Consistent.filterable?_of_mem_textFields {r : Registry} (hr : r.Consistent) {f : Field}
    (hf : f ∈ r.textFields) : r.filterable? f.name = some f := by
  obtain ⟨hmem, hsearch⟩ := List.mem_filter.mp hf
  obtain ⟨-, hfilterable, -⟩ := hr.searches f hmem hsearch
  exact filterable?_eq_some_iff.mpr ⟨Fields.get?_of_mem hr.distinct hmem, hfilterable⟩

/-- An operator that a field of a consistent registry allows is one of the field's type. -/
theorem Consistent.operator_of_allows {r : Registry} (hr : r.Consistent) {name : String} {f : Field}
    (hf : r.filterable? name = some f) {op : Operator} (h : f.allows op = true) :
    op ∈ f.type.operators := by
  have hmem := mem_of_get? (filterable?_eq_some_iff.mp hf).1
  rw [Field.allows, Bool.and_eq_true] at h
  exact hr.suits f hmem op (by simpa using h.2)

end Registry

end ListQuery
