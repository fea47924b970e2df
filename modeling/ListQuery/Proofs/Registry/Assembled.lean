/-
Registries from settings that are given one after the other.

Settings come in any order, and any of them may come again; a field may be registered again under its
name.  In the end the last value of each counts, and with the fields the last one of each name.  A registry
is built from just those that fit together, and gives them back; any others are refused as a fault of the
settings.

* `Draft.Change` and `Draft.ofChanges` — settings given one after the other;
* `Terms` — what settings come down to, `Terms.ofChanges` and `Terms.ofOutline`;
* `Terms.Sound` and `Terms.Kept` — the settings that fit together, and the registries that keep to them;
* `FaultsOnly` — steps that only fail for a fault of the settings;
* `decide_build` — what is built from settings that are complete;
* `built_of_ofToml` — a registry that is read from a text is built in this way;
* `built_from_settings` — what is built from changes, and from a description of a registry.
-/
import ListQuery.Proofs.Registry.Built

namespace ListQuery

namespace Fields

/-- The last of some fields that has a name. -/
def last? (fields : Fields) (name : String) : Option Field :=
  (fields.filter (·.name == name)).getLast?

theorem last?_cons (f : Field) (fields : Fields) (name : String) :
    last? (f :: fields) name = (fields.last? name).or (if f.name = name then some f else none) := by
  rw [last?, last?, List.filter_cons]
  by_cases h : f.name = name
  · simp [h, List.getLast?_cons]
  · simp [h]

theorem get?_insert_of_ne {f : Field} {name : String} (h : f.name ≠ name) (fields : Fields) :
    (fields.insert f).get? name = fields.get? name := by
  induction fields with
  | nil => simp [Fields.insert, get?, h]
  | cons g rest ih =>
    rw [Fields.insert]
    split
    · rename_i hg
      simp [get?, h, hg]
    · simp only [get?, List.find?_cons] at ih ⊢
      rw [ih]

theorem get?_insertAll (kept fields : Fields) (name : String) :
    (kept.insertAll fields).get? name = (fields.last? name).or (kept.get? name) := by
  induction fields generalizing kept with
  | nil => rfl
  | cons f fields ih =>
    rw [last?_cons, Option.or_assoc]
    refine (ih (kept.insert f)).trans (congrArg _ ?_)
    by_cases h : f.name = name
    · subst h
      rw [get?_insert, if_pos rfl, Option.some_or]
    · rw [get?_insert_of_ne h, if_neg h, Option.none_or]

/-- Of fields registered one after the other, a name leads to the last one that has it. -/
theorem get?_insertAll_nil (fields : Fields) : (insertAll [] fields).get? = fields.last? := by
  funext name
  exact (get?_insertAll [] fields name).trans Option.or_none

end Fields

namespace Registry

open Draft

/-! ### Changes -/

namespace Draft

/-- A change to the settings of a registry. -/
inductive Change where
  | table (name : String)
  | primaryKey (name : String)
  | field (f : Field)
  | maxItems (n : Nat)
  | defaultItems (n : Nat)
  | defaultSort (name : String) (direction : Direction)

namespace Change

/-- The table that a change sets. -/
def table? : Change → Option String
  | .table name => some name
  | _ => none

/-- The name of the primary key that a change sets. -/
def primaryKey? : Change → Option String
  | .primaryKey name => some name
  | _ => none

/-- The field that a change registers. -/
def field? : Change → Option Field
  | .field f => some f
  | _ => none

/-- The greatest page size that a change sets. -/
def maxItems? : Change → Option Nat
  | .maxItems n => some n
  | _ => none

/-- The usual page size that a change sets. -/
def defaultItems? : Change → Option Nat
  | .defaultItems n => some n
  | _ => none

/-- The name of the field of the usual ordering that a change sets. -/
def defaultOrderBy? : Change → Option String
  | .defaultSort name _ => some name
  | _ => none

/-- The direction of the usual ordering that a change sets. -/
def defaultDirection? : Change → Option Direction
  | .defaultSort _ direction => some direction
  | _ => none

/-- What is set last. -/
def last? {α : Type} (read : Change → Option α) (changes : List Change) : Option α :=
  (changes.filterMap read).getLast?

theorem last?_cons {α : Type} (read : Change → Option α) (c : Change) (changes : List Change) :
    last? read (c :: changes) = (last? read changes).or (read c) := by
  cases hc : read c with
  | none => simp [last?, hc]
  | some a => simp [last?, hc, List.getLast?_cons]

end Change

/-- The settings after a change. -/
def change (d : Draft) : Change → Draft
  | .table name => d.withTable name
  | .primaryKey name => d.withPrimaryKey name
  | .field f => d.withField f
  | .maxItems n => d.withMaxItems n
  | .defaultItems n => d.withDefaultItems n
  | .defaultSort name direction => d.withDefaultSort name direction

/-- The settings of a resource after some changes. -/
def ofChanges (resource : String) (changes : List Change) : Draft :=
  changes.foldl change (ofResource resource)

/-- A setting that each change sets or leaves alone is in the end what it was set to last. -/
theorem foldl_change {α : Type} (setting : Draft → Option α) (read : Change → Option α)
    (h : ∀ d c, setting (d.change c) = (read c).or (setting d)) (changes : List Change) (d : Draft) :
    setting (changes.foldl change d) = (Change.last? read changes).or (setting d) := by
  induction changes generalizing d with
  | nil => rfl
  | cons c changes ih => rw [List.foldl_cons, ih, h, Change.last?_cons, Option.or_assoc]

theorem resource_foldl_change (changes : List Change) (d : Draft) :
    (changes.foldl change d).resource = d.resource := by
  induction changes generalizing d with
  | nil => rfl
  | cons c changes ih =>
    rw [List.foldl_cons, ih]
    cases c <;> rfl

theorem fields_foldl_change (changes : List Change) (d : Draft) :
    (changes.foldl change d).fields = Fields.insertAll d.fields (changes.filterMap Change.field?) := by
  induction changes generalizing d with
  | nil => rfl
  | cons c changes ih =>
    rw [List.foldl_cons, ih]
    cases c <;> rfl

end Draft

/-! ### What settings come down to -/

/-- The settings of a registry, with what has been set in place of what has not. -/
structure Terms where
  resource : String
  table : String
  primaryKey : Option String
  defaultOrderBy : Option String
  defaultDirection : Direction
  maxItems : Nat
  defaultItems : Nat
  field? : String → Option Field

namespace Terms

/-- What settings come down to. -/
def ofDraft (d : Draft) : Terms :=
  ⟨d.resource, d.table.getD d.resource, d.primaryKey, d.defaultOrderBy, d.defaultDirection, d.maxItems,
   d.defaultItems, d.fields.get?⟩

/-- What changes come down to: the last value of each setting, and the last field of each name. -/
def ofChanges (resource : String) (changes : List Change) : Terms where
  resource := resource
  table := (Change.last? Change.table? changes).getD resource
  primaryKey := Change.last? Change.primaryKey? changes
  defaultOrderBy := Change.last? Change.defaultOrderBy? changes
  defaultDirection := (Change.last? Change.defaultDirection? changes).getD .asc
  maxItems := (Change.last? Change.maxItems? changes).getD usualMaxItems
  defaultItems := (Change.last? Change.defaultItems? changes).getD usualItems
  field? := Fields.last? (changes.filterMap Change.field?)

theorem ofDraft_ofChanges (resource : String) (changes : List Change) :
    ofDraft (Draft.ofChanges resource changes) = ofChanges resource changes := by
  have hresource : (Draft.ofChanges resource changes).resource = resource :=
    resource_foldl_change changes _
  have hfields : (Draft.ofChanges resource changes).fields.get?
      = Fields.last? (changes.filterMap Change.field?) := by
    rw [Draft.ofChanges, fields_foldl_change]
    exact Fields.get?_insertAll_nil _
  have hset : ∀ {α : Type} (setting : Draft → Option α) (read : Change → Option α),
      (∀ d c, setting (d.change c) = (read c).or (setting d)) →
        setting (Draft.ofChanges resource changes)
          = (Change.last? read changes).or (setting (.ofResource resource)) :=
    fun setting read h => foldl_change setting read h changes _
  -- Each setting is looked up on its own; a change sets one or two of them and leaves the others.
  have htable := hset (·.table) Change.table? (by rintro d ⟨⟩ <;> rfl)
  have hkey := hset (·.primaryKey) Change.primaryKey? (by rintro d ⟨⟩ <;> rfl)
  have horder := hset (·.defaultOrderBy) Change.defaultOrderBy? (by rintro d ⟨⟩ <;> rfl)
  have hdirection := hset (some ·.defaultDirection) Change.defaultDirection? (by rintro d ⟨⟩ <;> rfl)
  have hmax := hset (some ·.maxItems) Change.maxItems? (by rintro d ⟨⟩ <;> rfl)
  have hdefault := hset (some ·.defaultItems) Change.defaultItems? (by rintro d ⟨⟩ <;> rfl)
  simp only [Option.or_some, Option.some.injEq] at hdirection hmax hdefault
  simp only [ofDraft, ofChanges, hresource, htable, hkey, horder, hdirection, hmax, hdefault, hfields,
    ofResource, Option.or_none]

/-- Whether settings fit together. -/
structure Sound (s : Terms) : Prop where
  items : 1 ≤ s.defaultItems ∧ s.defaultItems ≤ s.maxItems
  suits : ∀ name f, s.field? name = some f → ∀ op ∈ f.operators, op ∈ f.type.operators
  searches : ∀ name f, s.field? name = some f → f.textSearch = true →
    f.type = .text ∧ f.filterable = true ∧ .pattern .contains ∈ f.operators
  primaryKey : ∀ name, s.primaryKey = some name → ∃ f, s.field? name = some f
  /-- There is a usual ordering, or a primary key in its place. -/
  order : ∃ name f, s.defaultOrderBy.or s.primaryKey = some name ∧ s.field? name = some f

/-- Whether a registry gives what settings say. -/
structure Kept (s : Terms) (r : Registry) : Prop where
  consistent : r.Consistent
  resource : r.resource = s.resource
  table : r.table = s.table
  maxItems : r.maxItems = s.maxItems
  defaultItems : r.defaultItems = s.defaultItems
  get? : ∀ name, r.get? name = s.field? name
  name : ∀ name f, r.get? name = some f → f.name = name
  primaryKey : r.primaryKey = s.primaryKey.bind s.field?
  hasPrimaryKey : r.primaryKey.isSome = s.primaryKey.isSome
  order : ∃ name, s.defaultOrderBy.or s.primaryKey = some name ∧ r.get? name = some r.defaultOrderBy
  direction : r.defaultDirection = s.defaultDirection

/-- Whether settings come out as they should: a registry that gives what they say, if they fit together,
and a fault of the settings otherwise. -/
def Decide (s : Terms) (x : Except QueryError Registry) : Prop :=
  (s.Sound ∧ ∃ r, x = .ok r ∧ s.Kept r) ∨ (¬s.Sound ∧ ∃ fault, x = .error (.config fault))

end Terms

/-! ### Faults of settings -/

/-- Whether a step can only fail for a fault of the settings. -/
def FaultsOnly {α : Type} (x : Except QueryError α) : Prop :=
  ∀ e, x = .error e → ∃ fault, e = .config fault

namespace FaultsOnly

variable {α β : Type}

theorem ok (a : α) : FaultsOnly (.ok a) :=
  fun _ h => nomatch h

theorem config (fault : ConfigFault) : FaultsOnly (.error (.config fault) : Except QueryError α) :=
  fun _ h => ⟨fault, (Except.error.inj h).symm⟩

theorem ite {c : Prop} [Decidable c] {x y : Except QueryError α} (hx : FaultsOnly x)
    (hy : FaultsOnly y) : FaultsOnly (if c then x else y) := by
  split
  · exact hx
  · exact hy

theorem bind {x : Except QueryError α} {f : α → Except QueryError β} (hx : FaultsOnly x)
    (hf : ∀ a, FaultsOnly (f a)) : FaultsOnly (x >>= f) := by
  intro e h
  rcases bind_eq_error_iff.mp h with h | ⟨a, -, h⟩
  · exact hx e h
  · exact hf a e h

theorem mapM {f : α → Except QueryError β} (hf : ∀ a, FaultsOnly (f a)) (as : List α) :
    FaultsOnly (as.mapM f) := by
  intro e h
  obtain ⟨a, -, ha⟩ := exists_of_mapM_eq_error h
  exact hf a e ha

theorem forM {f : α → Except QueryError Unit} (hf : ∀ a, FaultsOnly (f a)) (as : List α) :
    FaultsOnly (as.forM f) := by
  intro e h
  obtain ⟨a, -, ha⟩ := exists_of_forM_eq_error h
  exact hf a e ha

end FaultsOnly

namespace Draft

theorem faultsOnly_checkItems (d : Draft) : FaultsOnly d.checkItems :=
  .ite (.config _) (.ite (.config _) (.ok _))

theorem faultsOnly_checkField (resource : String) (f : Field) : FaultsOnly (checkField resource f) := by
  rw [checkField]
  split
  · exact .config _
  · exact .ite (.ok _) (.ite (.config _) (.ite (.config _) (.ite (.config _) (.ok _))))

theorem faultsOnly_resolvePrimaryKey (d : Draft) : FaultsOnly d.resolvePrimaryKey := by
  rw [resolvePrimaryKey]
  split
  · exact .ok _
  · split
    · exact .ok _
    · exact .config _

theorem faultsOnly_resolveOrder (d : Draft) : FaultsOnly d.resolveOrder := by
  rw [resolveOrder]
  split
  · exact .config _
  · split
    · exact .ok _
    · exact .config _

theorem faultsOnly_build (d : Draft) : FaultsOnly d.build :=
  .bind (faultsOnly_checkItems d) fun _ =>
  .bind (.forM (faultsOnly_checkField d.resource) d.fields) fun _ =>
  .bind (faultsOnly_resolvePrimaryKey d) fun _ =>
  .bind (faultsOnly_resolveOrder d) fun _ => .ok _

end Draft

/-! ### What is built -/

namespace Terms

variable {d : Draft}

theorem forall_mem_iff {fields : Fields} (h : fields.Distinct) {P : Field → Prop} :
    (∀ f ∈ fields, P f) ↔ ∀ name f, fields.get? name = some f → P f := by
  constructor
  · exact fun hall name f hget => hall f (Fields.mem_of_get? hget)
  · exact fun hall f hf => hall f.name f (Fields.get?_of_mem h hf)

theorem isSome_bind_iff {key : Option String} {field? : String → Option Field} :
    (key.bind field?).isSome = key.isSome ↔ ∀ name, key = some name → ∃ f, field? name = some f := by
  cases key with
  | none => simp
  | some name => simp [Option.isSome_iff_exists]

/-- A registry is built from settings that fit together, and from no others. -/
theorem sound_ofDraft_iff (h : d.fields.Distinct) : (ofDraft d).Sound ↔ ∃ r, d.build = .ok r := by
  constructor
  · intro hsound
    obtain ⟨name, order, hname, hget⟩ := hsound.order
    have horder : (d.defaultOrderBy.or d.primaryKey).bind d.fields.get? = some order :=
      Option.bind_eq_some_iff.mpr ⟨name, hname, hget⟩
    have hfields := (forall_mem_iff h).mpr fun name f hf =>
      And.intro (hsound.suits name f hf) (hsound.searches name f hf)
    let r : Registry := ⟨d.resource, d.table.getD d.resource, d.primaryKey.bind d.fields.get?, d.fields,
      d.maxItems, d.defaultItems, order, d.defaultDirection⟩
    exact ⟨r, build_eq_ok_iff.mpr ⟨checkItems_eq_ok_iff.mpr hsound.items,
      fun f hf => checkField_eq_ok_iff.mpr (hfields f hf),
      resolvePrimaryKey_eq_ok_iff.mpr ⟨rfl, isSome_bind_iff.mpr hsound.primaryKey⟩,
      resolveOrder_eq_ok_iff.mpr horder, rfl⟩⟩
  · rintro ⟨r, hbuild⟩
    obtain ⟨hitems, hfields, hkey, horder, -⟩ := build_eq_ok_iff.mp hbuild
    have hcheck := (forall_mem_iff h).mp fun f hf => checkField_eq_ok_iff.mp (hfields f hf)
    obtain ⟨hkey, hsome⟩ := resolvePrimaryKey_eq_ok_iff.mp hkey
    obtain ⟨name, hname, hget⟩ := Option.bind_eq_some_iff.mp (resolveOrder_eq_ok_iff.mp horder)
    exact
      { items := checkItems_eq_ok_iff.mp hitems
        suits := fun name f hf => (hcheck name f hf).1
        searches := fun name f hf => (hcheck name f hf).2
        primaryKey := isSome_bind_iff.mp (hkey ▸ hsome)
        order := ⟨name, _, hname, hget⟩ }

theorem kept_of_build (h : d.fields.Distinct) {r : Registry} (hbuild : d.build = .ok r) :
    (ofDraft d).Kept r := by
  obtain ⟨-, -, hkey, horder, hr⟩ := build_eq_ok_iff.mp hbuild
  obtain ⟨hkey, hsome⟩ := resolvePrimaryKey_eq_ok_iff.mp hkey
  obtain ⟨name, hname, hget⟩ := Option.bind_eq_some_iff.mp (resolveOrder_eq_ok_iff.mp horder)
  have hfields : r.fields = d.fields := congrArg Registry.fields hr
  have hlookup : ∀ name, r.get? name = d.fields.get? name := fun name => by rw [Registry.get?, hfields]
  exact
    { consistent := consistent_of_built ⟨d, h, hbuild⟩
      resource := congrArg Registry.resource hr
      table := congrArg Registry.table hr
      maxItems := congrArg Registry.maxItems hr
      defaultItems := congrArg Registry.defaultItems hr
      get? := hlookup
      name := fun name f hf => Fields.name_of_get? hf
      primaryKey := hkey
      hasPrimaryKey := hsome
      order := ⟨name, hname, (hlookup name).trans hget⟩
      direction := congrArg Registry.defaultDirection hr }

/-- Settings decide what is built from them. -/
theorem decide_build (h : d.fields.Distinct) : (ofDraft d).Decide d.build := by
  cases hbuild : d.build with
  | ok r =>
    exact Or.inl ⟨(sound_ofDraft_iff h).mpr ⟨r, hbuild⟩, r, rfl, kept_of_build h hbuild⟩
  | error e =>
    refine Or.inr ⟨fun hsound => ?_, ?_⟩
    · obtain ⟨r, hr⟩ := (sound_ofDraft_iff h).mp hsound
      exact nomatch hr.symm.trans hbuild
    · obtain ⟨fault, rfl⟩ := faultsOnly_build d e hbuild
      exact ⟨fault, rfl⟩

-- The field that was registered last under the name of the primary key is the primary key.
example : ((Draft.ofChanges "parts"
    [.field (.ofType "id" .text), .primaryKey "id", .field (.ofType "id" .integer)]).build.map
      Registry.primaryKey) = .ok (some (.ofType "id" .integer)) := by rfl

end Terms

/-! ### Descriptions -/

namespace Outline

/-- The registry that a description asks for. -/
def registry (c : Outline) : Except QueryError Registry := do
  (← c.draft).build

/-- Whether each tag that the description of a field lists is one of an operator. -/
def KnownTags (f : Field.Outline) : Prop :=
  ∀ tags, f.operators = some tags → ∀ tag ∈ tags, ∃ op, Operator.ofTag? tag = some op

/-- Whether each tag that a description lists is one of an operator. -/
def Known (c : Outline) : Prop :=
  ∀ f ∈ c.fields, KnownTags f

/-- The field that a description of one stands for, leaving out tags of no operator. -/
def fieldOf (f : Field.Outline) : Field :=
  ⟨f.name, f.column.getD f.name, f.type,
   f.operators.elim f.type.operators (·.filterMap Operator.ofTag?), f.filterable, f.sortable,
   f.textSearch⟩

variable {resource : String} {f : Field.Outline} {c : Outline}

theorem readOperator_eq_ok_iff {field tag : String} {op : Operator} :
    readOperator resource field tag = .ok op ↔ Operator.ofTag? tag = some op := by
  rw [readOperator]
  cases Operator.ofTag? tag <;> simp

theorem mapM_readOperator {field : String} {tags : List String}
    (h : ∀ tag ∈ tags, ∃ op, Operator.ofTag? tag = some op) :
    tags.mapM (readOperator resource field) = .ok (tags.filterMap Operator.ofTag?) := by
  induction tags with
  | nil => rfl
  | cons tag tags ih =>
    obtain ⟨⟨op, hop⟩, htags⟩ := List.forall_mem_cons.mp h
    rw [List.filterMap_cons_some hop]
    exact mapM_cons_eq_ok_iff.mpr ⟨op, _, readOperator_eq_ok_iff.mpr hop, ih htags, rfl⟩

theorem readField_eq_ok (h : KnownTags f) : readField resource f = .ok (fieldOf f) := by
  unfold readField fieldOf
  cases hops : f.operators with
  | none => rfl
  | some tags =>
    dsimp only
    rw [mapM_readOperator (h tags hops)]
    rfl

theorem knownTags_of_readField {g : Field} (h : readField resource f = .ok g) : KnownTags f := by
  intro tags hops tag htag
  unfold readField at h
  rw [hops] at h
  obtain ⟨ops, hmap, -⟩ := bind_eq_ok_iff.mp h
  obtain ⟨op, hop⟩ := exists_of_mapM_of_mem hmap htag
  exact ⟨op, readOperator_eq_ok_iff.mp hop⟩

/-- The settings of a description whose tags are known. -/
theorem draft_eq_ok (h : c.Known) :
    c.draft = .ok ⟨c.name, c.table, c.primaryKey, Fields.insertAll [] (c.fields.map fieldOf), c.maxItems,
      c.defaultItems, c.defaultOrderBy, c.defaultDirection⟩ := by
  rw [draft, mapM_eq_ok_of_forall fun f hf => readField_eq_ok (h f hf)]
  rfl

theorem known_of_draft {d : Draft} (h : c.draft = .ok d) : c.Known := by
  intro f hf
  obtain ⟨fields, hmap, -⟩ := bind_eq_ok_iff.mp h
  obtain ⟨g, hg⟩ := exists_of_mapM_of_mem hmap hf
  exact knownTags_of_readField hg

theorem faultsOnly_readOperator (resource field tag : String) :
    FaultsOnly (readOperator resource field tag) := by
  rw [readOperator]
  split
  · exact .ok _
  · exact .config _

theorem faultsOnly_readField (resource : String) (f : Field.Outline) :
    FaultsOnly (readField resource f) := by
  unfold readField
  split
  · exact .bind (.mapM (faultsOnly_readOperator resource f.name) _) fun _ => .ok _
  · exact .ok _

theorem faultsOnly_draft (c : Outline) : FaultsOnly c.draft :=
  .bind (.mapM (faultsOnly_readField c.name) c.fields) fun _ => .ok _

end Outline

/-- The registry of a text is the one that it describes. -/
theorem ofToml_eq_registry {text : String} {c : Outline}
    (h : (Toml.read? text).bind Outline.ofEntries? = some c) : ofToml text = c.registry := by
  rw [ofToml, h]
  rfl

/-- A registry that a description asks for is a built one. -/
theorem Outline.built_of_registry {c : Outline} {r : Registry} (h : c.registry = .ok r) : r.Built := by
  obtain ⟨d, hdraft, hbuild⟩ := bind_eq_ok_iff.mp h
  exact ⟨d, distinct_draft hdraft, hbuild⟩

/-- A registry that is read from a text is a built one. -/
theorem built_of_ofToml {text : String} {r : Registry} (h : ofToml text = .ok r) : r.Built := by
  cases hread : (Toml.read? text).bind Outline.ofEntries? with
  | some c => exact Outline.built_of_registry ((ofToml_eq_registry hread).symm.trans h)
  | none =>
    rw [ofToml, hread] at h
    exact nomatch h

/-- What a description comes down to. -/
def Terms.ofOutline (c : Outline) : Terms where
  resource := c.name
  table := c.table.getD c.name
  primaryKey := c.primaryKey
  defaultOrderBy := c.defaultOrderBy
  defaultDirection := c.defaultDirection
  maxItems := c.maxItems
  defaultItems := c.defaultItems
  field? := Fields.last? (c.fields.map Outline.fieldOf)

namespace Outline

/-- The registry of a description whose tags are known is built from what the description comes down
to. -/
theorem decide_registry {c : Outline} (h : c.Known) : (Terms.ofOutline c).Decide c.registry := by
  rw [registry, draft_eq_ok h]
  have hdistinct := Fields.distinct_insertAll List.Pairwise.nil (c.fields.map fieldOf)
  have hterms : Terms.ofDraft ⟨c.name, c.table, c.primaryKey,
      Fields.insertAll [] (c.fields.map fieldOf), c.maxItems, c.defaultItems, c.defaultOrderBy,
      c.defaultDirection⟩ = Terms.ofOutline c := by
    rw [Terms.ofDraft, Terms.ofOutline, Fields.get?_insertAll_nil]
  exact hterms ▸ Terms.decide_build hdistinct

/-- A description with a tag of no operator is refused for that. -/
theorem exists_registry_eq_error {c : Outline} (h : ¬c.Known) :
    ∃ fault, c.registry = .error (.config fault) := by
  cases hdraft : c.draft with
  | ok d => exact absurd (known_of_draft hdraft) h
  | error e =>
    obtain ⟨fault, rfl⟩ := faultsOnly_draft c e hdraft
    refine ⟨fault, ?_⟩
    rw [registry, hdraft]
    rfl

end Outline

theorem Draft.distinct_ofChanges (resource : String) (changes : List Change) :
    (Draft.ofChanges resource changes).fields.Distinct := by
  rw [Draft.ofChanges, fields_foldl_change]
  exact Fields.distinct_insertAll List.Pairwise.nil _

/-- From changes to the settings of a resource, in any order and however often one comes again, a registry
is built exactly if what they come down to fits together; it gives just that, and is consistent.  The same
holds of a description whose tags are all known.  Everything else is a fault of the settings. -/
theorem built_from_settings :
    (∀ resource changes,
      (Terms.ofChanges resource changes).Decide (Draft.ofChanges resource changes).build)
    ∧ ∀ c : Outline,
        (c.Known ∧ (Terms.ofOutline c).Decide c.registry)
        ∨ (¬c.Known ∧ ∃ fault, c.registry = .error (.config fault)) := by
  constructor
  · intro resource changes
    rw [← Terms.ofDraft_ofChanges]
    exact Terms.decide_build (distinct_ofChanges resource changes)
  · intro c
    by_cases h : c.Known
    · exact Or.inl ⟨h, Outline.decide_registry h⟩
    · exact Or.inr ⟨h, Outline.exists_registry_eq_error h⟩

end Registry

end ListQuery
