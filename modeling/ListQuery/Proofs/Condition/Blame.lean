/-
What the errors of a filter point at.

A filter is refused for the first thing that is wrong with it, however deep that stands.  The error then
names what is there: a key that is no field for filters, a field with the operator under the very tag that
the filter gives it, a field with a range, or a combinator and how many conditions it holds.

* `Json.Encloses` — the objects of a filter in which its keys are fields and combinators;
* `Json.members_induction` — induction over these objects, from the innermost ones outwards;
* `Blames` — what an error points at in one of these objects;
* `error_of_read` — an operand is refused for its value, or for its range where it is one;
* `blames_of_read` — an error of a filter points at something in the filter.
-/
import ListQuery.Proofs.Condition.Nesting

namespace ListQuery

/-! ### Objects of a filter -/

namespace Json

/-- Whether an object with these members stands in a filter, and inside how many combinators. -/
inductive Encloses : Json → Nat → Members → Prop where
  | here (members : Members) : Encloses (.object members) 0 members
  | under {kind : Combinator} {value inner : Json} {outer members : Members} {n : Nat}
      (hmem : (kind.key, value) ∈ outer) (hheld : value.Holds inner) (h : Encloses inner n members) :
      Encloses (.object outer) (n + 1) members

/-- What holds of an object if it holds of the ones that its combinators hold is true of all. -/
theorem members_induction {P : Members → Prop}
    (step : ∀ ms, (∀ (kind : Combinator) (value : Json) (inner : Members), (kind.key, value) ∈ ms →
      value.Holds (.object inner) → P inner) → P ms) (ms : Members) : P ms := by
  -- An object has more levels than those that its combinators hold.
  suffices hlevels : ∀ n ms, Condition.levels (.object ms) ≤ n → P ms from hlevels _ ms (Nat.le_refl _)
  intro n
  induction n with
  | zero =>
    intro ms h
    rw [Condition.levels] at h
    omega
  | succ n ih =>
    intro ms h
    refine step ms fun kind value inner hmem hheld => ih inner ?_
    have hinner := Condition.levels_le_of_holds hheld
    have hbelow := Condition.levels_le_levelsBelow hmem
    rw [Condition.levels] at h
    omega

end Json

/-! ### Operands -/

namespace Field

variable {f : Field} {tag : String} {operand : Json} {e : QueryError}

theorem error_of_readValue (h : f.readValue tag operand = .error e) :
    ∃ fault, e = .value f.name tag fault := by
  rw [readValue] at h
  split at h
  · exact ⟨_, (Except.error.inj h).symm⟩
  · split at h
    · simp at h
    · exact ⟨_, (Except.error.inj h).symm⟩

theorem error_of_readPresent (h : f.readPresent tag operand = .error e) :
    ∃ fault, e = .value f.name tag fault := by
  rcases bind_eq_error_iff.mp h with h | ⟨v, -, h⟩
  · exact error_of_readValue h
  · split at h
    · exact ⟨_, (Except.error.inj h).symm⟩
    · simp at h

theorem error_of_readCompared {op : Comparison} (h : f.readCompared tag op operand = .error e) :
    ∃ fault, e = .value f.name tag fault := by
  rw [readCompared] at h
  split at h
  · exact error_of_readValue h
  · exact error_of_readPresent h

theorem error_of_readPattern (h : f.readPattern tag operand = .error e) :
    ∃ fault, e = .value f.name tag fault := by
  rcases bind_eq_error_iff.mp h with h | ⟨v, -, h⟩
  · exact error_of_readPresent h
  · split at h
    · split at h
      · exact ⟨_, (Except.error.inj h).symm⟩
      · simp at h
    · exact ⟨_, (Except.error.inj h).symm⟩

theorem error_of_readChoices (h : f.readChoices tag operand = .error e) :
    ∃ fault, e = .value f.name tag fault := by
  rw [readChoices.eq_def] at h
  split at h
  · exact ⟨_, (Except.error.inj h).symm⟩
  · obtain ⟨item, -, hitem⟩ := exists_of_mapM_eq_error h
    exact error_of_readPresent hitem
  · exact ⟨_, (Except.error.inj h).symm⟩

/-- Bounds that are given one by one are reported as values, and everything else as a range. -/
theorem error_of_readForms {members : Json.Members} (h : f.readForms tag members = .error e) :
    (∃ fault, e = .value f.name tag fault) ∨ ∃ fault, e = .range f.name fault := by
  rw [readForms] at h
  split at h
  · exact Or.inr ⟨_, (Except.error.inj h).symm⟩
  · exact Or.inr (error_of_readInterval h)
  · rcases bind_eq_error_iff.mp h with h | ⟨lower, -, h⟩
    · exact Or.inl (error_of_readPresent h)
    · rcases bind_eq_error_iff.mp h with h | ⟨upper, -, h⟩
      · exact Or.inl (error_of_readPresent h)
      · simp [pure, Except.pure] at h
  · exact Or.inr ⟨_, (Except.error.inj h).symm⟩
  · exact Or.inr ⟨_, (Except.error.inj h).symm⟩

theorem error_of_readRange (h : f.readRange tag operand = .error e) :
    (∃ fault, e = .value f.name tag fault) ∨ ∃ fault, e = .range f.name fault := by
  rw [readRange.eq_def] at h
  split at h
  · split at h
    · exact Or.inr ⟨_, (Except.error.inj h).symm⟩
    · rcases bind_eq_error_iff.mp h with h | ⟨i, -, h⟩
      · exact error_of_readForms h
      · split at h
        · exact Or.inr ⟨_, (Except.error.inj h).symm⟩
        · simp [pure, Except.pure] at h
  · exact Or.inr ⟨_, (Except.error.inj h).symm⟩

/-- A test that is refused is refused for its value, or for its range where it is one. -/
theorem error_of_read {op : Operator} (h : Test.read f tag op operand = .error e) :
    (∃ fault, e = .value f.name tag fault) ∨ op = .range ∧ ∃ fault, e = .range f.name fault := by
  cases op with
  | comparison op => exact Or.inl (error_of_readCompared (map_eq_error_iff.mp h))
  | pattern kind => exact Or.inl (error_of_readPattern (map_eq_error_iff.mp h))
  | oneOf => exact Or.inl (error_of_readChoices (map_eq_error_iff.mp h))
  | range => exact (error_of_readRange (map_eq_error_iff.mp h)).imp id fun hrange => ⟨rfl, hrange⟩

end Field

theorem Registry.filterField_eq_error {r : Registry} {name : String} {e : QueryError}
    (h : r.filterField name = .error e) : r.filterable? name = none ∧ ∃ fault, e = .field name fault := by
  refine ⟨?_, ?_⟩
  · cases hf : r.filterable? name with
    | none => rfl
    | some f =>
      rw [filterField_eq_ok_iff.mpr hf] at h
      simp at h
  · rw [filterField] at h
    split at h
    · exact ⟨_, (Except.error.inj h).symm⟩
    · split at h
      · simp at h
      · exact ⟨_, (Except.error.inj h).symm⟩

namespace Condition

variable {r : Registry} {depth : Nat} {ms : Json.Members} {e : QueryError}

/-- Whether an object of a filter asks about a field that filters may use, with these operators. -/
structure Asks (r : Registry) (ms : Json.Members) (name : String) (f : Field)
    (operations : Json.Members) : Prop where
  key : Combinator.ofKey? name = none
  field : r.filterable? name = some f
  member : (name, .object operations) ∈ ms

/-- What an error points at in an object of a filter, which is read at a depth. -/
inductive Blames (r : Registry) (depth : Nat) (ms : Json.Members) : QueryError → Prop where
  /-- A key in the place of a field, which filters may not use. -/
  | field {name : String} {value : Json} {fault : FieldFault} (key : Combinator.ofKey? name = none)
      (member : (name, value) ∈ ms) (unusable : r.filterable? name = none) :
      Blames r depth ms (.field name fault)
  /-- The tag of an operator, as it is written for a field. -/
  | operator {name tag : String} {f : Field} {operations : Json.Members} {operand : Json}
      {fault : OperatorFault} (asks : Asks r ms name f operations)
      (member : (tag, operand) ∈ operations) : Blames r depth ms (.operator name tag fault)
  /-- The value under a tag, as it is written for a field. -/
  | value {name tag : String} {f : Field} {operations : Json.Members} {operand : Json}
      {fault : ValueFault} (asks : Asks r ms name f operations)
      (member : (tag, operand) ∈ operations) : Blames r depth ms (.value name tag fault)
  /-- A range on a field that allows ranges. -/
  | range {name tag : String} {f : Field} {operations : Json.Members} {operand : Json}
      {negated : Bool} {fault : RangeFault} (asks : Asks r ms name f operations)
      (member : (tag, operand) ∈ operations)
      (resolves : Operator.resolve? tag = some (.range, negated)) (allows : f.allows .range = true) :
      Blames r depth ms (.range name fault)
  /-- A combinator under which there are fewer conditions than it needs. -/
  | arity {kind : Combinator} {value : Json} {children : List Condition}
      (member : (kind.key, value) ∈ ms) (read : readGroup r depth kind value = .ok children)
      (few : children.length < kind.minChildren) :
      Blames r depth ms (.arity kind.key kind.minChildren children.length)
  /-- A field whose value is no object of operators. -/
  | fieldOperand {name : String} {f : Field} {value : Json} (key : Combinator.ofKey? name = none)
      (usable : r.filterable? name = some f) (member : (name, value) ∈ ms)
      (shape : ∀ operations, value ≠ .object operations) :
      Blames r depth ms (.filter (.fieldOperand name))
  /-- A field without an operator. -/
  | noOperator {name : String} {f : Field} (asks : Asks r ms name f []) :
      Blames r depth ms (.filter (.noOperator name))
  /-- A combinator whose value is neither a filter nor a list. -/
  | groupOperand {kind : Combinator} {value : Json} (member : (kind.key, value) ∈ ms)
      (noObject : ∀ members, value ≠ .object members) (noArray : ∀ items, value ≠ .array items) :
      Blames r depth ms (.filter (.groupOperand kind))
  /-- An entry of a combinator's list that is no filter. -/
  | groupEntry {kind : Combinator} {items : List Json} {entry : Json}
      (member : (kind.key, .array items) ∈ ms) (listed : entry ∈ items)
      (shape : ∀ members, entry ≠ .object members) : Blames r depth ms (.filter (.groupEntry kind))
  /-- An entry of a combinator's list that asks for nothing. -/
  | emptyEntry {kind : Combinator} {items : List Json} (joins : kind ≠ .not)
      (member : (kind.key, .array items) ∈ ms) (listed : .object [] ∈ items) :
      Blames r depth ms (.filter (.emptyEntry kind))
  /-- A filter in a combinator where no more filters may stand in each other. -/
  | tooDeep {kind : Combinator} {value inner : Json} (member : (kind.key, value) ∈ ms)
      (held : value.Holds inner) (deepest : maxDepth ≤ depth) :
      Blames r depth ms (.filter (.tooDeep maxDepth))

/-! ### Fields -/

theorem blames_of_readOperation {name tag : String} {f : Field} {operations : Json.Members}
    {operand : Json} (hasks : Asks r ms name f operations) (hmem : (tag, operand) ∈ operations)
    (h : readOperation f tag operand = .error e) : Blames r depth ms e := by
  obtain rfl := Registry.name_of_filterable? hasks.field
  rw [readOperation] at h
  split at h
  · obtain rfl := Except.error.inj h
    exact .operator hasks hmem
  · rename_i op negated hresolve
    split at h
    · rename_i hallows
      rcases bind_eq_error_iff.mp h with h | ⟨t, -, h⟩
      · rcases Field.error_of_read h with ⟨fault, rfl⟩ | ⟨rfl, fault, rfl⟩
        · exact .value hasks hmem
        · exact .range hasks hmem hresolve hallows
      · simp [pure, Except.pure] at h
    · obtain rfl := Except.error.inj h
      exact .operator hasks hmem

theorem blames_of_readField {name : String} {value : Json} (hkey : Combinator.ofKey? name = none)
    (hmem : (name, value) ∈ ms) (h : readField r name value = .error e) : Blames r depth ms e := by
  rcases bind_eq_error_iff.mp h with h | ⟨f, hf, h⟩
  · obtain ⟨hunusable, fault, rfl⟩ := Registry.filterField_eq_error h
    exact .field hkey hmem hunusable
  · have husable := Registry.filterField_eq_ok_iff.mp hf
    split at h
    · obtain rfl := Except.error.inj h
      exact .noOperator ⟨hkey, husable, hmem⟩
    · obtain ⟨⟨tag, operand⟩, htag, hread⟩ := exists_of_mapM_eq_error h
      exact blames_of_readOperation ⟨hkey, husable, hmem⟩ htag hread
    · rename_i hshape
      obtain rfl := Except.error.inj h
      exact .fieldOperand hkey husable hmem fun operations heq => hshape operations heq

/-! ### Combinators -/

variable {kind : Combinator} {value : Json}

theorem blames_of_join {children : List Condition} (hmem : (kind.key, value) ∈ ms)
    (hread : readGroup r depth kind value = .ok children) (h : join kind children = .error e) :
    Blames r depth ms e := by
  rcases bind_eq_error_iff.mp h with h | ⟨⟨⟩, -, h⟩
  · rw [checkArity] at h
    split at h
    · rename_i hfew
      obtain rfl := Except.error.inj h
      exact .arity hmem hread hfew
    · simp at h
  · simp [pure, Except.pure] at h

theorem blames_of_checkDepth {inner : Json} (hmem : (kind.key, value) ∈ ms) (hheld : value.Holds inner)
    (h : checkDepth (depth + 1) = .error e) : Blames r depth ms e := by
  rw [checkDepth] at h
  split at h
  · simp at h
  · rename_i hdeep
    obtain rfl := Except.error.inj h
    exact .tooDeep hmem hheld (by omega)

theorem ne_nil_of_readMember {key : String} {cs : List Condition}
    (h : readMember r depth key value = .ok cs) : cs ≠ [] := by
  rintro rfl
  rw [readMember] at h
  split at h
  · obtain ⟨children, -, h⟩ := bind_eq_ok_iff.mp h
    obtain ⟨c, -, h⟩ := bind_eq_ok_iff.mp h
    simp [pure, Except.pure] at h
  · obtain ⟨f, -, hoperations⟩ := bind_eq_ok_iff.mp h
    split at hoperations
    · simp at hoperations
    · rename_i hne
      exact hne (List.length_eq_zero_iff.mp (length_of_mapM hoperations).symm)
    · simp at hoperations

/-- Only an object without members asks for nothing. -/
theorem eq_nil_of_readMembers (h : readMembers r depth ms = .ok []) : ms = [] := by
  cases ms with
  | nil => rfl
  | cons m rest =>
    rw [readMembers_cons] at h
    obtain ⟨here, hhere, h⟩ := bind_eq_ok_iff.mp h
    obtain ⟨others, -, h⟩ := bind_eq_ok_iff.mp h
    have hnil := (List.append_eq_nil_iff.mp (pure_eq_ok_iff.mp h)).1
    exact absurd hnil (ne_nil_of_readMember hhere)

theorem blames_of_entryChildren {items : List Json} {inner : Json.Members} {conditions : List Condition}
    (hmem : (kind.key, .array items) ∈ ms) (hlisted : .object inner ∈ items)
    (hread : readMembers r (depth + 1) inner = .ok conditions)
    (h : entryChildren kind conditions = .error e) : Blames r depth ms e := by
  rw [entryChildren.eq_def] at h
  split at h
  · simp at h
  · rename_i hjoins
    split at h
    · simp at h
    · rename_i hnone
      obtain rfl := Except.error.inj h
      obtain rfl := (all_eq_none_iff (every_true_of_readMembers hread)).mp hnone
      obtain rfl := eq_nil_of_readMembers hread
      exact .emptyEntry hjoins hmem hlisted

/-- An entry of a list is refused for what stands in it, or the error points at the list. -/
theorem blames_of_readEntries {items : List Json} (hmem : (kind.key, .array items) ∈ ms) {rest : List Json}
    (hrest : ∀ v ∈ rest, v ∈ items) (h : readEntries r depth kind rest = .error e) :
    Blames r depth ms e
      ∨ ∃ inner, .object inner ∈ items ∧ readMembers r (depth + 1) inner = .error e := by
  induction rest with
  | nil => simp [readEntries] at h
  | cons v rest ih =>
    obtain ⟨hv, hrest⟩ := List.forall_mem_cons.mp hrest
    rw [readEntries_cons] at h
    rcases bind_eq_error_iff.mp h with h | ⟨here, -, h⟩
    · cases v with
      | object inner =>
        rcases bind_eq_error_iff.mp h with h | ⟨⟨⟩, -, h⟩
        · exact Or.inl (blames_of_checkDepth hmem (.listed hv) h)
        · rcases bind_eq_error_iff.mp h with h | ⟨conditions, hconditions, h⟩
          · exact Or.inr ⟨inner, hv, h⟩
          · exact Or.inl (blames_of_entryChildren hmem hv hconditions h)
      | null | bool | integer | float | string | array =>
        obtain rfl := Except.error.inj h
        exact Or.inl (.groupEntry hmem hv (by simp))
    · rcases bind_eq_error_iff.mp h with h | ⟨others, -, h⟩
      · exact ih hrest h
      · simp [pure, Except.pure] at h

/-- A combinator's value is refused for an object that it holds, or the error points at the combinator. -/
theorem blames_of_readGroup (hmem : (kind.key, value) ∈ ms)
    (h : readGroup r depth kind value = .error e) :
    Blames r depth ms e
      ∨ ∃ inner, value.Holds (.object inner) ∧ readMembers r (depth + 1) inner = .error e := by
  cases value with
  | array items =>
    refine (blames_of_readEntries hmem (fun v hv => hv) h).imp id ?_
    rintro ⟨inner, hlisted, hread⟩
    exact ⟨inner, .listed hlisted, hread⟩
  | object inner =>
    rcases bind_eq_error_iff.mp h with h | ⟨⟨⟩, -, h⟩
    · exact Or.inl (blames_of_checkDepth hmem (.alone inner) h)
    · exact Or.inr ⟨inner, .alone inner, h⟩
  | null | bool | integer | float | string =>
    obtain rfl := Except.error.inj h
    exact Or.inl (.groupOperand hmem (by simp) (by simp))

/-! ### Objects in each other -/

theorem exists_of_readMembers_eq_error (h : readMembers r depth ms = .error e) :
    ∃ key value, (key, value) ∈ ms ∧ readMember r depth key value = .error e := by
  induction ms with
  | nil => simp [readMembers] at h
  | cons m rest ih =>
    obtain ⟨key, value⟩ := m
    rw [readMembers_cons] at h
    rcases bind_eq_error_iff.mp h with h | ⟨here, -, h⟩
    · exact ⟨key, value, List.mem_cons_self, h⟩
    · rcases bind_eq_error_iff.mp h with h | ⟨others, -, h⟩
      · obtain ⟨key', value', hmem, hread⟩ := ih h
        exact ⟨key', value', List.mem_cons_of_mem _ hmem, hread⟩
      · simp [pure, Except.pure] at h

/-- An error about the members of an object points at something in the object or in one that stands in
it. -/
theorem blames_of_readMembers (h : readMembers r depth ms = .error e) :
    ∃ n inner, (Json.object ms).Encloses n inner ∧ Blames r (depth + n) inner e := by
  induction ms using Json.members_induction generalizing depth with
  | step ms ih =>
    obtain ⟨key, value, hmem, hread⟩ := exists_of_readMembers_eq_error h
    rw [readMember] at hread
    split at hread
    · rename_i kind hkey
      obtain rfl := Combinator.key_of_ofKey? hkey
      rcases bind_eq_error_iff.mp hread with hgroup | ⟨children, hchildren, hread⟩
      · rcases blames_of_readGroup hmem hgroup with hblames | ⟨inner, hheld, hinner⟩
        · exact ⟨0, ms, .here ms, hblames⟩
        · obtain ⟨n, found, hencloses, hblames⟩ := ih kind value inner hmem hheld hinner
          rw [Nat.add_right_comm, Nat.add_assoc] at hblames
          exact ⟨n + 1, found, .under hmem hheld hencloses, hblames⟩
      · rcases bind_eq_error_iff.mp hread with hjoin | ⟨c, -, hread⟩
        · exact ⟨0, ms, .here ms, blames_of_join hmem hchildren hjoin⟩
        · simp [pure, Except.pure] at hread
    · rename_i hkey
      exact ⟨0, ms, .here ms, blames_of_readField hkey hmem hread⟩

/-! ### Filters -/

theorem Blames.isClientError (h : Blames r depth ms e) : e.isClientError = true := by
  cases h <;> rfl

/-- An error of a filter is the client's, and it points at something in one of the objects of the filter,
unless there is no object or nothing in it. -/
theorem blames_of_read {raw : Json} (h : read r raw = .error e) :
    e.isClientError = true
      ∧ ((e = .filter .notAMap ∧ ∀ members, raw ≠ .object members)
        ∨ (e = .filter .empty ∧ raw = .object [])
        ∨ ∃ n inner, raw.Encloses n inner ∧ Blames r (n + 1) inner e) := by
  rw [read.eq_def] at h
  split at h
  · rename_i members
    rcases bind_eq_error_iff.mp h with h | ⟨cs, hcs, h⟩
    · obtain ⟨n, inner, hencloses, hblames⟩ := blames_of_readMembers h
      rw [Nat.add_comm] at hblames
      exact ⟨hblames.isClientError, Or.inr (Or.inr ⟨n, inner, hencloses, hblames⟩)⟩
    · split at h
      · simp [pure, Except.pure] at h
      · rename_i hnone
        obtain rfl := Except.error.inj h
        obtain rfl := (all_eq_none_iff (every_true_of_readMembers hcs)).mp hnone
        obtain rfl := eq_nil_of_readMembers hcs
        exact ⟨rfl, Or.inr (Or.inl ⟨rfl, rfl⟩)⟩
  · rename_i hshape
    obtain rfl := Except.error.inj h
    exact ⟨rfl, Or.inl ⟨rfl, fun members heq => hshape members heq⟩⟩

/-- A list that is excluded inside two combinators, where a single value belongs. -/
theorem blames_of_read_parts :
    let low : Json := .object [("id", .object [("lt", .integer 3)])]
    let excluded : Json := .object [("kind", .object [("not_in", .array [.array []])])]
    let raw : Json := .object [("or", .array [low, .object [("not", excluded)]])]
    let e : QueryError := .value "kind" "not_in" (.misfit .list)
    read .parts raw = .error e ∧ e.isClientError = true
      ∧ ∃ n inner, raw.Encloses n inner ∧ Blames .parts (n + 1) inner e := by
  intro low excluded raw e
  have hread : read .parts raw = .error e := rfl
  obtain ⟨hclient, ⟨he, -⟩ | ⟨he, -⟩ | hblames⟩ := blames_of_read hread
  · exact QueryError.noConfusion he
  · exact QueryError.noConfusion he
  · exact ⟨hread, hclient, hblames⟩

end Condition

end ListQuery
