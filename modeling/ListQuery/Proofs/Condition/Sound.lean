/-
What every condition keeps that a registry has let through.

A condition is sound for a registry when each leaf tests a filterable field with an operator that the
field allows and an operand that suits it, and each group has children enough.

* `Condition.Every` — a property of all leaves, with groups of children enough;
* `all_eq_none_iff` — a conjunction is missing only where nothing is joined;
* `Condition.Sound` — soundness for a registry;
* `sound_of_read`, `sound_of_equalityCondition`, `sound_of_textCondition`, `every_of_all` — conditions
  that are read from filters, asked for by equalities or texts, or joined from sound ones are sound.
-/
import ListQuery.Condition.Reader
import ListQuery.Proofs.Condition.Operand
import ListQuery.Proofs.Registry.Built
import ListQuery.Request.Shortcuts

namespace ListQuery

namespace Condition

/-- A condition whose leaves are all as `P` asks, and whose groups have children enough. -/
inductive Every (P : String → Test → Prop) : Condition → Prop where
  | leaf {field : String} {test : Test} (h : P field test) : Every P (.leaf field test)
  | group {kind : Combinator} {children : List Condition}
      (arity : kind.minChildren ≤ children.length) (h : ∀ c ∈ children, Every P c) :
      Every P (.group kind children)

variable {P : String → Test → Prop}

theorem Every.mono {Q : String → Test → Prop} (hPQ : ∀ field test, P field test → Q field test)
    {c : Condition} (h : c.Every P) : c.Every Q := by
  induction h with
  | leaf h => exact .leaf (hPQ _ _ h)
  | group arity _ ih => exact .group arity ih

/-- The children of a group do not depend on its being a conjunction. -/
theorem every_of_mem_conjuncts {c d : Condition} (h : c.Every P) (hd : d ∈ c.conjuncts) :
    d.Every P := by
  rw [conjuncts.eq_def] at hd
  split at hd
  · cases h with
    | group _ h => exact h d hd
  · rwa [List.mem_singleton.mp hd]

/-- A conjunction that is let through has children, so there are conjuncts of every condition. -/
theorem conjuncts_length_pos {c : Condition} (h : c.Every P) : 1 ≤ c.conjuncts.length := by
  cases h with
  | leaf h => exact Nat.le_refl 1
  | @group kind children arity h =>
    cases kind with
    | and => exact Nat.le_trans (by decide) arity
    | or => exact Nat.le_refl 1
    | not => exact Nat.le_refl 1

theorem minChildren_le (kind : Combinator) : kind.minChildren ≤ 2 := by
  cases kind <;> decide

theorem collapse_of_two_le {kind : Combinator} {cs : List Condition} (h : 2 ≤ cs.length) :
    collapse kind cs = some (group kind cs) := by
  rcases cs with _ | ⟨c, _ | ⟨d, rest⟩⟩
  · simp at h
  · simp at h
  · rfl

/-- Two conditions or more have a conjunct each, so their conjunction is a group. -/
theorem all_of_two {c d : Condition} {rest : List Condition}
    (h : ∀ e ∈ c :: d :: rest, e.Every P) :
    all (c :: d :: rest) = some (group .and ((c :: d :: rest).flatMap conjuncts)) := by
  have hc := conjuncts_length_pos (h c List.mem_cons_self)
  have hd := conjuncts_length_pos (h d (List.mem_cons_of_mem _ List.mem_cons_self))
  refine collapse_of_two_le ?_
  simp only [List.flatMap_cons, List.length_append]
  omega

theorem collapse_eq_none_iff {kind : Combinator} {cs : List Condition} :
    collapse kind cs = none ↔ cs = [] := by
  rcases cs with _ | ⟨c, _ | ⟨d, rest⟩⟩ <;> simp [collapse]

/-- A conjunction is missing only where nothing is joined, for a conjunction without children is no
condition that is let through. -/
theorem all_eq_none_iff {cs : List Condition}
    (h : ∀ c ∈ cs, c.Every P) : all cs = none ↔ cs = [] := by
  rw [all, collapse_eq_none_iff]
  constructor
  · intro hnil
    cases cs with
    | nil => rfl
    | cons c cs =>
      have hc : c.conjuncts = [] := by
        rw [List.flatMap_cons, List.append_eq_nil_iff] at hnil
        exact hnil.1
      have hpos := conjuncts_length_pos (h c List.mem_cons_self)
      rw [hc] at hpos
      exact absurd hpos (by decide)
  · rintro rfl
    rfl

theorem every_of_collapse {kind : Combinator} {cs : List Condition} {c : Condition}
    (h : ∀ d ∈ cs, d.Every P) (hc : collapse kind cs = some c) : c.Every P := by
  rcases cs with _ | ⟨d, _ | ⟨e, rest⟩⟩
  · simp [collapse] at hc
  · obtain rfl := Option.some.inj hc
    exact h _ List.mem_cons_self
  · obtain rfl := Option.some.inj hc
    exact .group (Nat.le_trans (minChildren_le kind) (Nat.le_add_left 2 rest.length)) h

theorem every_of_all {cs : List Condition} {c : Condition} (h : ∀ d ∈ cs, d.Every P)
    (hc : all cs = some c) : c.Every P := by
  refine every_of_collapse (fun d hd => ?_) hc
  obtain ⟨e, he, hd⟩ := List.mem_flatMap.mp hd
  exact every_of_mem_conjuncts (h e he) hd

theorem every_of_any {cs : List Condition} {c : Condition} (h : ∀ d ∈ cs, d.Every P)
    (hc : any cs = some c) : c.Every P :=
  every_of_collapse h hc

theorem every_of_join {kind : Combinator} {cs : List Condition} {c : Condition}
    (h : ∀ d ∈ cs, d.Every P) (hc : join kind cs = .ok c) : c.Every P := by
  obtain ⟨⟨⟩, harity, hc⟩ := bind_eq_ok_iff.mp hc
  obtain rfl := pure_eq_ok_iff.mp hc
  refine .group ?_ h
  rw [checkArity] at harity
  split at harity
  · simp at harity
  · omega

theorem every_negate {c : Condition} (h : c.Every P) : c.negate.Every P :=
  .group (Nat.le_refl 1) fun d hd => by rwa [List.mem_singleton.mp hd]

/-! ### Conditions that are read -/

/-- The conditions of one member of an object at a depth. -/
def readMember (r : Registry) (depth : Nat) (key : String) (value : Json) :
    Except QueryError (List Condition) :=
  match Combinator.ofKey? key with
  | some kind => do
    let children ← readGroup r depth kind value
    let c ← join kind children
    return [c]
  | none => readField r key value

theorem readMembers_cons (r : Registry) (depth : Nat) (key : String) (value : Json)
    (rest : List (String × Json)) :
    readMembers r depth ((key, value) :: rest) = do
      let here ← readMember r depth key value
      let others ← readMembers r depth rest
      return here ++ others := by
  rw [readMembers, readMember]
  cases Combinator.ofKey? key with
  | some kind =>
    simp only [bind_assoc, pure_bind]
  | none => rfl

/-- The children that one entry of a group's list gives. -/
def readEntry (r : Registry) (depth : Nat) (kind : Combinator) :
    Json → Except QueryError (List Condition)
  | .object members => do
    checkDepth (depth + 1)
    let conditions ← readMembers r (depth + 1) members
    entryChildren kind conditions
  | _ => .error (.filter (.groupEntry kind))

theorem readEntries_cons (r : Registry) (depth : Nat) (kind : Combinator) (v : Json)
    (rest : List Json) :
    readEntries r depth kind (v :: rest)
      = do return (← readEntry r depth kind v) ++ (← readEntries r depth kind rest) := by
  cases v with
  | object members => simp only [readEntries, readEntry, bind_assoc]
  | null | bool | integer | float | string | array => rfl

/-- Whether `P` holds of every test that is read for a field of the registry from an operand of which
`W` holds. -/
def Admits (W : Json → Prop) (P : String → Test → Prop) (r : Registry) : Prop :=
  ∀ (name : String) (f : Field) (tag : String) (op : Operator) (operand : Json) (t : Test),
    Combinator.ofKey? name = none → r.filterable? name = some f → f.allows op = true →
    W operand → Test.read f tag op operand = .ok t → P name t

variable {r : Registry} {W : Json → Prop}

theorem readOperation_of_resolve? (f : Field) (operand : Json) {tag : String} {op : Operator}
    {negated : Bool} (h : Operator.resolve? tag = some (op, negated)) :
    readOperation f tag operand
      = if f.allows op then
          (Test.read f tag op operand).map fun t =>
            if negated then (leaf f.name t).negate else leaf f.name t
        else .error (.operator f.name tag (.notPermitted f.type)) := by
  rw [readOperation, h]
  simp only
  cases f.allows op with
  | false => rfl
  | true => cases Test.read f tag op operand <;> rfl

theorem every_of_readOperation (hP : Admits W P r) {name tag : String} {f : Field} {operand : Json}
    {c : Condition} (hkey : Combinator.ofKey? name = none) (hf : r.filterable? name = some f)
    (hw : W operand) (h : readOperation f tag operand = .ok c) : c.Every P := by
  rw [readOperation] at h
  split at h
  · simp at h
  · rename_i op negated _
    split at h
    · rename_i hallows
      obtain ⟨t, ht, h⟩ := bind_eq_ok_iff.mp h
      obtain rfl := pure_eq_ok_iff.mp h
      have hleaf : (leaf f.name t).Every P := by
        rw [Registry.name_of_filterable? hf]
        exact .leaf (hP _ _ _ _ _ _ hkey hf hallows hw ht)
      cases negated with
      | false => exact hleaf
      | true => exact every_negate hleaf
    · simp at h

theorem every_of_readField (hW : Json.Inherited W) (hP : Admits W P r) {name : String}
    {operations : Json} {cs : List Condition} (hkey : Combinator.ofKey? name = none)
    (hw : W operations) (h : readField r name operations = .ok cs) : ∀ c ∈ cs, c.Every P := by
  obtain ⟨f, hf, h⟩ := bind_eq_ok_iff.mp h
  split at h
  · simp at h
  · intro c hc
    obtain ⟨⟨tag, operand⟩, hmem, hread⟩ := exists_of_mem_mapM h hc
    have hoperand : W operand := hW.member hw _ hmem
    exact every_of_readOperation hP hkey (Registry.filterField_eq_ok_iff.mp hf) hoperand hread
  · simp at h

mutual

theorem every_of_readMembers (hW : Json.Inherited W) (hP : Admits W P r) {depth : Nat} :
    ∀ {ms : List (String × Json)} {cs : List Condition}, (∀ m ∈ ms, W m.2) →
      readMembers r depth ms = .ok cs → ∀ c ∈ cs, c.Every P
  | [], cs, _, h => by
    obtain rfl := Except.ok.inj h
    exact fun c hc => absurd hc List.not_mem_nil
  | (key, value) :: rest, cs, hw, h => by
    obtain ⟨hvalue, hrest⟩ := List.forall_mem_cons.mp hw
    rw [readMembers_cons] at h
    obtain ⟨here, hhere, h⟩ := bind_eq_ok_iff.mp h
    obtain ⟨others, hothers, h⟩ := bind_eq_ok_iff.mp h
    obtain rfl := pure_eq_ok_iff.mp h
    -- A member is a group or a field, by its key alone.
    have hfirst : ∀ c ∈ here, c.Every P := by
      rw [readMember] at hhere
      split at hhere
      · obtain ⟨children, hchildren, hhere⟩ := bind_eq_ok_iff.mp hhere
        obtain ⟨c, hc, hhere⟩ := bind_eq_ok_iff.mp hhere
        obtain rfl := pure_eq_ok_iff.mp hhere
        intro d hd
        rw [List.mem_singleton.mp hd]
        exact every_of_join (every_of_readGroup hW hP hvalue hchildren) hc
      · rename_i hkey
        exact every_of_readField hW hP hkey hvalue hhere
    intro c hc
    rcases List.mem_append.mp hc with hc | hc
    · exact hfirst c hc
    · exact every_of_readMembers hW hP hrest hothers c hc

theorem every_of_readGroup (hW : Json.Inherited W) (hP : Admits W P r) {depth : Nat}
    {kind : Combinator} : ∀ {v : Json} {cs : List Condition}, W v →
      readGroup r depth kind v = .ok cs → ∀ c ∈ cs, c.Every P
  | .array items, cs, hw, h => every_of_readEntries hW hP (hW.item hw) h
  | .object members, cs, hw, h => by
    obtain ⟨⟨⟩, -, h⟩ := bind_eq_ok_iff.mp h
    exact every_of_readMembers hW hP (hW.member hw) h
  | .null, cs, _, h | .bool _, cs, _, h | .integer _, cs, _, h | .float _, cs, _, h
  | .string _, cs, _, h => by simp [readGroup] at h

theorem every_of_readEntries (hW : Json.Inherited W) (hP : Admits W P r) {depth : Nat}
    {kind : Combinator} : ∀ {items : List Json} {cs : List Condition}, (∀ v ∈ items, W v) →
      readEntries r depth kind items = .ok cs → ∀ c ∈ cs, c.Every P
  | [], cs, _, h => by
    obtain rfl := Except.ok.inj h
    exact fun c hc => absurd hc List.not_mem_nil
  | .object members :: rest, cs, hw, h => by
    obtain ⟨hmembers, hrest⟩ := List.forall_mem_cons.mp hw
    rw [readEntries] at h
    obtain ⟨⟨⟩, -, h⟩ := bind_eq_ok_iff.mp h
    obtain ⟨conditions, hconditions, h⟩ := bind_eq_ok_iff.mp h
    obtain ⟨here, hhere, h⟩ := bind_eq_ok_iff.mp h
    obtain ⟨others, hothers, h⟩ := bind_eq_ok_iff.mp h
    obtain rfl := pure_eq_ok_iff.mp h
    have hread := every_of_readMembers hW hP (hW.member hmembers) hconditions
    -- What an entry holds is taken over as it is, or joined into one conjunction first.
    have hfirst : ∀ c ∈ here, c.Every P := by
      rw [entryChildren.eq_def] at hhere
      split at hhere
      · obtain rfl := Except.ok.inj hhere
        exact hread
      · split at hhere
        · rename_i c hc
          obtain rfl := Except.ok.inj hhere
          intro d hd
          rw [List.mem_singleton.mp hd]
          exact every_of_all hread hc
        · simp at hhere
    intro c hc
    rcases List.mem_append.mp hc with hc | hc
    · exact hfirst c hc
    · exact every_of_readEntries hW hP hrest hothers c hc
  | .null :: _, cs, _, h | .bool _ :: _, cs, _, h | .integer _ :: _, cs, _, h
  | .float _ :: _, cs, _, h | .string _ :: _, cs, _, h | .array _ :: _, cs, _, h => by
    simp [readEntries] at h

end

theorem every_true_of_readMembers {depth : Nat} {ms : List (String × Json)} {cs : List Condition}
    (h : readMembers r depth ms = .ok cs) : ∀ c ∈ cs, c.Every fun _ _ => True :=
  every_of_readMembers Json.inherited_true (fun _ _ _ _ _ _ _ _ _ _ _ => trivial)
    (fun _ _ => trivial) h

theorem every_of_read (hW : Json.Inherited W) (hP : Admits W P r) {raw : Json} {c : Condition}
    (hw : W raw) (h : read r raw = .ok c) : c.Every P := by
  rw [read.eq_def] at h
  split at h
  · rename_i members
    obtain ⟨cs, hcs, h⟩ := bind_eq_ok_iff.mp h
    have hread := every_of_readMembers hW hP (hW.member hw) hcs
    split at h
    · rename_i d hd
      obtain rfl := pure_eq_ok_iff.mp h
      exact every_of_all hread hd
    · simp at h
  · simp at h

/-! ### Soundness -/

/-- Whether a test suits the field of a name, which filters may use so. -/
def Suits (r : Registry) (name : String) (test : Test) : Prop :=
  ∃ f, r.filterable? name = some f ∧ f.allows test.operator = true ∧ f.Accepts test

/-- A condition whose leaves suit the fields of a registry. -/
def Sound (r : Registry) (c : Condition) : Prop :=
  c.Every (Suits r)

theorem sound_of_read (hr : r.Consistent) {raw : Json} {c : Condition}
    (hw : raw.isWellFormed = true) (h : read r raw = .ok c) : c.Sound r := by
  refine every_of_read Json.inherited_isWellFormed
    (fun name f tag op operand t _ hf hallows hoperand hread => ?_) hw h
  have hop := hr.operator_of_allows hf hallows
  exact ⟨f, hf, by rw [Test.operator_of_read hread]; exact hallows,
    Field.accepts_of_read hop hoperand hread⟩

theorem mem_fieldsOf {cs : List Condition} {name : String} :
    name ∈ fieldsOf cs ↔ ∃ c ∈ cs, name ∈ c.fields := by
  induction cs with
  | nil => simp [fieldsOf]
  | cons c cs ih => simp [fieldsOf, ih]

/-- A property of the names of all leaves is one of all fields. -/
theorem Every.of_mem_fields {Q : String → Prop} {c : Condition} (h : c.Every fun name _ => Q name)
    {name : String} (hname : name ∈ c.fields) : Q name := by
  induction h with
  | leaf h =>
    rw [fields, List.mem_singleton] at hname
    rwa [hname]
  | group _ _ ih =>
    obtain ⟨c, hc, hname⟩ := mem_fieldsOf.mp hname
    exact ih c hc hname

/-- No field of a filter's condition is named like a combinator. -/
theorem ofKey?_of_read {raw : Json} {c : Condition} (h : read r raw = .ok c) {name : String}
    (hname : name ∈ c.fields) : Combinator.ofKey? name = none := by
  have hkeys : c.Every fun name _ => Combinator.ofKey? name = none :=
    every_of_read Json.inherited_true (fun _ _ _ _ _ _ hkey _ _ _ _ => hkey) trivial h
  exact hkeys.of_mem_fields hname

/-! ### The shorter forms of a request -/

theorem sound_of_equality {name raw : String} {c : Condition}
    (h : r.equality name raw = .ok c) : c.Sound r := by
  obtain ⟨f, hf, h⟩ := bind_eq_ok_iff.mp h
  have hf := Registry.filterField_eq_ok_iff.mp hf
  split at h
  · simp at h
  · rename_i hallows
    split at h
    · rename_i v hv
      obtain rfl := pure_eq_ok_iff.mp h
      rw [Registry.name_of_filterable? hf]
      refine .leaf ⟨f, hf, by simpa [Test.operator] using hallows, ?_⟩
      have hholds := FieldType.holds_of_coerce hv
      have hfinite := FieldType.isFinite_of_coerce rfl hv
      by_cases hnull : v = .null
      · exact Or.inl ⟨hnull, Or.inl rfl⟩
      · exact Or.inr ⟨hholds, hfinite, hnull⟩
    · simp at h

theorem sound_of_equalityCondition {equalities : Pairs} {c : Condition}
    (h : r.equalityCondition equalities = .ok (some c)) : c.Sound r := by
  obtain ⟨cs, hcs, h⟩ := bind_eq_ok_iff.mp h
  refine every_of_all (fun d hd => ?_) (pure_eq_ok_iff.mp h)
  obtain ⟨⟨name, raw⟩, -, hread⟩ := exists_of_mem_mapM hcs hd
  exact sound_of_equality hread

/-- A text of blanks asks for nothing, and any other one for a test of each searched field, of which
there are some. -/
theorem textCondition_cases {text : String} {condition : Option Condition}
    (h : r.textCondition text = .ok condition) :
    Text.isBlankText text = true ∧ condition = none
      ∨ Text.isBlankText text = false ∧ r.textFields ≠ []
        ∧ condition = any (r.textFields.map fun f => .leaf f.name (.pattern .contains (Text.trim text))) := by
  simp only [Registry.textCondition, Text.isEmpty_trim] at h
  split at h
  · rename_i hblank
    exact Or.inl ⟨hblank, (Except.ok.inj h).symm⟩
  · rename_i hblank
    split at h
    · simp at h
    · rename_i hfields
      exact Or.inr ⟨Bool.eq_false_iff.mpr hblank, hfields, (Except.ok.inj h).symm⟩

/-- A field that text search covers may be asked whether it contains a text. -/
theorem suits_of_mem_textFields (hr : r.Consistent) {f : Field} (hf : f ∈ r.textFields) {text : String}
    (htext : text ≠ "") : Suits r f.name (.pattern .contains text) := by
  obtain ⟨hmem, hsearch⟩ := List.mem_filter.mp hf
  obtain ⟨-, hfilterable, hcontains⟩ := hr.searches f hmem hsearch
  refine ⟨f, hr.filterable?_of_mem_textFields hf, ?_, htext⟩
  rw [Field.allows, hfilterable]
  simpa [Test.operator] using hcontains

theorem sound_of_textCondition (hr : r.Consistent) {text : String} {c : Condition}
    (h : r.textCondition text = .ok (some c)) : c.Sound r := by
  rcases textCondition_cases h with ⟨-, hnone⟩ | ⟨hwanted, -, hc⟩
  · simp at hnone
  · refine every_of_any (fun d hd => ?_) hc.symm
    obtain ⟨f, hf, rfl⟩ := List.mem_map.mp hd
    refine .leaf (suits_of_mem_textFields hr hf ?_)
    intro hnil
    rw [← Text.isEmpty_trim, hnil] at hwanted
    exact absurd hwanted (by decide)

end Condition

end ListQuery
