/-
The spellings of operators.

An operator has a tag and may have other names, and `not_` in front of any of them negates an operator that
is no comparison.  Whichever spelling a filter uses, it asks for the same, and what is wrong with it is
reported with the same code for the same field; only the tag that the report names is the one that was
written.

* `QueryError.SameSubject` — errors with one code, about one field;
* `alike_test_read_tag` — an operand is read alike under any two tags;
* `resolve?_not` — what `not_` makes of a tag;
* `read_spellings` — a filter asks for the same under each name of an operator, and with `not_` as in a
  `not`.
-/
import ListQuery.Proofs.Condition.Addressed
import ListQuery.Proofs.Condition.Compositional

namespace ListQuery

/-- Whether two errors have one code and are about one field. -/
def QueryError.SameSubject (e e' : QueryError) : Prop :=
  e.code = e'.code ∧ e.field? = e'.field?

theorem QueryError.SameSubject.refl (e : QueryError) : e.SameSubject e :=
  ⟨rfl, rfl⟩

open QueryError (SameSubject)

/-! ### Operands under two tags -/

namespace Field

variable (f : Field) (tag tag' : String) (operand : Json)

theorem alike_readValue_tag : Alike SameSubject Eq (f.readValue tag operand) (f.readValue tag' operand) := by
  rw [readValue, readValue]
  cases Literal.ofJson? operand with
  | none => exact ⟨rfl, rfl⟩
  | some v =>
    simp only
    cases f.type.coerce v with
    | ok w => exact (rfl : w = w)
    | error why => exact ⟨rfl, rfl⟩

theorem alike_readPresent_tag :
    Alike SameSubject Eq (f.readPresent tag operand) (f.readPresent tag' operand) := by
  refine (alike_readValue_tag f tag tag' operand).bind ?_
  rintro v _ - - rfl
  cases v.isNull with
  | true => exact ⟨rfl, rfl⟩
  | false => exact (rfl : v = v)

theorem alike_readCompared_tag (op : Comparison) :
    Alike SameSubject Eq (f.readCompared tag op operand) (f.readCompared tag' op operand) := by
  rw [readCompared, readCompared]
  split
  · exact alike_readValue_tag f tag tag' operand
  · exact alike_readPresent_tag f tag tag' operand

theorem alike_readPattern_tag :
    Alike SameSubject Eq (f.readPattern tag operand) (f.readPattern tag' operand) := by
  refine (alike_readPresent_tag f tag tag' operand).bind ?_
  rintro v _ - - rfl
  split
  · split
    · exact ⟨rfl, rfl⟩
    · exact (rfl : _ = _)
  · exact ⟨rfl, rfl⟩

theorem alike_readChoices_tag :
    Alike SameSubject Eq (f.readChoices tag operand) (f.readChoices tag' operand) := by
  rw [readChoices.eq_def, readChoices.eq_def]
  split
  · exact ⟨rfl, rfl⟩
  · exact Alike.mapM fun item _ => alike_readPresent_tag f tag tag' item
  · exact ⟨rfl, rfl⟩

/-- A bound in a text is read without regard to the tag, for its errors do not name it. -/
theorem readBound_tag (interval : String) (side : Side) (bound : List Char) :
    f.readBound tag interval side bound = f.readBound tag' interval side bound := by
  have halike := alike_readPresent_tag f tag tag' (.string (String.ofList bound))
  rw [readBound, readBound]
  split
  · rfl
  · cases hv : f.readPresent tag (.string (String.ofList bound)) with
    | ok v =>
      obtain ⟨_, hv', rfl⟩ := halike.exists_of_ok hv
      rw [hv']
    | error e =>
      obtain ⟨e', he', -⟩ := halike.exists_of_error hv
      rw [he']

theorem readInterval_tag : f.readInterval tag operand = f.readInterval tag' operand := by
  simp only [readInterval.eq_def, readBound_tag f tag tag']

theorem alike_readForms_tag (members : Json.Members) :
    Alike SameSubject Eq (f.readForms tag members) (f.readForms tag' members) := by
  rw [readForms, readForms]
  split
  · exact ⟨rfl, rfl⟩
  · rw [readInterval_tag f tag tag']
    exact Alike.refl SameSubject.refl (fun _ => rfl) _
  · rename_i lower upper _ _ _
    refine (alike_readPresent_tag f tag tag' lower).bind ?_
    rintro v _ - - rfl
    refine (alike_readPresent_tag f tag tag' upper).bind ?_
    rintro w _ - - rfl
    exact (rfl : _ = _)
  · exact ⟨rfl, rfl⟩
  · exact ⟨rfl, rfl⟩

theorem alike_readRange_tag :
    Alike SameSubject Eq (f.readRange tag operand) (f.readRange tag' operand) := by
  rw [readRange.eq_def, readRange.eq_def]
  split
  · split
    · exact ⟨rfl, rfl⟩
    · refine (alike_readForms_tag f tag tag' _).bind ?_
      rintro i _ - - rfl
      split
      · exact ⟨rfl, rfl⟩
      · exact (rfl : _ = _)
  · exact ⟨rfl, rfl⟩

/-- An operand is read alike under any two tags. -/
theorem alike_test_read_tag (op : Operator) :
    Alike SameSubject Eq (Test.read f tag op operand) (Test.read f tag' op operand) := by
  cases op with
  | comparison op => exact (alike_readCompared_tag f tag tag' operand op).map fun _ _ => congrArg _
  | pattern kind => exact (alike_readPattern_tag f tag tag' operand).map fun _ _ => congrArg _
  | oneOf => exact (alike_readChoices_tag f tag tag' operand).map fun _ _ => congrArg _
  | range => exact (alike_readRange_tag f tag tag' operand).map fun _ _ => congrArg _

end Field

/-! ### Tags -/

namespace Operator

/-- The names of an operator: its tag, and what may be written for it. -/
def names : Operator → List String
  | .comparison .eq => ["eq", "equal"]
  | .comparison .notEq => ["not_eq", "not_equal"]
  | .comparison .lt => ["lt", "less_than"]
  | .comparison .gt => ["gt", "greater_than"]
  | .comparison .lteq => ["lteq", "less_than_or_equal"]
  | .comparison .gteq => ["gteq", "greater_than_or_equal"]
  | .pattern .contains => ["contains", "contain"]
  | .pattern .startsWith => ["starts_with", "start_with"]
  | .pattern .endsWith => ["ends_with", "end_with"]
  | .oneOf => ["in"]
  | .range => ["range", "in_range"]

theorem mem_names_of_ofTag? {tag : String} {op : Operator} (h : ofTag? tag = some op) :
    tag ∈ op.names := by
  rw [ofTag?.eq_def] at h
  split at h <;> cases h <;> decide

/-- With `not_` in front, a name of an operator that is no comparison negates the operator. -/
theorem resolve?_not {tag : String} {op : Operator} (h : ofTag? tag = some op)
    (hcomparison : op.isComparison = false) : resolve? ("not_" ++ tag) = some (op, true) := by
  have hnames : ∀ name ∈ op.names, resolve? ("not_" ++ name) = some (op, true) := by
    cases op with
    | comparison op => simp [isComparison] at hcomparison
    | pattern kind => cases kind <;> decide
    | oneOf | range => decide
  exact hnames tag (mem_names_of_ofTag? h)

end Operator

namespace Condition

variable {r : Registry} {name tag tag' : String} {operand : Json} {ms : Json.Members}

/-! ### Filters of one operator -/

/-- Tags of one operator are read alike, but for what either of them makes of the test. -/
theorem alike_readOperation_tag (f : Field) (operand : Json) {op : Operator} {negated negated' : Bool}
    {g : Condition → Condition} (h : Operator.resolve? tag = some (op, negated))
    (h' : Operator.resolve? tag' = some (op, negated'))
    (hg : ∀ c : Condition, (if negated then c.negate else c) = g (if negated' then c.negate else c)) :
    Alike SameSubject Eq (readOperation f tag operand) ((readOperation f tag' operand).map g) := by
  rw [readOperation_of_resolve? f operand h, readOperation_of_resolve? f operand h']
  cases f.allows op with
  | false => exact ⟨rfl, rfl⟩
  | true =>
    have halike := Field.alike_test_read_tag f tag tag' operand op
    simp only [if_true]
    cases ht : Test.read f tag op operand with
    | error e =>
      obtain ⟨e', he', hsame⟩ := halike.exists_of_error ht
      rw [he']
      exact hsame
    | ok t =>
      obtain ⟨_, ht', rfl⟩ := halike.exists_of_ok ht
      rw [ht']
      exact hg _

/-- Members that are read as one condition make a filter that is read as this condition. -/
theorem read_of_readMembers_eq_map {x : Except QueryError Condition}
    (h : readMembers r 1 ms = x.map fun c => [c]) : read r (.object ms) = x := by
  rw [read, h]
  cases x with
  | error e => rfl
  | ok c =>
    have hevery := every_true_of_readMembers (show readMembers r 1 ms = .ok [c] from h)
    have hall : all [c] = some c := all_singleton (hevery c List.mem_cons_self)
    simp only [Except.map, bind, Except.bind, hall]
    rfl

/-- The filter of one operator on a field. -/
def operationFilter (name tag : String) (operand : Json) : Json :=
  .object [(name, .object [(tag, operand)])]

theorem read_operationFilter (hkey : Combinator.ofKey? name = none) (tag : String) (operand : Json) :
    read r (operationFilter name tag operand)
      = r.filterField name >>= fun f => readOperation f tag operand := by
  refine read_of_readMembers_eq_map ?_
  rw [readMembers_operation hkey]
  cases r.filterField name with
  | error e => rfl
  | ok f =>
    cases hc : readOperation f tag operand <;>
      simp [hc, bind, Except.bind, Except.map, pure, Except.pure]

/-- A filter of one operator under `not` is the negation of the filter. -/
theorem read_not_operationFilter (hkey : Combinator.ofKey? name = none) (tag : String) (operand : Json) :
    read r (.object [(Combinator.not.key, operationFilter name tag operand)])
      = r.filterField name >>= fun f => (readOperation f tag operand).map negate := by
  refine read_of_readMembers_eq_map ?_
  rw [readMembers_singleton, readMember, Combinator.ofKey?_key, operationFilter]
  simp only [readGroup, readMembers_operation hkey]
  cases r.filterField name with
  | error e => rfl
  | ok f =>
    cases hc : readOperation f tag operand <;> simp [hc, bind, Except.bind, Except.map] <;> rfl

/-! ### Spellings -/

/-- On a field that is not named like a combinator, an operator asks for the same under each of its names,
and one that is no comparison asks with `not_` in front for what it asks for under `not`.  What is refused
in one spelling is refused in the other with the same code for the same field. -/
theorem read_spellings (hname : ∀ kind : Combinator, name ≠ kind.key) (operand : Json) {op : Operator}
    (h : Operator.ofTag? tag = some op) :
    Alike SameSubject Eq (read r (operationFilter name tag operand))
        (read r (operationFilter name op.tag operand))
      ∧ (op.isComparison = false →
        Alike SameSubject Eq (read r (operationFilter name ("not_" ++ tag) operand))
          (read r (.object [(Combinator.not.key, operationFilter name tag operand)]))) := by
  have hkey := Combinator.ofKey?_eq_none_iff.mpr hname
  have hfield : Alike SameSubject Eq (r.filterField name) (r.filterField name) :=
    Alike.refl SameSubject.refl (fun _ => rfl) _
  have hresolve := Operator.resolve?_of_ofTag? h
  constructor
  · rw [read_operationFilter hkey, read_operationFilter hkey]
    refine hfield.bind ?_
    rintro f _ - - rfl
    have halike := alike_readOperation_tag f operand (g := id) hresolve (Operator.resolve?_tag op)
      fun _ => rfl
    rwa [Except.map_id] at halike
  · intro hcomparison
    rw [read_operationFilter hkey, read_not_operationFilter hkey]
    refine hfield.bind ?_
    rintro f _ - - rfl
    exact alike_readOperation_tag f operand (Operator.resolve?_not h hcomparison) hresolve fun _ => rfl

/-- A range without bounds, and a text that a field does not contain. -/
theorem read_spellings_parts :
    (∃ e, read .parts (operationFilter "id" "range" (.object [])) = .error e
        ∧ e.code = .invalidRange ∧ e.field? = some "id")
      ∧ read .parts (.object [("not", operationFilter "kind" "contain" (.string "b"))])
        = .ok (.group .not [.leaf "kind" (.pattern .contains "b")]) := by
  have hid : ∀ kind : Combinator, "id" ≠ kind.key := by rintro ⟨⟩ <;> decide
  have hkind : ∀ kind : Combinator, "kind" ≠ kind.key := by rintro ⟨⟩ <;> decide
  have hrange : Operator.ofTag? "in_range" = some .range := rfl
  have hcontain : Operator.ofTag? "contain" = some (.pattern .contains) := rfl
  constructor
  · obtain ⟨e, he, hcode, hfield⟩ :=
      (read_spellings (r := .parts) hid (.object []) hrange).1.exists_of_error rfl
    exact ⟨e, he, hcode.symm, hfield.symm⟩
  · obtain ⟨c, hc, hsame⟩ :=
      ((read_spellings (r := .parts) hkind (.string "b") hcontain).2 rfl).exists_of_ok rfl
    rw [← hsame] at hc
    exact hc

end Condition

end ListQuery
