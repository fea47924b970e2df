/-
The order of alternatives.

The items of a list under `and`, `or` or `not` may stand in any order, at any depth of a filter.  Another
order may change which fault of a refused filter is found first, and the tree of an accepted one, but
neither whether it is accepted nor its value on a row.

* `Json.Rearranged` — the items of lists under combinators put in another order;
* `Condition.meaning` — the value of a condition for all that the tests of single columns may give;
* `ReadAlike` — readings that are both refused, or give conditions of the same meanings in some order;
* `readAlike_of_perm`, `readAlike_of_rearrangement` — another order of one list, there or further down;
* `read_rearranged` — filters that differ in the order of alternatives are accepted alike, and compile to
  predicates of the same value.

Design notes: one list is put in order at a time, and the induction is on the way down to it.  On that way
stand groups, for which both readings go on alike, or the operand of an operator, which is refused in
whatever order it is: operands hold no lists or objects in which a list could stand.
-/
import ListQuery.Proofs.Condition.Value
import ListQuery.Proofs.Plan.Validated
import Mathlib.Logic.Relation

namespace ListQuery

/-! ### Values of rearranged groups -/

namespace Truth

theorem and_left_comm (a b c : Truth) : a.and (b.and c) = b.and (a.and c) := by
  cases a <;> cases b <;> cases c <;> rfl

theorem or_left_comm (a b c : Truth) : a.or (b.or c) = b.or (a.or c) := by
  cases a <;> cases b <;> cases c <;> rfl

theorem all_perm {ts us : List Truth} (h : ts.Perm us) : all ts = all us :=
  h.foldr_eq' (fun a _ b _ c => and_left_comm b a c) .true

theorem any_perm {ts us : List Truth} (h : ts.Perm us) : any ts = any us :=
  h.foldr_eq' (fun a _ b _ c => or_left_comm b a c) .false

end Truth

/-- The value of a group does not depend on the order of its children. -/
theorem Combinator.truth_perm (kind : Combinator) {ts us : List Truth} (h : ts.Perm us) :
    kind.truth ts = kind.truth us := by
  cases kind with
  | and => exact Truth.all_perm h
  | or => exact Truth.any_perm h
  | not => exact Truth.all_perm (h.map Truth.not)

namespace Condition

variable {table : TableRef} {cs ds : List Condition} {c d : Condition}

/-- What a condition means on a table: its value, whatever the tests of single columns give. -/
def meaning (table : TableRef) (c : Condition) (t : TestValues) : Truth :=
  c.value t table

theorem map_value (t : TestValues) (cs : List Condition) :
    cs.map (value t table) = (cs.map (meaning table)).map (· t) := by
  rw [List.map_map]
  rfl

theorem meaning_group {kind : Combinator} (h : (cs.map (meaning table)).Perm (ds.map (meaning table))) :
    meaning table (.group kind cs) = meaning table (.group kind ds) := by
  funext t
  simp only [meaning, value, values_eq_map, map_value]
  exact kind.truth_perm (h.map _)

theorem meaning_all (h : (cs.map (meaning table)).Perm (ds.map (meaning table)))
    (hc : all cs = some c) (hd : all ds = some d) : meaning table c = meaning table d := by
  funext t
  have hvalue : (all cs).elim .true (value t table) = (all ds).elim .true (value t table) := by
    rw [value_all, value_all, map_value, map_value]
    exact Truth.all_perm (h.map _)
  rwa [hc, hd] at hvalue

end Condition

/-! ### Filters in another order -/

namespace Json

/-- Whether one value becomes another one when the items of one list under a combinator, here or in what
it holds, are put in another order. -/
inductive Rearrangement : Json → Json → Prop where
  | list (kind : Combinator) (before after : Members) {items items' : List Json}
      (h : items.Perm items') :
      Rearrangement (.object (before ++ (kind.key, .array items) :: after))
        (.object (before ++ (kind.key, .array items') :: after))
  | member (key : String) (before after : Members) {v v' : Json} (h : Rearrangement v v') :
      Rearrangement (.object (before ++ (key, v) :: after)) (.object (before ++ (key, v') :: after))
  | item (before after : List Json) {v v' : Json} (h : Rearrangement v v') :
      Rearrangement (.array (before ++ v :: after)) (.array (before ++ v' :: after))

/-- Whether two values differ only in the order of the items of lists under combinators, at any depth. -/
def Rearranged : Json → Json → Prop :=
  Relation.ReflTransGen Rearrangement

/-- Whether a value is a list or an object. -/
def isCompound : Json → Bool
  | .array _ => true
  | .object _ => true
  | _ => false

theorem Rearrangement.isCompound {v v' : Json} (h : Rearrangement v v') :
    v.isCompound = true ∧ v'.isCompound = true := by
  cases h <;> exact ⟨rfl, rfl⟩

end Json

/-! ### Operands -/

namespace Field

open Json

variable {f : Field} {tag : String} {v v' : Json}

/-- No list and no object is a single value. -/
theorem readValue_compound (hv : v.isCompound = true) (l : Literal) : f.readValue tag v ≠ .ok l := by
  intro h
  obtain ⟨w, hw, hcoerce⟩ := readValue_eq_ok h
  cases v with
  | array items =>
    obtain ⟨ls, -, rfl⟩ := Option.map_eq_some_iff.mp hw
    rw [FieldType.coerce_list] at hcoerce
    simp at hcoerce
  | object members => simp [Literal.ofJson?] at hw
  | null | bool | integer | float | string => simp [isCompound] at hv

theorem readPresent_compound (hv : v.isCompound = true) (l : Literal) :
    f.readPresent tag v ≠ .ok l :=
  fun h => readValue_compound hv l (readPresent_eq_ok_iff.mp h).1

theorem readCompared_compound {op : Comparison} (hv : v.isCompound = true) (l : Literal) :
    f.readCompared tag op v ≠ .ok l := by
  rw [readCompared]
  split
  · exact readValue_compound hv l
  · exact readPresent_compound hv l

theorem readPattern_compound (hv : v.isCompound = true) (s : String) :
    f.readPattern tag v ≠ .ok s := by
  intro h
  obtain ⟨l, hl, -⟩ := bind_eq_ok_iff.mp h
  exact readPresent_compound hv l hl

/-- A list with a list or an object in it is no list of values. -/
theorem readChoices_compound {items : List Json} (hv : v ∈ items) (hcompound : v.isCompound = true)
    (ls : List Literal) : f.readChoices tag (.array items) ≠ .ok ls := by
  intro h
  rw [readChoices.eq_def] at h
  split at h
  · simp at h
  · rename_i items' _ heq
    obtain rfl := Json.array.inj heq
    obtain ⟨l, hl⟩ := exists_of_mapM_of_mem h hv
    exact readPresent_compound hcompound l hl
  · simp at h

/-- The bounds of a range, and the text of an interval, are single values. -/
theorem readForms_compound {ms : Members} {key : String} (hkey : isRangeKey key = true)
    (hv : memberOf? key ms = some v) (hcompound : v.isCompound = true) (i : Interval) :
    f.readForms tag ms ≠ .ok i := by
  intro h
  have hkeys : key = "from" ∨ key = "to" ∨ key = "interval" := by
    simpa [isRangeKey, or_assoc] using hkey
  rw [readForms] at h
  split at h
  · simp at h
  · rename_i interval hfrom hto hinterval
    have hv : interval = v := by
      rcases hkeys with rfl | rfl | rfl
      · simp [hfrom] at hv
      · simp [hto] at hv
      · exact Option.some.inj (hinterval.symm.trans hv)
    subst hv
    cases interval <;> simp [readInterval, isCompound] at h hcompound
  · rename_i lower upper hfrom hto hinterval
    obtain ⟨a, ha, h⟩ := bind_eq_ok_iff.mp h
    obtain ⟨b, hb, -⟩ := bind_eq_ok_iff.mp h
    rcases hkeys with rfl | rfl | rfl
    · obtain rfl := Option.some.inj (hfrom.symm.trans hv)
      exact readPresent_compound hcompound a ha
    · obtain rfl := Option.some.inj (hto.symm.trans hv)
      exact readPresent_compound hcompound b hb
    · simp [hinterval] at hv
  · simp at h
  · simp at h

/-- Where lists or objects take the place of others, a name is found as before, or is theirs. -/
theorem memberOf?_middle (key : String) (before after : Members) (v v' : Json) (name : String) :
    memberOf? name (before ++ (key, v) :: after) = memberOf? name (before ++ (key, v') :: after)
      ∨ name = key ∧ memberOf? name (before ++ (key, v) :: after) = some v
        ∧ memberOf? name (before ++ (key, v') :: after) = some v' := by
  simp only [memberOf?, List.lookup_append, List.lookup_cons]
  cases List.lookup name before with
  | some found => exact Or.inl rfl
  | none =>
    split
    · rename_i hname
      exact Or.inr ⟨by simpa using hname, rfl, rfl⟩
    · exact Or.inl rfl

theorem alike_readForms {key : String} {before after : Members} (hv : v.isCompound = true)
    (hv' : v'.isCompound = true) :
    Alike AnyErrors Eq (f.readForms tag (before ++ (key, v) :: after))
      (f.readForms tag (before ++ (key, v') :: after)) := by
  by_cases hsame : ∀ name, isRangeKey name = true →
      memberOf? name (before ++ (key, v) :: after) = memberOf? name (before ++ (key, v') :: after)
  · rw [readForms, hsame "from" rfl, hsame "to" rfl, hsame "interval" rfl, readForms]
    exact Alike.same _
  · obtain ⟨name, hnot⟩ := Classical.not_forall.mp hsame
    obtain ⟨hname, hne⟩ := Classical.not_imp.mp hnot
    rcases memberOf?_middle key before after v v' name with heq | ⟨-, hfound, hfound'⟩
    · exact absurd heq hne
    · exact Alike.of_errors (readForms_compound hname hfound hv) (readForms_compound hname hfound' hv')

/-- A range is read alike before and after a list or an object in it is exchanged for another one. -/
theorem alike_readRange {key : String} {before after : Members} (hv : v.isCompound = true)
    (hv' : v'.isCompound = true) :
    Alike AnyErrors Eq (f.readRange tag (.object (before ++ (key, v) :: after)))
      (f.readRange tag (.object (before ++ (key, v') :: after))) := by
  have hforms : Alike AnyErrors Eq (f.readForms tag (before ++ (key, v) :: after))
      (f.readForms tag (before ++ (key, v') :: after)) := alike_readForms hv hv'
  simp only [readRange, List.find?_append, List.find?_cons]
  -- A key that may not stand in a range is looked for first, and keys are not what is exchanged.
  cases before.find? _ with
  | some p => trivial
  | none =>
    cases hkey : isRangeKey key with
    | false => trivial
    | true =>
      simp only [Bool.not_true, Option.none_or]
      cases after.find? _ with
      | some p => trivial
      | none =>
        refine hforms.bind ?_
        rintro i _ _ _ rfl
        exact Alike.same _

end Field

/-- A test is read alike from an operand in another order: it is refused, or what is in another order is
not looked at. -/
theorem Test.alike_read {f : Field} {tag : String} (op : Operator) {v v' : Json}
    (h : v.Rearrangement v') : Alike AnyErrors Eq (Test.read f tag op v) (Test.read f tag op v') := by
  obtain ⟨hv, hv'⟩ := h.isCompound
  cases op with
  | comparison op =>
    exact (Alike.of_errors (Field.readCompared_compound hv) (Field.readCompared_compound hv')).map
      fun _ _ => congrArg _
  | pattern kind =>
    exact (Alike.of_errors (Field.readPattern_compound hv) (Field.readPattern_compound hv')).map
      fun _ _ => congrArg _
  | oneOf =>
    refine Alike.map (R := Eq) ?_ fun _ _ => congrArg _
    cases h with
    | list | member => exact trivial
    | item before after h =>
      obtain ⟨hv, hv'⟩ := h.isCompound
      exact Alike.of_errors (Field.readChoices_compound (by simp) hv)
        (Field.readChoices_compound (by simp) hv')
  | range =>
    refine Alike.map (R := Eq) ?_ fun _ _ => congrArg _
    cases h with
    | list => exact Field.alike_readRange rfl rfl
    | member key before after h => exact Field.alike_readRange h.isCompound.1 h.isCompound.2
    | item => exact trivial

/-! ### Parts of filters -/

/-- Whether two readings end alike: both refused, or with conditions of the same meanings in some order. -/
def ReadAlike (table : TableRef) :
    Except QueryError (List Condition) → Except QueryError (List Condition) → Prop :=
  Alike AnyErrors fun cs ds =>
    (cs.map (Condition.meaning table)).Perm (ds.map (Condition.meaning table))

namespace ReadAlike

variable {table : TableRef} {x x' y y' z : Except QueryError (List Condition)}

theorem refl (x : Except QueryError (List Condition)) : ReadAlike table x x :=
  Alike.refl (fun _ => trivial) (fun _ => .refl _) x

theorem trans (h : ReadAlike table x y) (h' : ReadAlike table y z) : ReadAlike table x z := by
  refine Alike.trans ?_ ?_ h h'
  · exact fun _ _ _ _ _ => trivial
  · exact fun _ _ _ => List.Perm.trans

/-- Readings that give the very same conditions. -/
theorem of_eq (h : Alike AnyErrors Eq x y) : ReadAlike table x y :=
  h.mono (fun _ _ => id) fun _ _ heq => .of_eq (congrArg _ heq)

/-- Two readings, one after the other, that each end alike. -/
theorem append (h : ReadAlike table x x') (h' : ReadAlike table y y') :
    ReadAlike table (do return (← x) ++ (← y)) (do return (← x') ++ (← y')) := by
  refine Alike.bind h fun cs cs' _ _ hcs => Alike.bind h' fun ds ds' _ _ hds => ?_
  show ((cs ++ ds).map _).Perm ((cs' ++ ds').map _)
  rw [List.map_append, List.map_append]
  exact hcs.append hds

/-- Two readings in either order. -/
theorem swap (x y z : Except QueryError (List Condition)) :
    ReadAlike table (do return (← x) ++ ((← y) ++ (← z))) (do return (← y) ++ ((← x) ++ (← z))) := by
  cases x with
  | error e => cases y <;> trivial
  | ok cs =>
    cases y with
    | error e => trivial
    | ok ds =>
      cases z with
      | error e => trivial
      | ok es =>
        refine List.Perm.map _ ?_
        rw [← List.append_assoc, ← List.append_assoc]
        exact List.perm_append_comm.append_right es

/-- Lists that differ in one place, read from the first item to the last one. -/
theorem middle {α : Type} {f : List α → Except QueryError (List Condition)}
    {g : α → Except QueryError (List Condition)}
    (hcons : ∀ a as, f (a :: as) = do return (← g a) ++ (← f as)) (before after : List α) {a a' : α}
    (h : ReadAlike table (g a) (g a')) :
    ReadAlike table (f (before ++ a :: after)) (f (before ++ a' :: after)) := by
  induction before with
  | nil =>
    rw [List.nil_append, List.nil_append, hcons, hcons]
    exact h.append (.refl _)
  | cons b before ih =>
    rw [List.cons_append, List.cons_append, hcons, hcons]
    exact (refl _).append ih

end ReadAlike

namespace Condition

variable {r : Registry} {depth : Nat} {kind : Combinator} {table : TableRef} {v v' : Json}

theorem readAlike_of_perm {items items' : List Json} (h : items.Perm items') :
    ReadAlike table (readEntries r depth kind items) (readEntries r depth kind items') := by
  induction h with
  | nil => exact .refl _
  | cons v _ ih =>
    rw [readEntries_cons, readEntries_cons]
    exact (ReadAlike.refl _).append ih
  | swap v w rest =>
    have hswap : ReadAlike table _ _ := ReadAlike.swap (readEntry r depth kind w)
      (readEntry r depth kind v) (readEntries r depth kind rest)
    simpa only [readEntries_cons, bind_assoc, pure_bind] using hswap
  | trans _ _ ih ih' => exact ih.trans ih'

theorem readAlike_entries_middle (before after : List Json)
    (h : ReadAlike table (readEntry r depth kind v) (readEntry r depth kind v')) :
    ReadAlike table (readEntries r depth kind (before ++ v :: after))
      (readEntries r depth kind (before ++ v' :: after)) :=
  ReadAlike.middle (readEntries_cons r depth kind) before after h

theorem readAlike_members_middle {key : String} (before after : List (String × Json))
    (h : ReadAlike table (readMember r depth key v) (readMember r depth key v')) :
    ReadAlike table (readMembers r depth (before ++ (key, v) :: after))
      (readMembers r depth (before ++ (key, v') :: after)) :=
  ReadAlike.middle (fun m ms => readMembers_cons r depth m.1 m.2 ms) before after h

/-- Conditions of the same meanings are as many, and so enough for a group or too few. -/
theorem readAlike_join {cs ds : List Condition}
    (h : (cs.map (meaning table)).Perm (ds.map (meaning table))) :
    ReadAlike table (do return [← join kind cs]) (do return [← join kind ds]) := by
  have hlen : cs.length = ds.length := by simpa using h.length_eq
  simp only [join, hlen]
  cases checkArity kind ds.length with
  | error e => trivial
  | ok _ => exact List.Perm.of_eq (congrArg (fun m => [m]) (meaning_group h))

/-- Conditions of the same meanings have conjunctions of the same meaning, or no conjunction. -/
theorem all_cases {cs ds : List Condition} {P : String → Test → Prop} (hcs : ∀ c ∈ cs, c.Every P)
    (hds : ∀ d ∈ ds, d.Every P) (h : (cs.map (meaning table)).Perm (ds.map (meaning table))) :
    (all cs = none ∧ all ds = none)
      ∨ ∃ c d, all cs = some c ∧ all ds = some d ∧ meaning table c = meaning table d := by
  have hnone : all cs = none ↔ all ds = none := by
    rw [all_eq_none_iff hcs, all_eq_none_iff hds, ← List.length_eq_zero_iff, ← List.length_eq_zero_iff]
    simpa using congrArg (· = 0) h.length_eq
  cases hc : all cs with
  | none => exact Or.inl ⟨rfl, hnone.mp hc⟩
  | some c =>
    cases hd : all ds with
    | none => simp [hnone.mpr hd] at hc
    | some d => exact Or.inr ⟨c, d, rfl, rfl, meaning_all h hc hd⟩

theorem readAlike_entryChildren {cs ds : List Condition} {P : String → Test → Prop}
    (hcs : ∀ c ∈ cs, c.Every P) (hds : ∀ d ∈ ds, d.Every P)
    (h : (cs.map (meaning table)).Perm (ds.map (meaning table))) :
    ReadAlike table (entryChildren kind cs) (entryChildren kind ds) := by
  cases kind with
  | not => exact h
  | and | or =>
    rw [entryChildren.eq_def, entryChildren.eq_def]
    rcases all_cases hcs hds h with ⟨hc, hd⟩ | ⟨c, d, hc, hd, hsame⟩
    · rw [hc, hd]
      trivial
    · rw [hc, hd]
      exact List.Perm.of_eq (congrArg (fun m => [m]) hsame)

theorem readField_object {name : String} {members : List (String × Json)} (h : members ≠ []) :
    readField r name (.object members) = (do
      let f ← r.filterField name
      members.mapM fun (tag, operand) => readOperation f tag operand) := by
  cases members with
  | nil => exact absurd rfl h
  | cons => rfl

theorem alike_readOperation {f : Field} {tag : String} (h : v.Rearrangement v') :
    Alike AnyErrors Eq (readOperation f tag v) (readOperation f tag v') := by
  rw [readOperation, readOperation]
  cases Operator.resolve? tag with
  | none => trivial
  | some found =>
    obtain ⟨op, negated⟩ := found
    simp only
    split
    · refine (Test.alike_read op h).bind ?_
      rintro test _ _ _ rfl
      exact Alike.same _
    · trivial

/-- The key of a combinator is no tag of an operator. -/
theorem readOperation_key (f : Field) (kind : Combinator) (operand : Json) (c : Condition) :
    readOperation f kind.key operand ≠ .ok c := by
  have hkey : Operator.resolve? kind.key = none := by
    cases kind <;> rfl
  rw [readOperation, hkey]
  simp

/-- The operators on a field are read alike, in whatever order the lists in their operands are. -/
theorem alike_readField {name : String} (h : v.Rearrangement v') :
    Alike AnyErrors Eq (readField r name v) (readField r name v') := by
  cases h with
  | list kind before after h =>
    rw [readField_object (by simp), readField_object (by simp)]
    refine (Alike.same (r.filterField name)).bind ?_
    rintro f _ _ _ rfl
    have hrefused : ∀ (items : List Json) (cs : List Condition),
        (before ++ (kind.key, Json.array items) :: after).mapM
          (fun (tag, operand) => readOperation f tag operand) ≠ .ok cs := by
      intro items cs hcs
      obtain ⟨c, hc⟩ := exists_of_mapM_of_mem hcs (a := (kind.key, Json.array items)) (by simp)
      exact readOperation_key f kind _ c hc
    exact Alike.of_errors (hrefused _) (hrefused _)
  | member key before after h =>
    rw [readField_object (by simp), readField_object (by simp)]
    refine (Alike.same (r.filterField name)).bind ?_
    rintro f _ _ _ rfl
    exact Alike.mapM_middle (fun _ => trivial) before after (alike_readOperation h)
  | item =>
    refine (Alike.same (r.filterField name)).bind ?_
    rintro f _ _ _ rfl
    exact trivial

/-! ### Filters -/

theorem readAlike_member {key : String}
    (hgroup : ∀ kind, ReadAlike table (readGroup r depth kind v) (readGroup r depth kind v'))
    (hfield : ReadAlike table (readField r key v) (readField r key v')) :
    ReadAlike table (readMember r depth key v) (readMember r depth key v') := by
  rw [readMember, readMember]
  cases Combinator.ofKey? key with
  | some kind => exact Alike.bind (hgroup kind) fun _ _ _ _ h => readAlike_join h
  | none => exact hfield

/-- Objects whose members are read alike at every depth are alike as groups and as entries of groups. -/
theorem readAlike_object {ms ms' : List (String × Json)}
    (h : ∀ depth, ReadAlike table (readMembers r depth ms) (readMembers r depth ms')) :
    ReadAlike table (readGroup r depth kind (.object ms)) (readGroup r depth kind (.object ms'))
      ∧ ReadAlike table (readEntry r depth kind (.object ms)) (readEntry r depth kind (.object ms')) := by
  constructor
  · exact (Alike.same (checkDepth (depth + 1))).bind fun _ _ _ _ _ => h (depth + 1)
  · refine (Alike.same (checkDepth (depth + 1))).bind fun _ _ _ _ _ => ?_
    refine Alike.bind (h (depth + 1)) fun cs ds hcs hds hsame => ?_
    exact readAlike_entryChildren (every_true_of_readMembers hcs) (every_true_of_readMembers hds) hsame

/-- The members of an object are read alike before and after a list in it is put in another order, and so
is each value as a group or as an entry of one. -/
theorem readAlike_of_rearrangement (h : v.Rearrangement v') (depth : Nat) (kind : Combinator) :
    ReadAlike table (readGroup r depth kind v) (readGroup r depth kind v')
      ∧ ReadAlike table (readEntry r depth kind v) (readEntry r depth kind v') := by
  induction h generalizing depth kind with
  | list key before after h =>
    refine readAlike_object fun depth => readAlike_members_middle before after ?_
    rw [readMember, readMember, Combinator.ofKey?_key]
    exact Alike.bind (readAlike_of_perm h) fun _ _ _ _ h => readAlike_join h
  | member key before after h ih =>
    refine readAlike_object fun depth => readAlike_members_middle before after ?_
    exact readAlike_member (fun kind => (ih depth kind).1) (.of_eq (alike_readField h))
  | item before after h ih =>
    exact ⟨readAlike_entries_middle before after (ih depth kind).2, trivial⟩

theorem alike_read_object {ms ms' : List (String × Json)}
    (h : ReadAlike table (readMembers r 1 ms) (readMembers r 1 ms')) :
    Alike AnyErrors (fun c d => meaning table c = meaning table d) (read r (.object ms))
      (read r (.object ms')) := by
  refine Alike.bind h fun cs ds hcs hds hsame => ?_
  rcases all_cases (every_true_of_readMembers hcs) (every_true_of_readMembers hds) hsame with
    ⟨hc, hd⟩ | ⟨c, d, hc, hd, hmeaning⟩
  · rw [hc, hd]
    trivial
  · rw [hc, hd]
    exact hmeaning

theorem alike_read (r : Registry) (table : TableRef) {raw raw' : Json} (h : raw.Rearranged raw') :
    Alike AnyErrors (fun c d => meaning table c = meaning table d) (read r raw) (read r raw') := by
  induction h with
  | refl =>
    refine Alike.refl ?_ ?_ _
    · exact fun _ => trivial
    · exact fun _ => rfl
  | tail _ hstep ih =>
    refine Alike.trans ?_ ?_ ih ?_
    · exact fun _ _ _ _ _ => trivial
    · exact fun _ _ _ => Eq.trans
    · -- The members of a filter are read as those of a group are whose key stands one level above.
      have hgroup : ReadAlike table (readGroup r 0 .and _) (readGroup r 0 .and _) :=
        (readAlike_of_rearrangement hstep 0 .and).1
      cases hstep with
      | list => exact alike_read_object hgroup
      | member => exact alike_read_object hgroup
      | item => exact trivial

/-- Filters that differ in the order of alternatives only, at whatever depth, are accepted by a built
registry both or neither; and if they are, their predicates have the same value, under any name of the
table and whatever the tests of single columns give. -/
theorem read_rearranged {r : Registry} (hr : r.Built) {raw raw' : Json} (h : raw.Rearranged raw') :
    ((∃ c, read r raw = .ok c) ↔ ∃ c', read r raw' = .ok c')
      ∧ ∀ c c', read r raw = .ok c → read r raw' = .ok c' → ∀ alias? : Option String,
        ∃ p p', c.compile ⟨r, alias?⟩ = .ok p ∧ c'.compile ⟨r, alias?⟩ = .ok p'
          ∧ ∀ t : TestValues, p.value t = p'.value t := by
  refine ⟨(alike_read r (.ofRegistry r) h).exists_ok_iff, ?_⟩
  intro c c' hc hc' alias?
  have hconsistent := Registry.consistent_of_built hr
  obtain ⟨p, hp⟩ := compile_of_every (t := ⟨r, alias?⟩) (every_of_validated hconsistent (.read hc))
  obtain ⟨p', hp'⟩ := compile_of_every (t := ⟨r, alias?⟩) (every_of_validated hconsistent (.read hc'))
  have hmeaning := alike_read r ⟨r, alias?⟩ h
  rw [hc, hc'] at hmeaning
  refine ⟨p, p', hp, hp', fun t => ?_⟩
  rw [value_of_compile hp, value_of_compile hp']
  exact congrFun hmeaning t

/-- A list under `not` inside an entry of a list under `or`, both in the other order: another tree of the
same value. -/
theorem read_rearranged_parts :
    let low : Json := .object [("id", .object [("lt", .integer 3)])]
    let one : Json := .object [("id", .object [("in", .array [.integer 1])])]
    let named : Json := .object [("kind", .object [("contains", .string "b")])]
    let other (excluded : List Json) : Json :=
      .object [("kind", .object [("not_eq", .null)]), ("not", .array excluded)]
    let raw : Json := .object [("or", .array [low, other [one, named]])]
    let raw' : Json := .object [("or", .array [other [named, one], low])]
    raw.Rearranged raw' ∧ ∃ c c' p p', read .parts raw = .ok c ∧ read .parts raw' = .ok c'
      ∧ c.agrees c' = false
      ∧ c.compile ⟨.parts, some "p"⟩ = .ok p ∧ c'.compile ⟨.parts, some "p"⟩ = .ok p'
      ∧ ∀ t : TestValues, p.value t = p'.value t := by
  intro low one named other raw raw'
  have hinner : Json.Rearrangement raw (.object [("or", .array [low, other [named, one]])]) :=
    .member "or" [] [] (.item [low] [] (.list .not [_] [] (.swap named one [])))
  have houter : Json.Rearrangement (.object [("or", .array [low, other [named, one]])]) raw' :=
    .list .or [] [] (.swap _ _ [])
  have h : raw.Rearranged raw' := .tail (.single hinner) houter
  obtain ⟨c, hc⟩ : ∃ c, read .parts raw = .ok c := ⟨_, rfl⟩
  have hread := read_rearranged Registry.built_parts h
  obtain ⟨c', hc'⟩ := hread.1.mp ⟨c, hc⟩
  obtain ⟨p, p', hp, hp', hvalue⟩ := hread.2 c c' hc hc' (some "p")
  refine ⟨h, c, c', p, p', hc, hc', ?_, hp, hp', hvalue⟩
  cases hc
  cases hc'
  decide

end Condition

end ListQuery
