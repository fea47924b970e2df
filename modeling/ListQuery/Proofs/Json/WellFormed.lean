/-
Well-formed JSON values, and that the reader hands out no others.

A value is well-formed when its integers fit 64 bits, with a sign or without, and the members of its
objects are sorted by name, no name standing twice.

* `Inherited` — what being well-formed has in common with other properties of values;
* `isWellFormed_of_read?` — what the reader reads is well-formed;
* `wellFormed_step` — one step of the reader keeps all values in its state well-formed.
-/
import ListQuery.Json.Reader

namespace ListQuery.Json

open Numeric

/-- Whether the names of members are sorted, none standing twice. -/
def Members.isSorted (members : Members) : Bool :=
  decide (members.Pairwise fun p q => p.1 < q.1)

mutual

/-- Whether the integers of a value fit 64 bits and its objects are sorted by name. -/
def isWellFormed : Json → Bool
  | .integer n => decide (Int64.minValue.toInt ≤ n ∧ n < UInt64.size)
  | .array items => areWellFormed items
  | .object members => Members.isSorted members && membersWellFormed members
  | _ => true

/-- Whether all of some values are well-formed. -/
def areWellFormed : List Json → Bool
  | [] => true
  | v :: vs => isWellFormed v && areWellFormed vs

/-- Whether all values of some members are well-formed. -/
def membersWellFormed : List (String × Json) → Bool
  | [] => true
  | (_, v) :: ms => isWellFormed v && membersWellFormed ms

end

theorem areWellFormed_iff {vs : List Json} :
    areWellFormed vs = true ↔ ∀ v ∈ vs, v.isWellFormed = true := by
  induction vs with
  | nil => simp [areWellFormed]
  | cons v vs ih => simp [areWellFormed, ih]

theorem membersWellFormed_iff {ms : Members} :
    membersWellFormed ms = true ↔ ∀ p ∈ ms, p.2.isWellFormed = true := by
  induction ms with
  | nil => simp [membersWellFormed]
  | cons p ms ih => simp [membersWellFormed, ih]

theorem isWellFormed_array {vs : List Json} :
    (array vs).isWellFormed = true ↔ ∀ v ∈ vs, v.isWellFormed = true := by
  rw [isWellFormed, areWellFormed_iff]

theorem isWellFormed_object {ms : Members} :
    (object ms).isWellFormed = true
      ↔ ms.Pairwise (fun p q => p.1 < q.1) ∧ ∀ p ∈ ms, p.2.isWellFormed = true := by
  rw [isWellFormed, Bool.and_eq_true, membersWellFormed_iff, Members.isSorted, decide_eq_true_eq]

/-- A property that passes from a value to the values that it holds. -/
structure Inherited (W : Json → Prop) : Prop where
  item : ∀ {items : List Json}, W (.array items) → ∀ v ∈ items, W v
  member : ∀ {ms : Members}, W (.object ms) → ∀ m ∈ ms, W m.2

theorem inherited_isWellFormed : Inherited fun v => v.isWellFormed = true where
  item h := isWellFormed_array.mp h
  member h := (isWellFormed_object.mp h).2

theorem inherited_true : Inherited fun _ => True where
  item _ _ _ := trivial
  member _ _ _ := trivial

theorem isWellFormed_of_memberOf? {name : String} {ms : Members} {v : Json}
    (h : (object ms).isWellFormed = true) (hv : memberOf? name ms = some v) :
    v.isWellFormed = true := by
  obtain ⟨l, m, heq, -⟩ := List.lookup_eq_some_iff.mp hv
  exact (isWellFormed_object.mp h).2 (name, v) (by simp [heq])

theorem isWellFormed_of_presentOf? {name : String} {ms : Members} {v : Json}
    (h : (object ms).isWellFormed = true) (hv : presentOf? name ms = some v) :
    v.isWellFormed = true :=
  isWellFormed_of_memberOf? h (Option.filter_eq_some_iff.mp hv).1

/-! ### Members in order -/

theorem mem_insert {name : String} {value : Json} {ms : Members} {p : String × Json}
    (h : p ∈ Members.insert name value ms) : p = (name, value) ∨ p ∈ ms := by
  induction ms with
  | nil => simpa [Members.insert] using h
  | cons q ms ih =>
    obtain ⟨n, v⟩ := q
    rw [Members.insert] at h
    split at h
    · exact (List.mem_cons.mp h).imp id (List.mem_cons_of_mem _)
    · split at h
      · exact List.mem_cons.mp h
      · rcases List.mem_cons.mp h with rfl | h
        · exact Or.inr List.mem_cons_self
        · exact (ih h).imp id (List.mem_cons_of_mem _)

theorem pairwise_insert {name : String} {value : Json} {ms : Members}
    (h : ms.Pairwise fun p q => p.1 < q.1) :
    (Members.insert name value ms).Pairwise fun p q => p.1 < q.1 := by
  induction ms with
  | nil => exact List.pairwise_singleton _ _
  | cons q ms ih =>
    obtain ⟨n, v⟩ := q
    obtain ⟨hfirst, hrest⟩ := List.pairwise_cons.mp h
    rw [Members.insert]
    split
    · rename_i heq
      exact List.pairwise_cons.mpr ⟨fun p hp => heq ▸ hfirst p hp, hrest⟩
    · rename_i hne
      split
      · rename_i hlt
        refine List.pairwise_cons.mpr ⟨fun p hp => ?_, h⟩
        rcases List.mem_cons.mp hp with rfl | hp
        · exact hlt
        · exact String.lt_trans hlt (hfirst p hp)
      · rename_i hnot
        have hgt : n < name :=
          String.not_le.mp fun hle => hne (String.le_antisymm hle (String.not_lt.mp hnot))
        refine List.pairwise_cons.mpr ⟨fun p hp => ?_, ih hrest⟩
        rcases mem_insert hp with rfl | hp
        · exact hgt
        · exact hfirst p hp

theorem isWellFormed_ofMembers {ms : Members} (h : ∀ p ∈ ms, p.2.isWellFormed = true) :
    (ofMembers ms).isWellFormed = true := by
  have hfold : ∀ (ms sorted : Members), (∀ p ∈ ms, p.2.isWellFormed = true) →
      (object sorted).isWellFormed = true →
      (object (ms.foldl (fun acc p => Members.insert p.1 p.2 acc) sorted)).isWellFormed = true := by
    intro ms
    induction ms with
    | nil => exact fun sorted _ hs => hs
    | cons p ms ih =>
      intro sorted hms hs
      obtain ⟨hp, hms⟩ := List.forall_mem_cons.mp hms
      obtain ⟨hsorted, hvalues⟩ := isWellFormed_object.mp hs
      refine ih _ hms (isWellFormed_object.mpr ⟨pairwise_insert hsorted, fun q hq => ?_⟩)
      rcases mem_insert hq with rfl | hq
      · exact hp
      · exact hvalues q hq
  exact hfold ms [] h rfl

/-! ### The reader -/

/-- A token whose value, where it has one, is well-formed. -/
def Token.WellFormed : Token → Prop
  | .atom v => v.isWellFormed = true
  | _ => True

/-- An open bracket that holds well-formed values. -/
def Frame.WellFormed : Frame → Prop
  | .items before => ∀ v ∈ before, v.isWellFormed = true
  | .members before _ => ∀ p ∈ before, p.2.isWellFormed = true

/-- A state of the reader that holds well-formed values. -/
def Reader.WellFormed : Reader → Prop
  | .value stack | .firstItem stack | .firstName stack => ∀ f ∈ stack, f.WellFormed
  | .afterItem before stack =>
    (∀ v ∈ before, v.isWellFormed = true) ∧ ∀ f ∈ stack, f.WellFormed
  | .name before stack | .colon before _ stack | .afterMember before stack =>
    (∀ p ∈ before, p.2.isWellFormed = true) ∧ ∀ f ∈ stack, f.WellFormed
  | .done v => v.isWellFormed = true

theorem wellFormed_deliver {v : Json} {stack : List Frame} (hv : v.isWellFormed = true)
    (h : ∀ f ∈ stack, f.WellFormed) : (Reader.deliver v stack).WellFormed := by
  cases stack with
  | nil => exact hv
  | cons f stack =>
    obtain ⟨hf, hstack⟩ := List.forall_mem_cons.mp h
    cases f with
    | items before => exact ⟨List.forall_mem_cons.mpr ⟨hv, hf⟩, hstack⟩
    | members before key => exact ⟨List.forall_mem_cons.mpr ⟨hv, hf⟩, hstack⟩

theorem wellFormed_value? {stack : List Frame} {t : Token} {s : Reader} (ht : t.WellFormed)
    (h : ∀ f ∈ stack, f.WellFormed) (hs : Reader.value? stack t = some s) : s.WellFormed := by
  cases t with
  | openBracket | openBrace =>
    simp only [Reader.value?] at hs
    split at hs
    · obtain rfl := Option.some.inj hs
      exact h
    · simp at hs
  | string text =>
    obtain rfl := Option.some.inj hs
    exact wellFormed_deliver rfl h
  | atom v =>
    obtain rfl := Option.some.inj hs
    exact wellFormed_deliver ht h
  | closeBracket | closeBrace | comma | colon => simp [Reader.value?] at hs

theorem wellFormed_step {s s' : Reader} {t : Token} (ht : t.WellFormed) (h : s.WellFormed)
    (hs : s.step t = some s') : s'.WellFormed := by
  -- The parts read so far are kept in reverse, and are put in order when their bracket closes.
  have hreverse : ∀ {vs : List Json}, (∀ v ∈ vs, v.isWellFormed = true) →
      (array vs.reverse).isWellFormed = true := fun hvs =>
    isWellFormed_array.mpr fun v hv => hvs v (List.mem_reverse.mp hv)
  have hmembers : ∀ {ms : Members}, (∀ p ∈ ms, p.2.isWellFormed = true) →
      (ofMembers ms.reverse).isWellFormed = true := fun hms =>
    isWellFormed_ofMembers fun p hp => hms p (List.mem_reverse.mp hp)
  have hnil : ∀ {stack : List Frame}, (∀ f ∈ stack, f.WellFormed) →
      ∀ f ∈ Frame.items [] :: stack, f.WellFormed := fun hstack =>
    List.forall_mem_cons.mpr ⟨fun v hv => absurd hv List.not_mem_nil, hstack⟩
  cases s with
  | value stack => exact wellFormed_value? ht h hs
  | firstItem stack =>
    cases t <;> simp only [Reader.step] at hs
    case closeBracket =>
      obtain rfl := Option.some.inj hs
      exact wellFormed_deliver rfl h
    -- Any other token begins the first item, behind a new frame without items.
    all_goals exact wellFormed_value? ht (hnil h) hs
  | afterItem before stack =>
    cases t <;> simp only [Reader.step, reduceCtorEq] at hs <;> obtain rfl := Option.some.inj hs
    case comma => exact List.forall_mem_cons.mpr h
    case closeBracket => exact wellFormed_deliver (hreverse h.1) h.2
  | firstName stack =>
    cases t <;> simp only [Reader.step, reduceCtorEq] at hs <;> obtain rfl := Option.some.inj hs
    case closeBrace => exact wellFormed_deliver rfl h
    case string => exact ⟨fun p hp => absurd hp List.not_mem_nil, h⟩
  | name before stack =>
    cases t <;> simp only [Reader.step, reduceCtorEq] at hs
    case string =>
      obtain rfl := Option.some.inj hs
      exact h
  | colon before key stack =>
    cases t <;> simp only [Reader.step, reduceCtorEq] at hs
    case colon =>
      obtain rfl := Option.some.inj hs
      exact List.forall_mem_cons.mpr h
  | afterMember before stack =>
    cases t <;> simp only [Reader.step, reduceCtorEq] at hs <;> obtain rfl := Option.some.inj hs
    case comma => exact h
    case closeBrace => exact wellFormed_deliver (hmembers h.1) h.2
  | done v => simp [Reader.step] at hs

theorem wellFormed_run {ts : List Token} {s s' : Reader} (hts : ∀ t ∈ ts, t.WellFormed)
    (h : s.WellFormed) (hs : ts.foldlM Reader.step s = some s') : s'.WellFormed := by
  induction ts generalizing s with
  | nil =>
    obtain rfl := Option.some.inj hs
    exact h
  | cons t ts ih =>
    rw [List.foldlM_cons, Option.bind_eq_bind, Option.bind_eq_some_iff] at hs
    obtain ⟨m, hm, hs⟩ := hs
    obtain ⟨ht, hts⟩ := List.forall_mem_cons.mp hts
    exact ih hts (wellFormed_step ht h hm) hs

theorem isWellFormed_of_ofNumber? {t : NumberText} {v : Json} (h : ofNumber? t = some v) :
    v.isWellFormed = true := by
  rw [ofNumber?] at h
  split at h
  · rename_i hr
    obtain rfl := Option.some.inj h
    exact decide_eq_true hr.2.1
  · split at h
    · obtain rfl := Option.some.inj h
      rfl
    · simp at h

theorem isWellFormed_of_number? {cs : List Char} {v : Json} (h : number? cs = some v) :
    v.isWellFormed = true := by
  rw [number?] at h
  split at h
  · split at h
    · exact isWellFormed_of_ofNumber? h
    · simp at h
  · simp at h

theorem isWellFormed_of_word? {cs : List Char} {v : Json} (h : word? cs = some v) :
    v.isWellFormed = true := by
  simp only [word?] at h
  split at h
  · obtain rfl := Option.some.inj h
    rfl
  · split at h
    · obtain rfl := Option.some.inj h
      rfl
    · split at h
      · obtain rfl := Option.some.inj h
        rfl
      · simp at h

theorem wellFormed_of_next? {c : Char} {rest after : List Char} {t : Token}
    (h : Token.next? c rest = some (t, after)) : t.WellFormed := by
  rw [Token.next?] at h
  split at h
  · rename_i hc
    obtain ⟨rfl, -⟩ := Prod.mk.inj (Option.some.inj h)
    rw [Token.ofChar?.eq_def] at hc
    split at hc <;> first | (cases hc; trivial) | simp at hc
  · split at h
    · split at h
      · obtain ⟨cs, -, heq⟩ := Option.map_eq_some_iff.mp h
        obtain ⟨rfl, -⟩ := Prod.mk.inj heq
        trivial
      · simp at h
    · split at h
      · obtain ⟨v, hv, heq⟩ := Option.map_eq_some_iff.mp h
        obtain ⟨rfl, -⟩ := Prod.mk.inj heq
        exact isWellFormed_of_number? hv
      · obtain ⟨v, hv, heq⟩ := Option.map_eq_some_iff.mp h
        obtain ⟨rfl, -⟩ := Prod.mk.inj heq
        exact isWellFormed_of_word? hv

theorem wellFormed_of_tokens? {cs : List Char} {ts : List Token} (h : tokens? cs = some ts) :
    ∀ t ∈ ts, t.WellFormed := by
  fun_induction tokens? cs generalizing ts with
  | case1 =>
    obtain rfl := Option.some.inj h
    exact fun t ht => absurd ht List.not_mem_nil
  | case2 c rest _ ih => exact ih h
  | case3 c rest _ t after hnext ih =>
    obtain ⟨us, hus, rfl⟩ := Option.map_eq_some_iff.mp h
    exact List.forall_mem_cons.mpr ⟨wellFormed_of_next? hnext, ih hus⟩
  | case4 => simp at h

/-- What the reader reads is well-formed. -/
theorem isWellFormed_of_read? {s : String} {v : Json} (h : read? s = some v) :
    v.isWellFormed = true := by
  rw [read?, readChars?] at h
  split at h
  · simp at h
  · rename_i ts hts
    split at h
    · rename_i w hw
      obtain rfl := Option.some.inj h
      exact wellFormed_run (wellFormed_of_tokens? hts)
        (show Reader.WellFormed (.value []) from fun f hf => absurd hf List.not_mem_nil) hw
    · simp at h

end ListQuery.Json
