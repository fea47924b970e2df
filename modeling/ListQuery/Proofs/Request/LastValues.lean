/-
Parameters count with their last values.

Every parameter has one place in the request that it makes, and there its last value stands.  Where a name
comes more than once, only its last value matters; where it stands among other names matters for the order
of equalities and of what is carried along, and for nothing else.

* `Request.Holds` — what the places of a request say about a name;
* `Request.content?_putAll` — a place holds the last value of its name;
* `Request.equalities_putAll` and `Request.carried_putAll` — the parameters whose order is kept;
* `Request.lastValues_of_ofPairs` — what follows for the request of some parameters.
-/
import ListQuery.Proofs.Request.NamedValues
import ListQuery.Proofs.Request.Parameters

namespace ListQuery

open Numeric

/-! ### Names and their places -/

/-- The names that have a place of their own. -/
def reservedNames : List String :=
  ["filter", "order_by", "direction", "page", "items", "offset", "limit", "text"]

/-- Whether a name is a field's with the mark of equality before it. -/
def IsMarked (name : String) : Prop :=
  equalityMark.toList <+: name.toList ∧ name ≠ equalityMark

instance : DecidablePred IsMarked := fun name =>
  inferInstanceAs (Decidable (equalityMark.toList <+: name.toList ∧ name ≠ equalityMark))

theorem isMarked_iff {name : String} : IsMarked name ↔ ∃ field, equalityField? name = some field := by
  have hlonger (hmark : equalityMark.toList <+: name.toList) :
      name ≠ equalityMark ↔ equalityMark.toList.length < name.toList.length := by
    rw [← not_iff_not, not_not, Nat.not_lt]
    exact ⟨fun h => Nat.le_of_eq (by rw [h]), fun h => String.toList_inj.mp (hmark.eq_of_length_le h).symm⟩
  rw [IsMarked, and_congr_right hlonger, equalityField?, List.prefix_iff_eq_take, eq_comm]
  split <;> simp_all

theorem not_isMarked_of_reserved {name : String} (h : name ∈ reservedNames) : ¬IsMarked name := by
  have hall : ∀ name ∈ reservedNames, ¬IsMarked name := by decide
  exact hall name h

namespace Slot

/-- Whether a place can hold the value of a name, whatever the other places do. -/
def Names : Slot → String → Prop
  | .filter, name => name = "filter"
  | .orderBy, name => name = "order_by"
  | .direction, name => name = "direction"
  | .page, name => name = "page"
  | .items, name => name = "items"
  | .offset, name => name = "offset"
  | .limit, name => name = "limit"
  | .text, name => name = "text"
  | .equality field, name => name = equalityMark ++ field
  | .carried, _ => True

/-- What a place holds. -/
inductive Content where
  | json (v : Json)
  | count (n : Int64)
  | text (s : String)

/-- What a place holds of a value, if the value is one for it. -/
def read? (slot : Slot) (value : String) : Option Content :=
  match slot with
  | .filter => (Json.read? value).map .json
  | .page | .items | .offset | .limit => (integer? (Text.trimChars value.toList)).map .count
  | .orderBy | .direction | .text | .equality _ | .carried => some (.text value)

theorem ofName_of_not_reserved {name : String} (h : name ∉ reservedNames) :
    ofName name = ((equalityField? name).map equality).getD carried := by
  rw [ofName.eq_def]
  split
  case h_9 => cases equalityField? name <;> rfl
  all_goals exact absurd (by decide) h

theorem ofName_of_reserved {name : String} (h : name ∈ reservedNames) :
    (ofName name).Names name ∧ ofName name ≠ .carried ∧ ∀ field, ofName name ≠ .equality field := by
  simp only [reservedNames, List.mem_cons, List.not_mem_nil, or_false] at h
  rcases h with rfl | rfl | rfl | rfl | rfl | rfl | rfl | rfl <;>
    exact ⟨rfl, nofun, nofun⟩

theorem names_ofName (name : String) : (ofName name).Names name := by
  by_cases h : name ∈ reservedNames
  · exact (ofName_of_reserved h).1
  · rw [ofName_of_not_reserved h]
    cases hfield : equalityField? name with
    | none => trivial
    | some field => exact eq_of_equalityField? hfield

theorem ofName_eq_equality_iff {name field : String} :
    ofName name = .equality field ↔ equalityField? name = some field := by
  by_cases h : name ∈ reservedNames
  · have hnone : equalityField? name = none :=
      Option.eq_none_iff_forall_ne_some.mpr fun f hf =>
        not_isMarked_of_reserved h (isMarked_iff.mpr ⟨f, hf⟩)
    simp [hnone, (ofName_of_reserved h).2.2]
  · rw [ofName_of_not_reserved h]
    cases equalityField? name <;> simp

theorem ofName_eq_carried_iff {name : String} :
    ofName name = .carried ↔ name ∉ reservedNames ∧ ¬IsMarked name := by
  by_cases h : name ∈ reservedNames
  · simp [h, (ofName_of_reserved h).2.1]
  · rw [ofName_of_not_reserved h, isMarked_iff]
    cases equalityField? name <;> simp [h]

/-- No two names have the same place, those that are carried along aside. -/
theorem eq_of_names {slot : Slot} (hcarried : slot ≠ .carried) {n name : String} (hn : slot.Names n)
    (hname : slot.Names name) : n = name := by
  cases slot with
  | carried => exact absurd rfl hcarried
  | _ => exact hn.trans hname.symm

end Slot

/-! ### Places of a request -/

namespace Request

/-- What a place of a request holds for a name. -/
def content? (q : Request) (name : String) : Slot → Option Slot.Content
  | .filter => q.filter.map .json
  | .orderBy => q.order.orderBy.map .text
  | .direction => q.order.direction.map .text
  | .page => q.paging.page.map .count
  | .items => q.paging.items.map .count
  | .offset => q.paging.offset.map .count
  | .limit => q.paging.limit.map .count
  | .text => q.text.map .text
  | .equality field => (q.equalities.get? field).map .text
  | .carried => (q.carried.get? name).map .text

/-- Whether a place of a request holds a value of a name. -/
def Holds (q : Request) (name : String) (slot : Slot) (content : Slot.Content) : Prop :=
  slot.Names name ∧ q.content? name slot = some content

theorem settable_iff {name value : String} :
    Settable name value ↔ ((Slot.ofName name).read? value).isSome := by
  rw [Settable, Slot.read?.eq_def]
  cases Slot.ofName name <;> simp

/-- A parameter changes what its place holds, and no other place. -/
theorem content?_put (q : Request) (n v name : String) (slot : Slot) :
    (q.put n v).content? name slot
      = if slot = Slot.ofName n ∧ (slot = .carried → n = name) then slot.read? v
        else q.content? name slot := by
  rw [put]
  generalize Slot.ofName n = changed
  by_cases h : slot = changed
  · subst h
    cases slot with
    | equality field => simp [content?, Slot.read?, Pairs.get?_set]
    | carried =>
      by_cases hn : n = name
      · simp [content?, Slot.read?, hn, Pairs.get?_set]
      · simp [content?, hn, Pairs.get?_set_of_ne (Ne.symm hn)]
    | _ => rfl
  · rw [if_neg fun hboth => h hboth.1]
    cases changed with
    | equality field =>
      cases slot with
      | equality other =>
        have hne : other ≠ field := fun heq => h (heq ▸ rfl)
        rw [content?, Pairs.get?_set_of_ne hne, content?]
      | _ => rfl
    | _ => cases slot <;> first | exact absurd rfl h | simp only [content?]

theorem content?_put_of_names {slot : Slot} {name : String} (hname : slot.Names name) (q : Request)
    (n v : String) :
    (q.put n v).content? name slot
      = if n = name ∧ slot = Slot.ofName name then slot.read? v else q.content? name slot := by
  have hiff : slot = Slot.ofName n ∧ (slot = .carried → n = name) ↔ n = name ∧ slot = Slot.ofName name := by
    constructor
    · rintro ⟨hslot, hcarried⟩
      have hn : n = name := by
        by_cases h : slot = .carried
        · exact hcarried h
        · exact Slot.eq_of_names h (hslot ▸ Slot.names_ofName n) hname
      exact ⟨hn, hn ▸ hslot⟩
    · rintro ⟨rfl, hslot⟩
      exact ⟨hslot, fun _ => rfl⟩
  rw [content?_put, if_congr hiff rfl rfl]

/-- The place of a name holds its last value, and the other places that could hold one are left alone. -/
theorem content?_putAll {slot : Slot} {name : String} (hname : slot.Names name) (q : Request)
    (ps : Pairs) :
    (q.putAll ps).content? name slot
      = if slot = Slot.ofName name then ((ps.last? name).map slot.read?).getD (q.content? name slot)
        else q.content? name slot := by
  induction ps generalizing q with
  | nil => split <;> rfl
  | cons p ps ih =>
    obtain ⟨n, v⟩ := p
    refine (ih (q.put n v)).trans ?_
    rw [content?_put_of_names hname, Pairs.last?_cons]
    by_cases hslot : slot = Slot.ofName name
    · by_cases hn : n = name
      · rw [if_pos hslot, if_pos ⟨hn, hslot⟩, if_pos hslot, if_pos hn]
        cases Pairs.last? ps name <;> rfl
      · rw [if_pos hslot, if_neg fun h => hn h.1, if_pos hslot, if_neg hn, Option.or_none]
    · rw [if_neg hslot, if_neg fun h => hslot h.2, if_neg hslot]

theorem content?_putAll_empty {slot : Slot} {name : String} (hname : slot.Names name) (ps : Pairs) :
    (empty.putAll ps).content? name slot
      = if slot = Slot.ofName name then (ps.last? name).bind slot.read? else none := by
  have hempty : empty.content? name slot = none := by cases slot <;> rfl
  rw [content?_putAll hname, hempty]
  cases ps.last? name <;> rfl

theorem holds_putAll_iff {ps : Pairs} {name : String} {slot : Slot} {content : Slot.Content} :
    (empty.putAll ps).Holds name slot content
      ↔ slot = Slot.ofName name ∧ (ps.last? name).bind slot.read? = some content := by
  constructor
  · rintro ⟨hname, h⟩
    rw [content?_putAll_empty hname] at h
    split at h
    · exact ⟨‹_›, h⟩
    · simp at h
  · rintro ⟨rfl, h⟩
    refine ⟨Slot.names_ofName name, ?_⟩
    rw [content?_putAll_empty (Slot.names_ofName name), if_pos rfl, h]

/-! ### Parameters whose order is kept -/

/-- Named values that each parameter sets under some name, or leaves alone, are the last values of the
parameters that set some. -/
theorem map_part_putAll {part : Request → Pairs} {rename : String → Option String}
    {restore : String → String} (hempty : part empty = [])
    (hput : ∀ q n v, part (q.put n v) = (part q).setAll (Pairs.renamed rename [(n, v)]))
    (hrestore : ∀ n other, rename n = some other → restore other = n) (ps : Pairs) :
    ((part (empty.putAll ps)).map fun p => (restore p.1, p.2))
      = ps.lastValues.filter fun p => (rename p.1).isSome := by
  have hrun : ∀ q, part (q.putAll ps) = (part q).setAll (ps.renamed rename) := by
    induction ps with
    | nil => exact fun _ => rfl
    | cons p ps ih =>
      intro q
      refine (ih (q.put p.1 p.2)).trans ?_
      rw [hput, ← Pairs.setAll_append, ← Pairs.renamed_append]
      rfl
  have hinjective : ∀ n m other, rename n = some other → rename m = some other → n = m :=
    fun n m other hn hm => (hrestore n other hn).symm.trans (hrestore m other hm)
  rw [hrun, hempty, Pairs.setAll_nil, Pairs.lastValues_renamed hinjective, Pairs.map_renamed hrestore]

theorem equalities_putAll (ps : Pairs) :
    ((empty.putAll ps).equalities.map fun p => (equalityMark ++ p.1, p.2))
      = ps.lastValues.filter fun p => IsMarked p.1 := by
  have hput : ∀ q n v, (put q n v).equalities
      = q.equalities.setAll (Pairs.renamed equalityField? [(n, v)]) := by
    intro q n v
    rw [put]
    cases hfield : equalityField? n with
    | some field =>
      rw [Slot.ofName_eq_equality_iff.mpr hfield, Pairs.renamed_cons_of_some hfield]
      rfl
    | none =>
      rw [Pairs.renamed_cons_of_none hfield]
      split
      case h_9 hslot => simp [Slot.ofName_eq_equality_iff.mp hslot] at hfield
      all_goals rfl
  refine (map_part_putAll rfl hput (fun n field h => (eq_of_equalityField? h).symm) ps).trans
    (List.filter_congr fun p _ => ?_)
  rw [Bool.eq_iff_iff, Option.isSome_iff_exists, decide_eq_true_iff, isMarked_iff]

/-- The name of a parameter that is carried along. -/
def carriedName? (name : String) : Option String :=
  if name ∉ reservedNames ∧ ¬IsMarked name then some name else none

theorem carried_putAll (ps : Pairs) :
    (empty.putAll ps).carried = ps.lastValues.filter fun p => p.1 ∉ reservedNames ∧ ¬IsMarked p.1 := by
  have hput : ∀ q n v, (put q n v).carried
      = q.carried.setAll (Pairs.renamed carriedName? [(n, v)]) := by
    intro q n v
    rw [put]
    by_cases hn : n ∉ reservedNames ∧ ¬IsMarked n
    · rw [Slot.ofName_eq_carried_iff.mpr hn, Pairs.renamed_cons_of_some (if_pos hn)]
      rfl
    · rw [Pairs.renamed_cons_of_none (if_neg hn)]
      split
      case h_10 hslot => exact absurd (Slot.ofName_eq_carried_iff.mp hslot) hn
      all_goals rfl
  have hsame : ∀ n name, carriedName? n = some name → id name = n := fun n name h =>
    (Option.some.inj (Option.ite_none_right_eq_some.mp h).2).symm
  refine (List.map_id _).symm.trans ((map_part_putAll rfl hput hsame ps).trans
    (List.filter_congr fun p _ => ?_))
  rw [carriedName?]
  split <;> simp_all

/-! ### Requests alike -/

/-- Whether two requests say the same, the order of equalities and of what is carried along aside. -/
structure SameValues (q q' : Request) : Prop where
  filter : q.filter = q'.filter
  order : q.order = q'.order
  paging : q.paging = q'.paging
  text : q.text = q'.text
  equalities : q.equalities.get? = q'.equalities.get?
  carried : q.carried.get? = q'.carried.get?

theorem sameValues_of_content? {q q' : Request}
    (h : ∀ name slot, slot.Names name → q.content? name slot = q'.content? name slot) :
    q.SameValues q' := by
  have hjson {a b : Option Json} (heq : a.map Slot.Content.json = b.map .json) : a = b :=
    Option.map_injective (fun _ _ => Slot.Content.json.inj) heq
  have hcount {a b : Option Int64} (heq : a.map Slot.Content.count = b.map .count) : a = b :=
    Option.map_injective (fun _ _ => Slot.Content.count.inj) heq
  have htext {a b : Option String} (heq : a.map Slot.Content.text = b.map .text) : a = b :=
    Option.map_injective (fun _ _ => Slot.Content.text.inj) heq
  have horderBy := htext (h _ .orderBy rfl)
  have hdirection := htext (h _ .direction rfl)
  have hpage := hcount (h _ .page rfl)
  have hitems := hcount (h _ .items rfl)
  have hoffset := hcount (h _ .offset rfl)
  have hlimit := hcount (h _ .limit rfl)
  exact {
    filter := hjson (h _ .filter rfl)
    order := congrArg₂ OrderRequest.mk horderBy hdirection
    paging := by
      show PageRequest.mk _ _ _ _ = PageRequest.mk _ _ _ _
      rw [hpage, hitems, hoffset, hlimit]
    text := htext (h _ .text rfl)
    equalities := funext fun field => htext (h _ (.equality field) rfl)
    carried := funext fun name => htext (h name .carried trivial) }

theorem eq_of_sameValues {q q' : Request} (h : q.SameValues q') (hequalities : q.equalities = q'.equalities)
    (hcarried : q.carried = q'.carried) : q = q' := by
  obtain ⟨hfilter, horder, hpaging, htext, -, -⟩ := h
  cases q
  cases q'
  simp_all

/-- What the places hold depends on the last value of each name only. -/
theorem sameValues_putAll {ps ps' : Pairs} (h : ∀ name, ps.last? name = ps'.last? name) :
    (empty.putAll ps).SameValues (empty.putAll ps') := by
  refine sameValues_of_content? fun name slot hname => ?_
  rw [content?_putAll_empty hname, content?_putAll_empty hname, h]

/-! ### The request of some parameters -/

theorem ofPairs_eq_ok_iff {ps : Pairs} {q : Request} :
    ofPairs ps = .ok q ↔ (∀ p ∈ ps, Settable p.1 p.2) ∧ q = empty.putAll ps :=
  setAll_eq_ok_iff

/-- A request that is made of parameters has each of their names in one place, and there its last value;
it has no other names.  Equalities and what is carried along stand in the order in which their names come
first.  The last values alone make the same request, and so do all of the values in another order, as long
as those of one name keep theirs; then only the order of equalities and of what is carried along may be
another one. -/
theorem lastValues_of_ofPairs {ps : Pairs} {q : Request} (h : ofPairs ps = .ok q) :
    (∀ name ∈ ps.map (·.1), ∃ value slot content, ps.last? name = some value
        ∧ slot.read? value = some content
        ∧ ∀ slot' content', q.Holds name slot' content' ↔ slot' = slot ∧ content' = content)
      ∧ (∀ name slot content, q.Holds name slot content → name ∈ ps.map (·.1))
      ∧ (q.equalities.map fun p => (equalityMark ++ p.1, p.2))
        = (ps.lastValues.filter fun p => IsMarked p.1)
      ∧ q.carried = (ps.lastValues.filter fun p => p.1 ∉ reservedNames ∧ ¬IsMarked p.1)
      ∧ ofPairs ps.lastValues = .ok q
      ∧ ∀ ps' : Pairs, (∀ name, ps'.valuesOf name = ps.valuesOf name) →
          ∃ q', ofPairs ps' = .ok q' ∧ q'.SameValues q := by
  obtain ⟨hsettable, rfl⟩ := ofPairs_eq_ok_iff.mp h
  refine ⟨fun name hname => ?_, fun name slot content hholds => ?_, equalities_putAll ps,
    carried_putAll ps, ?_, fun ps' hvalues => ?_⟩
  · obtain ⟨value, hvalue⟩ := Option.isSome_iff_exists.mp (Pairs.last?_isSome_iff.mpr hname)
    have hmem : (name, value) ∈ ps := Pairs.mem_valuesOf_iff.mp (List.mem_of_getLast? hvalue)
    obtain ⟨content, hcontent⟩ := Option.isSome_iff_exists.mp
      (settable_iff.mp (hsettable _ hmem))
    refine ⟨value, Slot.ofName name, content, hvalue, hcontent, fun slot' content' => ?_⟩
    rw [holds_putAll_iff, hvalue, Option.bind_some]
    refine and_congr_right fun hslot => ?_
    rw [hslot, hcontent, Option.some_inj, eq_comm]
  · obtain ⟨-, hsome⟩ := holds_putAll_iff.mp hholds
    obtain ⟨value, hvalue, -⟩ := Option.bind_eq_some_iff.mp hsome
    exact Pairs.last?_isSome_iff.mp (Option.isSome_iff_exists.mpr ⟨value, hvalue⟩)
  · have hlast : ∀ p ∈ ps.lastValues, Settable p.1 p.2 := fun p hp =>
      hsettable p (Pairs.mem_of_mem_lastValues hp)
    have hmark : Function.Injective fun p : String × String => (equalityMark ++ p.1, p.2) := by
      rintro ⟨field, value⟩ ⟨field', value'⟩ heq
      obtain ⟨hfield, hvalue⟩ := Prod.mk.inj heq
      exact Prod.ext ((String.append_right_inj _).mp hfield) hvalue
    refine ofPairs_eq_ok_iff.mpr ⟨hlast, eq_of_sameValues ?_ ?_ ?_⟩
    · exact sameValues_putAll fun name => (ps.last?_lastValues name).symm
    · refine List.map_injective_iff.mpr hmark ?_
      rw [equalities_putAll, equalities_putAll, Pairs.lastValues_lastValues]
    · rw [carried_putAll, carried_putAll, Pairs.lastValues_lastValues]
  · have hmem : ∀ p ∈ ps', p ∈ ps := fun p hp =>
      Pairs.mem_valuesOf_iff.mp (hvalues p.1 ▸ Pairs.mem_valuesOf_iff.mpr hp)
    refine ⟨_, ofPairs_eq_ok_iff.mpr ⟨fun p hp => hsettable p (hmem p hp), rfl⟩, ?_⟩
    exact sameValues_putAll fun name => congrArg List.getLast? (hvalues name)

/-- A page, a field and a view that are each given twice, in two orders. -/
theorem lastValues_of_ofPairs_given_twice :
    let ps : Pairs := [("page", "1"), ("filter_kind", "nut"), ("view", "a"), ("page", " 2 "), ("filter_", "x"),
      ("filter_text", "owl"), ("view", "b"), ("filter_kind", "bolt")]
    let ps' : Pairs := [("filter_text", "owl"), ("view", "a"), ("filter_kind", "nut"), ("filter_kind", "bolt"),
      ("view", "b"), ("filter_", "x"), ("page", "1"), ("page", " 2 ")]
    ∃ q, ofPairs ps = .ok q ∧ q.Holds "page" .page (.count 2) ∧ (∀ content, ¬q.Holds "page" .carried content)
      ∧ q.equalities = [("kind", "bolt"), ("text", "owl")] ∧ q.carried = [("view", "b"), ("filter_", "x")]
      ∧ ofPairs [("page", " 2 "), ("filter_kind", "bolt"), ("view", "b"), ("filter_", "x"),
        ("filter_text", "owl")] = .ok q
      ∧ ∃ q', ofPairs ps' = .ok q' ∧ q'.SameValues q := by
  intro ps ps'
  have h : ofPairs ps = .ok ⟨none, .empty, ⟨some 2, none, none, none⟩, none,
    [("kind", "bolt"), ("text", "owl")], [("view", "b"), ("filter_", "x")]⟩ := rfl
  obtain ⟨hplaces, -, -, -, hlast, horder⟩ := lastValues_of_ofPairs h
  obtain ⟨-, slot, content, -, -, hplace⟩ := hplaces "page" (by decide)
  refine ⟨_, h, ⟨rfl, rfl⟩, fun content' hcarried => ?_, rfl, rfl, hlast, horder ps' fun name => ?_⟩
  · have hpage := ((hplace .page (.count 2)).mp ⟨rfl, rfl⟩).1
    exact absurd (hpage.trans ((hplace _ _).mp hcarried).1.symm) (by decide)
  · simp only [Pairs.valuesOf, ps, ps', List.filter_cons, List.filter_nil, decide_eq_true_eq]
    grind

end Request

end ListQuery
