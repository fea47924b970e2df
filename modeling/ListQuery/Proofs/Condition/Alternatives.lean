/-
The entries of an object under `or`.

The alternatives of an `or` may be given as a list of filters or as one object.  In a list the operators of
a field are joined by a conjunction, as they are everywhere else in a filter.  In an object each operator is
an alternative of its own, so a field with two bounds is an interval in a list, and hardly any restriction
in an object.

* `apart` — an entry of an object with each operator of its field standing alone;
* `exists_conditions_of_entry` — what an accepted entry gives as a filter, in an object and taken apart;
* `Truth.any_all_or` — alternatives that are conjunctions against all of their members as alternatives;
* `EntriesRead` — entries that are accepted, with what each of them is read as;
* `read_or_object` — the object is read as the list of its entries taken apart; it is the list of its
  entries exactly if no field has several operators, and otherwise it may be true on more rows.
-/
import ListQuery.Proofs.Condition.Compositional
import ListQuery.Proofs.Condition.Value
import ListQuery.Proofs.Plan.Validated
import Mathlib.Data.List.Basic
import Mathlib.Tactic.Choose

namespace ListQuery

/-! ### Conjunctions as alternatives -/

namespace Truth

theorem or_or_or_comm (a b c d : Truth) : (a.or b).or (c.or d) = (a.or c).or (b.or d) := by
  cases a <;> cases b <;> cases c <;> cases d <;> rfl

theorem and_or_or (a b c : Truth) : (a.and b).or (a.or c) = a.or c := by
  cases a <;> cases b <;> cases c <;> rfl

theorem all_or_any {ts : List Truth} (h : ts ≠ []) : (all ts).or (any ts) = any ts := by
  cases ts with
  | nil => exact absurd rfl h
  | cons t ts => exact and_or_or t (all ts) (any ts)

/-- A disjunction of conjunctions adds nothing to the disjunction of all their members. -/
theorem any_all_or {tss : List (List Truth)} (h : ∀ ts ∈ tss, ts ≠ []) :
    (any (tss.map all)).or (any tss.flatten) = any tss.flatten := by
  induction tss with
  | nil => rfl
  | cons ts tss ih =>
    obtain ⟨hts, htss⟩ := List.forall_mem_cons.mp h
    rw [List.flatten_cons, any_append]
    calc
      (any ((ts :: tss).map all)).or ((any ts).or (any tss.flatten))
        = ((all ts).or (any ts)).or ((any (tss.map all)).or (any tss.flatten)) :=
          or_or_or_comm _ _ _ _
      _ = (any ts).or (any tss.flatten) := by rw [all_or_any hts, ih htss]

theorem eq_true_of_or {a b : Truth} (h : a.or b = b) (ha : a = .true) : b = .true := by
  rw [ha] at h
  exact h.symm

theorem eq_false_of_or {a b : Truth} (h : a.or b = b) (hb : b = .false) : a = .false := by
  rwa [hb, or_false] at h

end Truth

/-! ### Lists of one member each -/

section

variable {α β : Type} {f : α → List β} {g : α → β} {as : List α}

theorem length_le_length_flatMap (hne : ∀ a ∈ as, f a ≠ []) : as.length ≤ (as.flatMap f).length := by
  induction as with
  | nil => exact Nat.le_refl 0
  | cons a as ih =>
    obtain ⟨ha, has⟩ := List.forall_mem_cons.mp hne
    have hpos := List.length_pos_iff.mpr ha
    have hrest := ih has
    rw [List.flatMap_cons, List.length_append, List.length_cons]
    omega

/-- Lists that are not empty are joined to as many members as there are lists exactly if each list has
one. -/
theorem flatMap_eq_map_iff (hne : ∀ a ∈ as, f a ≠ [])
    (hone : ∀ a ∈ as, (f a).length = 1 → f a = [g a]) :
    as.flatMap f = as.map g ↔ ∀ a ∈ as, (f a).length = 1 := by
  constructor
  · intro h
    have hlength := congrArg List.length h
    rw [List.length_map] at hlength
    clear h hone
    induction as with
    | nil => exact fun a ha => absurd ha List.not_mem_nil
    | cons a as ih =>
      obtain ⟨ha, has⟩ := List.forall_mem_cons.mp hne
      have hpos := List.length_pos_iff.mpr ha
      have hrest := length_le_length_flatMap has
      rw [List.flatMap_cons, List.length_append, List.length_cons] at hlength
      exact List.forall_mem_cons.mpr ⟨by omega, ih has (by omega)⟩
  · intro h
    rw [List.map_eq_flatMap]
    exact List.flatMap_congr fun a ha => hone a ha (h a ha)

end

namespace Condition

variable {r : Registry} {m : String × Json} {c : Condition}

/-! ### One entry -/

/-- An entry of an object with each operator of its field standing alone. -/
def apart (m : String × Json) : List (String × Json) :=
  match Combinator.ofKey? m.1, m.2 with
  | none, .object operations => operations.map fun operation => (m.1, .object [operation])
  | _, _ => [m]

theorem read_operation {name tag : String} {operand : Json} {f : Field}
    (hkey : Combinator.ofKey? name = none) (hf : r.filterField name = .ok f)
    (h : readOperation f tag operand = .ok c) :
    read r (.object [(name, .object [(tag, operand)])]) = .ok c := by
  have hmembers : readMembers r 1 [(name, .object [(tag, operand)])] = .ok [c] := by
    rw [readMembers_operation hkey, hf]
    simp only [bind, Except.bind, h]
    rfl
  have hevery := every_true_of_readMembers hmembers c List.mem_cons_self
  rw [read, hmembers]
  simp only [bind, Except.bind, all_singleton hevery]
  rfl

/-- The operators of a field are read one by one. -/
theorem read_operations {name : String} {operations : Json} {cs : List Condition}
    (hkey : Combinator.ofKey? name = none) (h : readField r name operations = .ok cs) :
    ((apart (name, operations)).map fun a => .object [a]).mapM (read r) = .ok cs := by
  obtain ⟨f, hf, h⟩ := bind_eq_ok_iff.mp h
  split at h
  · simp at h
  · rw [apart, hkey, List.map_map, List.mapM_map]
    exact mapM_eq_ok_mono (fun operation d hd => read_operation hkey hf hd) h
  · simp at h

/-- What an accepted entry asks for: its conditions, whose conjunction is the entry as a filter, and which
are read one by one from the entry taken apart. -/
theorem exists_conditions_of_entry (hlevel : ∀ n, (Json.object [m]).Nested n → n < maxDepth)
    (h : read r (.object [m]) = .ok c) :
    ∃ cs, readMember r 2 m.1 m.2 = .ok cs ∧ all cs = some c ∧ (∀ d ∈ cs, d.Every fun _ _ => True)
      ∧ ((apart m).map fun a => .object [a]).mapM (read r) = .ok cs := by
  obtain ⟨cs, hcs, hall⟩ := bind_eq_ok_iff.mp h
  have hall : all cs = some c := by
    split at hall
    · rename_i d hd
      rw [hd, pure_eq_ok_iff.mp hall]
    · simp at hall
  have hfits : Fits 1 (.object [m]) := .of_level (by decide) hlevel
  have hfits' : Fits 2 (.object [m]) := .of_level (by decide) hlevel
  have hmember : readMember r 2 m.1 m.2 = .ok cs := by
    rw [← readMembers_singleton, readMembers_eq_of_fits hfits' hfits]
    exact hcs
  refine ⟨cs, hmember, hall, every_true_of_readMembers hcs, ?_⟩
  obtain ⟨key, value⟩ := m
  cases hkey : Combinator.ofKey? key with
  | none =>
    rw [readMember, hkey] at hmember
    exact read_operations hkey hmember
  | some kind =>
    -- A group is one condition, and it is the whole entry.
    obtain ⟨d, rfl⟩ : ∃ d, cs = [d] := by
      rw [readMember, hkey] at hmember
      obtain ⟨children, -, hmember⟩ := bind_eq_ok_iff.mp hmember
      obtain ⟨d, -, hmember⟩ := bind_eq_ok_iff.mp hmember
      exact ⟨d, (pure_eq_ok_iff.mp hmember).symm⟩
    have hevery := every_true_of_readMembers hcs d List.mem_cons_self
    obtain rfl := Option.some.inj ((all_singleton hevery).symm.trans hall)
    rw [apart, hkey]
    exact mapM_cons_eq_ok_iff.mpr ⟨d, [], h, mapM_nil_eq_ok_iff.mpr rfl, rfl⟩

/-! ### Objects of entries -/

theorem readMembers_eq_ok {depth : Nat} {ms : Json.Members} {conditions : String × Json → List Condition}
    (h : ∀ m ∈ ms, readMember r depth m.1 m.2 = .ok (conditions m)) :
    readMembers r depth ms = .ok (ms.flatMap conditions) := by
  induction ms with
  | nil => rfl
  | cons m ms ih =>
    obtain ⟨hm, hms⟩ := List.forall_mem_cons.mp h
    rw [readMembers_cons, hm, ih hms]
    rfl

/-- No more filters stand in each other in an entry taken apart than in the entry. -/
theorem nested_of_mem_apart {a : String × Json} (ha : a ∈ apart m) {n : Nat}
    (h : (Json.object [a]).Nested n) : (Json.object [m]).Nested n := by
  rw [apart.eq_def] at ha
  split at ha
  · rename_i hkey _
    obtain ⟨operation, -, rfl⟩ := List.mem_map.mp ha
    cases h with
    | one => exact .one _
    | under hmem hheld h =>
      have hname := congrArg Prod.fst (List.mem_singleton.mp hmem)
      rw [← hname, Combinator.ofKey?_key] at hkey
      simp at hkey
  · rwa [← List.mem_singleton.mp ha]

/-- Where entries are conjunctions, the entries as alternatives add nothing to all of their conditions as
alternatives. -/
theorem value_or_entries {α : Type} {as : List α} {conditions : α → List Condition}
    {entry : α → Condition} (hne : ∀ a ∈ as, conditions a ≠ [])
    (hall : ∀ a ∈ as, all (conditions a) = some (entry a)) (t : TestValues) (table : TableRef) :
    (value t table (.group .or (as.map entry))).or (value t table (.group .or (as.flatMap conditions)))
      = value t table (.group .or (as.flatMap conditions)) := by
  have hentries : (as.map entry).map (value t table)
      = (as.map fun a => (conditions a).map (value t table)).map Truth.all := by
    rw [List.map_map, List.map_map]
    refine List.map_congr_left fun a ha => ?_
    have hvalue : (all (conditions a)).elim .true (value t table)
        = Truth.all ((conditions a).map (value t table)) := value_all (conditions a)
    rwa [hall a ha] at hvalue
  have hconditions : (as.flatMap conditions).map (value t table)
      = (as.map fun a => (conditions a).map (value t table)).flatten := by
    rw [List.map_flatMap, List.flatMap_def]
  simp only [value, Combinator.truth, values_eq_map]
  rw [hentries, hconditions]
  refine Truth.any_all_or fun ts hts => ?_
  obtain ⟨a, ha, rfl⟩ := List.mem_map.mp hts
  exact fun hnil => hne a ha (List.map_eq_nil_iff.mp hnil)

/-- Entries of an object, each accepted for itself and leaving a level free, with what they are read as. -/
structure EntriesRead (r : Registry) (ms : Json.Members) (entry : String × Json → Condition)
    (conditions : String × Json → List Condition) : Prop where
  level : ∀ m ∈ ms, ∀ n, (Json.object [m]).Nested n → n < maxDepth
  filter : ∀ m ∈ ms, read r (.object [m]) = .ok (entry m)
  member : ∀ m ∈ ms, readMember r 2 m.1 m.2 = .ok (conditions m)
  all_eq : ∀ m ∈ ms, all (conditions m) = some (entry m)
  every : ∀ m ∈ ms, ∀ c ∈ conditions m, c.Every fun _ _ => True
  apart : ∀ m ∈ ms, ((apart m).map fun a => .object [a]).mapM (read r) = .ok (conditions m)

theorem exists_entriesRead {ms : Json.Members} (h : ∀ m ∈ ms, (∃ c, read r (.object [m]) = .ok c)
      ∧ ∀ n, (Json.object [m]).Nested n → n < maxDepth) :
    ∃ entry conditions, EntriesRead r ms entry conditions := by
  have hnonempty : Nonempty Condition := ⟨.group .and []⟩
  have hread : ∀ m ∈ ms, ∃ c cs, read r (.object [m]) = .ok c ∧ readMember r 2 m.1 m.2 = .ok cs
      ∧ all cs = some c ∧ (∀ d ∈ cs, d.Every fun _ _ => True)
      ∧ ((apart m).map fun a => .object [a]).mapM (read r) = .ok cs := by
    intro m hm
    obtain ⟨⟨c, hc⟩, hlevel⟩ := h m hm
    obtain ⟨cs, hcs⟩ := exists_conditions_of_entry hlevel hc
    exact ⟨c, cs, hc, hcs⟩
  choose! entry conditions hentry hmember hall hevery hapart using hread
  exact ⟨entry, conditions, fun m hm => (h m hm).2, hentry, hmember, hall, hevery, hapart⟩

namespace EntriesRead

variable {ms : Json.Members} {entry : String × Json → Condition}
  {conditions : String × Json → List Condition} (h : EntriesRead r ms entry conditions)

include h

theorem ne_nil : ∀ m ∈ ms, conditions m ≠ [] := by
  intro m hm hnil
  have hsome := h.all_eq m hm
  rw [hnil] at hsome
  simp [all, collapse] at hsome

theorem eq_singleton : ∀ m ∈ ms, (conditions m).length = 1 → conditions m = [entry m] := by
  intro m hm hlength
  obtain ⟨c, hc⟩ := List.length_eq_one_iff.mp hlength
  have hsome := h.all_eq m hm
  rw [hc, all_singleton (h.every m hm c (hc ▸ List.mem_cons_self))] at hsome
  rw [hc, Option.some.inj hsome]

theorem length_apart : ∀ m ∈ ms, (Condition.apart m).length = (conditions m).length := by
  intro m hm
  rw [length_of_mapM (h.apart m hm), List.length_map]

theorem two_le_length (htwo : 2 ≤ ms.length) : 2 ≤ (ms.flatMap conditions).length :=
  Nat.le_trans htwo (length_le_length_flatMap h.ne_nil)

theorem read_object (htwo : 2 ≤ ms.length) :
    read r (.object [(Combinator.or.key, .object ms)]) = .ok (.group .or (ms.flatMap conditions)) := by
  have hgroup : readGroup r 1 .or (.object ms) = .ok (ms.flatMap conditions) :=
    readMembers_eq_ok h.member
  refine read_group_of_two_le (P := fun _ _ => True) hgroup (h.two_le_length htwo) fun c hc => ?_
  obtain ⟨m, hm, hc⟩ := List.mem_flatMap.mp hc
  exact h.every m hm c hc

theorem read_list (htwo : 2 ≤ ms.length) :
    read r (.object [(Combinator.or.key, .array (ms.map fun m => .object [m]))])
      = .ok (.group .or (ms.map entry)) := by
  have hfilters : (ms.map fun m => Json.object [m]).mapM (read r) = .ok (ms.map entry) := by
    rw [List.mapM_map]
    exact mapM_eq_ok_of_forall h.filter
  refine read_list_of_mapM (by decide) (by rwa [List.length_map]) ?_ hfilters
  intro v hv
  obtain ⟨m, hm, rfl⟩ := List.mem_map.mp hv
  exact h.level m hm

theorem read_apart (htwo : 2 ≤ ms.length) :
    read r (.object [(Combinator.or.key,
        .array ((ms.flatMap Condition.apart).map fun a => .object [a]))])
      = .ok (.group .or (ms.flatMap conditions)) := by
  have hfilters : ((ms.flatMap Condition.apart).map fun a => Json.object [a]).mapM (read r)
      = .ok (ms.flatMap conditions) := by
    rw [List.map_flatMap]
    exact mapM_flatMap_eq_ok h.apart
  refine read_list_of_mapM (by decide) ?_ ?_ hfilters
  · rw [← length_of_mapM hfilters]
    exact h.two_le_length htwo
  · intro v hv n hn
    obtain ⟨a, ha, rfl⟩ := List.mem_map.mp hv
    obtain ⟨m, hm, ha⟩ := List.mem_flatMap.mp ha
    exact h.level m hm n (nested_of_mem_apart ha hn)

/-- The conditions of the entries are the entries exactly if no entry can be taken apart. -/
theorem flatMap_eq_map_iff :
    ms.flatMap conditions = ms.map entry ↔ ∀ m ∈ ms, (Condition.apart m).length = 1 := by
  rw [ListQuery.flatMap_eq_map_iff h.ne_nil h.eq_singleton]
  exact forall₂_congr fun m hm => by rw [h.length_apart m hm]

end EntriesRead

/-- An object of entries under `or`, each of which is accepted for itself and leaves a level free, is
accepted, and so is the list of its entries.  The object is read as the list of its entries with the
operators of each field taken apart.  So both are the same tree, with the same predicate, exactly if no
field has several operators; otherwise the object's predicate is true where the list's is, and perhaps on
other rows. -/
theorem read_or_object {r : Registry} (hr : r.Built) {ms : Json.Members} (htwo : 2 ≤ ms.length)
    (hentries : ∀ m ∈ ms, (∃ c, read r (.object [m]) = .ok c)
      ∧ ∀ n, (Json.object [m]).Nested n → n < maxDepth) :
    ∃ c c', read r (.object [(Combinator.or.key, .object ms)]) = .ok c
      ∧ read r (.object [(Combinator.or.key, .array (ms.map fun m => .object [m]))]) = .ok c'
      ∧ read r (.object [(Combinator.or.key, .array ((ms.flatMap apart).map fun a => .object [a]))])
        = .ok c
      ∧ (c = c' ↔ ∀ m ∈ ms, (apart m).length = 1)
      ∧ ∀ alias? : Option String, ∃ p p', c.compile ⟨r, alias?⟩ = .ok p ∧ c'.compile ⟨r, alias?⟩ = .ok p'
        ∧ ∀ t : TestValues, ((∀ m ∈ ms, (apart m).length = 1) → p.value t = p'.value t)
          ∧ (p'.value t = .true → p.value t = .true) ∧ (p.value t = .false → p'.value t = .false) := by
  obtain ⟨entry, conditions, h⟩ := exists_entriesRead hentries
  have hobject := h.read_object htwo
  have hlist := h.read_list htwo
  refine ⟨_, _, hobject, hlist, h.read_apart htwo, ?_, fun alias? => ?_⟩
  · rw [← h.flatMap_eq_map_iff, group.injEq]
    exact and_iff_right rfl
  · have hconsistent := Registry.consistent_of_built hr
    obtain ⟨p, hp⟩ := compile_of_every (t := ⟨r, alias?⟩) (every_of_validated hconsistent (.read hobject))
    obtain ⟨p', hp'⟩ := compile_of_every (t := ⟨r, alias?⟩) (every_of_validated hconsistent (.read hlist))
    refine ⟨p, p', hp, hp', fun t => ?_⟩
    have hor := value_or_entries h.ne_nil h.all_eq t ⟨r, alias?⟩
    rw [← value_of_compile hp, ← value_of_compile hp'] at hor
    refine ⟨fun hsingle => ?_, Truth.eq_true_of_or hor, Truth.eq_false_of_or hor⟩
    rw [value_of_compile hp, value_of_compile hp', h.flatMap_eq_map_iff.mpr hsingle]

/-- An interval of numbers in an object under `or`, on a row above it: the interval's lower bound is an
alternative of its own in the object, and the list has no alternative that is true. -/
theorem read_or_object_parts :
    let interval : String × Json := ("id", .object [("gteq", .integer 1), ("lt", .integer 5)])
    let kind : String × Json := ("kind", .object [("eq", .string "a")])
    let above : TestValues :=
      ⟨fun _ op _ => if op = .gteq then .true else .false, fun _ => .false, fun _ => .true,
        fun _ _ _ => .false, fun _ _ => .false, fun _ _ _ _ => .false⟩
    ∃ c c' p p', read .parts (.object [("or", .object [interval, kind])]) = .ok c
      ∧ read .parts (.object [("or", .array [.object [interval], .object [kind]])]) = .ok c'
      ∧ c ≠ c' ∧ c.compile ⟨.parts, none⟩ = .ok p ∧ c'.compile ⟨.parts, none⟩ = .ok p'
      ∧ p.value above = .true ∧ p'.value above = .false := by
  intro interval kind above
  have hentries : ∀ m ∈ [interval, kind], (∃ c, read .parts (.object [m]) = .ok c)
      ∧ ∀ n, (Json.object [m]).Nested n → n < maxDepth := by
    refine List.forall_mem_cons.mpr ⟨⟨⟨_, rfl⟩, ?_⟩, List.forall_mem_singleton.mpr ⟨⟨_, rfl⟩, ?_⟩⟩
    · exact fun n hn => Nat.lt_of_le_of_lt (nested_le_levels hn) (by decide)
    · exact fun n hn => Nat.lt_of_le_of_lt (nested_le_levels hn) (by decide)
  obtain ⟨c, c', hc, hc', -, hiff, hpredicates⟩ :=
    read_or_object Registry.built_parts (by decide) hentries
  obtain ⟨p, p', hp, hp', -⟩ := hpredicates none
  have hseveral : ¬ ∀ m ∈ [interval, kind], (apart m).length = 1 := by decide
  refine ⟨c, c', p, p', hc, hc', fun h => hseveral (hiff.mp h), hp, hp', ?_⟩
  cases hc
  cases hc'
  cases hp
  cases hp'
  decide

end Condition

end ListQuery
