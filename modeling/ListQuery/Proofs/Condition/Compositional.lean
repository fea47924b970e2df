/-
Filters that are read part by part.

A list of filters under `and` or `or` is read as the group of what its filters are read as, each for itself,
and refused as the first one of them is refused.  The filters stand one level deeper in the list, so they
have to leave a level free.

* `QueryError.SameReport` — errors with one code, about one field and one operator;
* `alike_readEntries`, `alike_read_list` — the entries of a list, and the list as a filter of its own;
* `alike_read_entry` — a filter read for itself and as an entry of a list;
* `read_compositional` — lists of filters under `and` and `or`, and the two forms of `not`.
-/
import ListQuery.Proofs.Condition.Nesting

namespace ListQuery

/-- Whether two errors are reported alike: with one code, about one field and one operator. -/
def QueryError.SameReport (e e' : QueryError) : Prop :=
  e.code = e'.code ∧ e.field? = e'.field? ∧ e.operator? = e'.operator?

theorem QueryError.SameReport.refl (e : QueryError) : e.SameReport e :=
  ⟨rfl, rfl, rfl⟩

namespace Condition

variable {r : Registry} {depth : Nat} {kind : Combinator}

/-! ### One member -/

theorem readMembers_singleton (r : Registry) (depth : Nat) (key : String) (value : Json) :
    readMembers r depth [(key, value)] = readMember r depth key value := by
  rw [readMembers_cons, readMembers]
  cases readMember r depth key value with
  | error e => rfl
  | ok cs => simp [bind, Except.bind, pure, Except.pure]

theorem readMembers_operation {name : String} (hkey : Combinator.ofKey? name = none) (tag : String)
    (operand : Json) : readMembers r depth [(name, .object [(tag, operand)])] = (do
      let f ← r.filterField name
      return [← readOperation f tag operand]) := by
  rw [readMembers_cons, readMember, hkey]
  simp only [readField, readMembers, List.mapM_cons, List.mapM_nil]
  cases r.filterField name with
  | error e => rfl
  | ok f => cases hop : readOperation f tag operand <;> simp [hop, bind, Except.bind, pure, Except.pure]

/-! ### Lists under a combinator -/

section

variable {α : Type} {E : QueryError → QueryError → Prop} {P : String → Test → Prop}
  {Q : Condition → Prop} {g : α → Except QueryError Condition} {f : α → Json}

/-- Where each entry of a list gives one child, the list gives these children in their order. -/
theorem alike_readEntries {as : List α}
    (h : ∀ a ∈ as, Alike E (fun c cs => cs = [c] ∧ Q c) (g a) (readEntry r depth kind (f a))) :
    Alike E (fun cs ds => ds = cs ∧ ∀ c ∈ cs, Q c) (as.mapM g)
      (readEntries r depth kind (as.map f)) := by
  induction as with
  | nil => exact ⟨rfl, fun c hc => absurd hc List.not_mem_nil⟩
  | cons a as ih =>
    obtain ⟨ha, has⟩ := List.forall_mem_cons.mp h
    rw [List.mapM_cons, List.map_cons, readEntries_cons]
    refine ha.bind ?_
    rintro c _ - - ⟨rfl, hc⟩
    refine (ih has).bind ?_
    rintro cs _ - - ⟨rfl, hcs⟩
    exact ⟨rfl, List.forall_mem_cons.mpr ⟨hc, hcs⟩⟩

/-- A filter of one combinator is the group of what the combinator holds. -/
theorem read_group (r : Registry) (kind : Combinator) (v : Json) :
    read r (.object [(kind.key, v)]) = (do
      let c ← join kind (← readGroup r 1 kind v)
      match all [c] with
      | some c => return c
      | none => .error (.filter .empty)) := by
  rw [read, readMembers_cons, readMember, Combinator.ofKey?_key, readMembers]
  simp only [bind_assoc, pure_bind]
  rfl

/-- Two conditions or more make a group, and the group is the whole condition. -/
theorem read_group_of_two_le {v : Json} {cs : List Condition} (hread : readGroup r 1 kind v = .ok cs)
    (htwo : 2 ≤ cs.length) (h : ∀ c ∈ cs, c.Every P) :
    read r (.object [(kind.key, v)]) = .ok (.group kind cs) := by
  have harity := Nat.le_trans (minChildren_le kind) htwo
  have hjoin : join kind cs = .ok (.group kind cs) := by
    rw [join, checkArity, if_neg (Nat.not_lt.mpr harity)]
    rfl
  have hall : all [.group kind cs] = some (.group kind cs) := all_singleton (.group harity h)
  rw [read_group, hread]
  simp only [bind, Except.bind, hjoin, hall]
  rfl

/-- A filter that is one list of two entries or more is the group of what its entries give. -/
theorem alike_read_list {as : List α} (htwo : 2 ≤ as.length)
    (h : ∀ a ∈ as, Alike E (fun c cs => cs = [c] ∧ c.Every P) (g a) (readEntry r 1 kind (f a))) :
    Alike E (fun cs c => c = .group kind cs) (as.mapM g)
      (read r (.object [(kind.key, .array (as.map f))])) := by
  have hentries := alike_readEntries h
  cases hcs : as.mapM g with
  | error e =>
    obtain ⟨e', he', hsame⟩ := hentries.exists_of_error hcs
    have hgroup : readGroup r 1 kind (.array (as.map f)) = .error e' := he'
    rw [read_group, hgroup]
    exact hsame
  | ok cs =>
    obtain ⟨_, hread, rfl, hevery⟩ := hentries.exists_of_ok hcs
    have hgroup : readGroup r 1 kind (.array (as.map f)) = .ok _ := hread
    rw [← length_of_mapM hcs] at htwo
    rw [read_group_of_two_le hgroup htwo hevery]
    rfl

end

/-! ### Filters as entries -/

/-- A filter that leaves a level free is read alike for itself and as an entry of a list, but for the words
about a value that is no filter and about a filter that asks for nothing. -/
theorem alike_read_entry (hkind : kind ≠ .not) {v : Json} (hlevel : ∀ n, v.Nested n → n < maxDepth) :
    Alike QueryError.SameReport (fun c cs => cs = [c] ∧ c.Every fun _ _ => True) (read r v)
      (readEntry r 1 kind v) := by
  cases v with
  | object ms =>
    have hfits : Fits 1 (.object ms) := .of_level (by decide) hlevel
    have hfits' : Fits (1 + 1) (.object ms) := .of_level (by decide) hlevel
    have hmembers : readEntry r 1 kind (.object ms)
        = readMembers r 1 ms >>= entryChildren kind := by
      rw [readEntry, hfits'.checkDepth, readMembers_eq_of_fits hfits' hfits]
      rfl
    rw [read, hmembers]
    refine Alike.bind (Alike.refl QueryError.SameReport.refl (R := Eq) (fun _ => rfl) _) ?_
    rintro cs _ hcs - rfl
    have hentry : entryChildren kind cs = match all cs with
        | some c => .ok [c]
        | none => .error (.filter (.emptyEntry kind)) := by
      cases kind with
      | not => exact absurd rfl hkind
      | and | or => rfl
    rw [hentry]
    cases hall : all cs with
    | none => exact ⟨rfl, rfl, rfl⟩
    | some c => exact ⟨rfl, every_of_all (every_true_of_readMembers hcs) hall⟩
  | null | bool | integer | float | string | array => exact ⟨rfl, rfl, rfl⟩

/-- A list of two filters or more under `and` or `or` is the group of what they are read as. -/
theorem alike_read_filters (hkind : kind ≠ .not) {items : List Json} (htwo : 2 ≤ items.length)
    (hlevel : ∀ v ∈ items, ∀ n, v.Nested n → n < maxDepth) :
    Alike QueryError.SameReport (fun cs c => c = .group kind cs) (items.mapM (read r))
      (read r (.object [(kind.key, .array items)])) := by
  have hlist := alike_read_list (f := id) htwo fun v hv => alike_read_entry (r := r) hkind (hlevel v hv)
  rwa [List.map_id] at hlist

theorem read_list_of_mapM (hkind : kind ≠ .not) {items : List Json} (htwo : 2 ≤ items.length)
    (hlevel : ∀ v ∈ items, ∀ n, v.Nested n → n < maxDepth) {cs : List Condition}
    (h : items.mapM (read r) = .ok cs) :
    read r (.object [(kind.key, .array items)]) = .ok (.group kind cs) := by
  obtain ⟨c, hread, rfl⟩ := (alike_read_filters hkind htwo hlevel).exists_of_ok h
  exact hread

/-- A list of two filters or more under `and` or `or`, each of which leaves a level free, is accepted
exactly if each of them is.  It is read as the group of their conditions in the same order, and refused
with the report about the first filter that is refused.  Under `not` a filter stands for the list of it
alone. -/
theorem read_compositional {r : Registry} :
    (∀ kind : Combinator, kind ≠ .not → ∀ items : List Json, 2 ≤ items.length →
        (∀ v ∈ items, ∀ n, v.Nested n → n < maxDepth) →
        ((∃ c, read r (.object [(kind.key, .array items)]) = .ok c) ↔ ∀ v ∈ items, ∃ c, read r v = .ok c)
          ∧ (∀ cs, items.mapM (read r) = .ok cs →
            read r (.object [(kind.key, .array items)]) = .ok (.group kind cs))
          ∧ ∀ before v after e, items = before ++ v :: after → (∀ w ∈ before, ∃ c, read r w = .ok c) →
            read r v = .error e →
            ∃ e', read r (.object [(kind.key, .array items)]) = .error e' ∧ e.SameReport e')
      ∧ ∀ ms : Json.Members, read r (.object [(Combinator.not.key, .object ms)])
        = read r (.object [(Combinator.not.key, .array [.object ms])]) := by
  constructor
  · intro kind hkind items htwo hlevel
    have halike := alike_read_filters (r := r) hkind htwo hlevel
    refine ⟨?_, fun cs => read_list_of_mapM hkind htwo hlevel, ?_⟩
    · rw [← halike.exists_ok_iff]
      exact exists_mapM_eq_ok_iff
    · rintro before v after e rfl hbefore he
      exact halike.exists_of_error (mapM_eq_error hbefore he after)
  · intro ms
    have hgroup : readGroup r 1 .not (.object ms) = readGroup r 1 .not (.array [.object ms]) := by
      simp only [readGroup, readEntries, entryChildren]
      cases checkDepth (1 + 1) with
      | error e => rfl
      | ok _ => cases readMembers r (1 + 1) ms <;> simp [bind, Except.bind, pure, Except.pure]
    rw [read_group, read_group, hgroup]

/-- A list of filters of two fields, one with a field that does not exist, and a filter that is excluded. -/
theorem read_compositional_parts :
    let low : Json := .object [("id", .object [("lt", .integer 3)])]
    let named : Json := .object [("kind", .object [("contains", .string "b")])]
    let unknown : Json := .object [("size", .object [("eq", .integer 1)])]
    (∃ c d, read .parts low = .ok c ∧ read .parts named = .ok d
        ∧ read .parts (.object [("or", .array [low, named])]) = .ok (.group .or [c, d]))
      ∧ (∃ e e', read .parts unknown = .error e
        ∧ read .parts (.object [("or", .array [low, unknown, named])]) = .error e' ∧ e.SameReport e')
      ∧ read .parts (.object [("not", named)]) = read .parts (.object [("not", .array [named])]) := by
  intro low named unknown
  obtain ⟨hlists, hnot⟩ := read_compositional (r := .parts)
  have hlevel : ∀ items : List Json, levelsOf items < maxDepth →
      ∀ v ∈ items, ∀ n, v.Nested n → n < maxDepth := by
    intro items hless v hv n hn
    exact Nat.lt_of_le_of_lt (Nat.le_trans (nested_le_levels hn) (levels_le_levelsOf hv)) hless
  have htwo := hlists .or (by decide) [low, named] (by decide) (hlevel _ (by decide))
  have hthree := hlists .or (by decide) [low, unknown, named] (by decide) (hlevel _ (by decide))
  refine ⟨⟨_, _, rfl, rfl, htwo.2.1 _ rfl⟩, ?_, hnot _⟩
  have hlow : ∀ w ∈ [low], ∃ c, read .parts w = .ok c := List.forall_mem_singleton.mpr ⟨_, rfl⟩
  obtain ⟨e', he', hsame⟩ := hthree.2.2 [low] unknown [named] _ rfl hlow rfl
  exact ⟨_, e', rfl, he', hsame⟩

end Condition

end ListQuery
