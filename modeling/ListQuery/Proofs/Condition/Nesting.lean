/-
Filters in each other, and what the limit on them means.

A combinator of a filter holds another filter or a list of them, and these hold filters again.  The reader
refuses a filter that is too deep inside others, and the depth is of no other use to it: filters that fit
are read as they are at any other depth where they fit.

* `Json.Nested` — the filters that stand in each other, as many as are counted;
* `nested_le_levels` — they are no more than the levels of the outermost filter;
* `Fits` — no filter in an object at some depth is too deep;
* `readMembers_eq_of_fits` — what is read does not depend on the depth;
* `nesting_of_read` — in an accepted filter no more filters stand in each other than are allowed, and its
  condition has at most one level more than twice as many; there are conditions that have so many.
-/
import ListQuery.Proofs.Condition.EchoLevels

namespace ListQuery

theorem Combinator.key_of_ofKey? {key : String} {kind : Combinator} (h : ofKey? key = some kind) :
    key = kind.key := by
  rw [ofKey?.eq_def] at h
  split at h
  · obtain rfl := Option.some.inj h
    rfl
  · obtain rfl := Option.some.inj h
    rfl
  · obtain rfl := Option.some.inj h
    rfl
  · simp at h

namespace Json

/-- Whether a filter is what a combinator holds, alone or in a list. -/
inductive Holds : Json → Json → Prop where
  | alone (members : Members) : Holds (.object members) (.object members)
  | listed {items : List Json} {members : Members} (h : .object members ∈ items) :
      Holds (.array items) (.object members)

/-- Whether as many filters stand in each other, from a filter inwards: each one but the first is held by a
combinator of the one before it. -/
inductive Nested : Nat → Json → Prop where
  | one (members : Members) : Nested 1 (.object members)
  | under {kind : Combinator} {value inner : Json} {members : Members} {n : Nat}
      (hmem : (kind.key, value) ∈ members) (hheld : value.Holds inner) (h : Nested n inner) :
      Nested (n + 1) (.object members)

theorem Nested.cons {ms : Members} {n : Nat} (h : Nested n (.object ms)) (m : String × Json) :
    Nested n (.object (m :: ms)) := by
  cases h with
  | one => exact .one _
  | under hmem hheld h => exact .under (List.mem_cons_of_mem _ hmem) hheld h

end Json

namespace Condition

open Json

variable {ms : Members} {value inner : Json} {kind : Combinator} {n : Nat}

/-! ### Levels -/

theorem levels_le_levelsBelow (hmem : (kind.key, value) ∈ ms) : levels value ≤ levelsBelow ms := by
  induction ms with
  | nil => exact absurd hmem List.not_mem_nil
  | cons m rest ih =>
    rcases List.mem_cons.mp hmem with rfl | hmem
    · simp only [levelsBelow, Combinator.ofKey?_key]
      exact Nat.le_max_left _ _
    · refine Nat.le_trans (ih hmem) ?_
      rw [levelsBelow]
      split
      · exact Nat.le_max_right _ _
      · exact Nat.le_refl _

theorem levels_le_levelsOf {items : List Json} {v : Json} (h : v ∈ items) :
    levels v ≤ levelsOf items := by
  induction items with
  | nil => exact absurd h List.not_mem_nil
  | cons w rest ih =>
    rw [levelsOf]
    rcases List.mem_cons.mp h with rfl | h
    · exact Nat.le_max_left _ _
    · exact Nat.le_trans (ih h) (Nat.le_max_right _ _)

theorem levels_le_of_holds (h : value.Holds inner) : levels inner ≤ levels value := by
  cases h with
  | alone => exact Nat.le_refl _
  | listed hitem => exact levels_le_levelsOf hitem

/-- Filters that stand in each other are no more than the levels of the outermost one. -/
theorem nested_le_levels {v : Json} (h : v.Nested n) : n ≤ levels v := by
  induction h with
  | one ms => exact Nat.le_add_right 1 _
  | under hmem hheld _ ih =>
    have hinner := levels_le_of_holds hheld
    have hbelow := levels_le_levelsBelow hmem
    rw [levels]
    omega

/-! ### Filters that fit -/

/-- Whether a filter at a depth is not too deep, and no filter in it is. -/
def Fits (depth : Nat) (v : Json) : Prop :=
  ∀ n, v.Nested n → depth + n ≤ maxDepth + 1

variable {r : Registry} {d d' : Nat}

theorem Fits.checkDepth (h : Fits d (.object ms)) : checkDepth d = .ok () :=
  if_pos (Nat.le_of_succ_le_succ (h 1 (.one ms)))

theorem Fits.tail {m : String × Json} (h : Fits d (.object (m :: ms))) : Fits d (.object ms) :=
  fun n hn => h n (hn.cons m)

theorem Fits.of_holds (h : Fits d (.object ms)) (hmem : (kind.key, value) ∈ ms)
    (hheld : value.Holds inner) : Fits (d + 1) inner := by
  intro n hn
  have hone := h (n + 1) (.under hmem hheld hn)
  omega

/-- A filter that leaves a level free fits as a filter of its own and in a combinator of another one. -/
theorem Fits.of_level {v : Json} (hd : d ≤ 2) (h : ∀ n, v.Nested n → n < maxDepth) : Fits d v := by
  intro n hn
  have hless := h n hn
  omega

mutual

/-- The members of a filter that fits at two depths are read alike at both. -/
theorem readMembers_eq_of_fits {d d' : Nat} : ∀ {ms : List (String × Json)}, Fits d (.object ms) →
    Fits d' (.object ms) → readMembers r d ms = readMembers r d' ms
  | [], _, _ => rfl
  | (key, value) :: rest, h, h' => by
    rw [readMembers_cons, readMembers_cons, readMembers_eq_of_fits h.tail h'.tail]
    have hhere : readMember r d key value = readMember r d' key value := by
      rw [readMember, readMember]
      cases hkey : Combinator.ofKey? key with
      | none => rfl
      | some kind =>
        obtain rfl := Combinator.key_of_ofKey? hkey
        have hgroup : readGroup r d kind value = readGroup r d' kind value :=
          readGroup_eq_of_fits (fun _ hheld => h.of_holds List.mem_cons_self hheld)
            fun _ hheld => h'.of_holds List.mem_cons_self hheld
        simp only [hgroup]
    rw [hhere]

theorem readGroup_eq_of_fits {d d' : Nat} {kind : Combinator} : ∀ {v : Json},
    (∀ inner, v.Holds inner → Fits (d + 1) inner) → (∀ inner, v.Holds inner → Fits (d' + 1) inner) →
      readGroup r d kind v = readGroup r d' kind v
  | .array items, h, h' =>
    readEntries_eq_of_fits (fun _ hitem => h _ (.listed hitem)) fun _ hitem => h' _ (.listed hitem)
  | .object ms, h, h' => by
    have hfits := h _ (.alone ms)
    have hfits' := h' _ (.alone ms)
    simp only [readGroup, hfits.checkDepth, hfits'.checkDepth, readMembers_eq_of_fits hfits hfits']
  | .null, _, _ | .bool _, _, _ | .integer _, _, _ | .float _, _, _ | .string _, _, _ => rfl

theorem readEntries_eq_of_fits {d d' : Nat} {kind : Combinator} : ∀ {items : List Json},
    (∀ ms, .object ms ∈ items → Fits (d + 1) (.object ms)) →
      (∀ ms, .object ms ∈ items → Fits (d' + 1) (.object ms)) →
      readEntries r d kind items = readEntries r d' kind items
  | [], _, _ => rfl
  | .object ms :: rest, h, h' => by
    have hfits := h ms List.mem_cons_self
    have hfits' := h' ms List.mem_cons_self
    have hrest : readEntries r d kind rest = readEntries r d' kind rest :=
      readEntries_eq_of_fits (fun _ hmem => h _ (List.mem_cons_of_mem _ hmem))
        fun _ hmem => h' _ (List.mem_cons_of_mem _ hmem)
    simp only [readEntries, hfits.checkDepth, hfits'.checkDepth, readMembers_eq_of_fits hfits hfits',
      hrest]
  | .null :: _, _, _ | .bool _ :: _, _, _ | .integer _ :: _, _, _ | .float _ :: _, _, _
  | .string _ :: _, _, _ | .array _ :: _, _, _ => rfl

end

/-! ### Accepted filters -/

/-- In an accepted filter no more filters stand in each other than are allowed, and its condition has at
most one level more than twice as many.  Some condition of an accepted filter has so many levels. -/
theorem nesting_of_read :
    (∀ (r : Registry) (raw : Json) (c : Condition), read r raw = .ok c →
        (∀ n, raw.Nested n → n ≤ maxDepth) ∧ c.depth ≤ 2 * maxDepth + 1)
      ∧ ∃ (r : Registry) (raw : Json) (c : Condition), r.Built ∧ raw.isWellFormed = true
        ∧ read r raw = .ok c ∧ c.depth = 2 * maxDepth + 1 := by
  constructor
  · intro r raw c h
    obtain ⟨hfits, -, hmost⟩ := spans_of_read h
    rw [depthOf_singleton] at hmost
    refine ⟨fun n hn => ?_, by omega⟩
    have hlevels := nested_le_levels hn
    omega
  · obtain ⟨raw, c, hw, -, hread, hdepth⟩ := exists_read_depth_eq (n := maxDepth) (by decide) (Nat.le_refl _)
    exact ⟨_, raw, c, Registry.built_ofTextField "parts" "kind", hw, hread, hdepth⟩

/-- A filter that is excluded in an alternative. -/
theorem nesting_of_read_parts :
    let named : Json := .object [("kind", .object [("contains", .string "b")])]
    let low : Json := .object [("id", .object [("lt", .integer 3)])]
    let raw : Json := .object [("or", .array [low, .object [("not", named)]])]
    raw.Nested 3 ∧ ∃ c, read .parts raw = .ok c ∧ 3 ≤ maxDepth ∧ c.depth ≤ 2 * maxDepth + 1 := by
  intro named low raw
  have hnot : (Combinator.not.key, named) ∈ [("not", named)] := List.mem_cons_self
  have hor : (Combinator.or.key, Json.array [low, .object [("not", named)]])
      ∈ [("or", .array [low, .object [("not", named)]])] := List.mem_cons_self
  have hheld : (Json.array [low, .object [("not", named)]]).Holds (.object [("not", named)]) :=
    .listed (List.mem_cons_of_mem _ List.mem_cons_self)
  have hnested : raw.Nested 3 := .under hor hheld (.under hnot (.alone _) (.one _))
  obtain ⟨c, hc⟩ : ∃ c, read .parts raw = .ok c := ⟨_, rfl⟩
  obtain ⟨hlevels, hdepth⟩ := nesting_of_read.1 .parts raw c hc
  exact ⟨hnested, c, hc, hlevels 3 hnested, hdepth⟩

end Condition

end ListQuery
