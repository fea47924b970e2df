/-
What patterns match.

There is a rule for each form of pattern, which says when a match of it and of what follows succeeds.  Of
the runs of characters that can be taken, it is the longest one that lets the rest of the pattern match.

* `CharClass.Takes` — the runs at the front of a text;
* `CharClass.runThen_eq_some_iff`, `Pattern.matchThen_groupRun_eq_some_iff` — the run that is taken;
* `Pattern.captures?_start` — a pattern that begins with the start of the text matches nowhere else.
-/
import ListQuery.Text.Pattern

namespace ListQuery.Text

variable {α : Type} {k : CharClass} {offset : Nat} {cs taken rest : List Char} {r : α}

/-! ### Runs -/

namespace CharClass

theorem has_only_iff {c d : Char} : (only c).has d = true ↔ d = c :=
  beq_iff_eq

theorem has_inLine_iff {d : Char} : inLine.has d = true ↔ d ≠ '\n' :=
  bne_iff_ne

/-- Whether a text starts with a run of characters of a class, and goes on with the rest. -/
structure Takes (k : CharClass) (cs taken rest : List Char) : Prop where
  split : cs = taken ++ rest
  all : ∀ c ∈ taken, k.has c = true

theorem takes_nil (k : CharClass) (cs : List Char) : k.Takes cs [] cs :=
  ⟨rfl, fun _ hc => absurd hc List.not_mem_nil⟩

theorem takes_cons {c : Char} (hc : k.has c = true) (h : k.Takes cs taken rest) :
    k.Takes (c :: cs) (c :: taken) rest :=
  ⟨congrArg (c :: ·) h.split, List.forall_mem_cons.mpr ⟨hc, h.all⟩⟩

theorem takes_nil_iff : k.Takes [] taken rest ↔ taken = [] ∧ rest = [] := by
  constructor
  · intro h
    exact List.nil_eq_append_iff.mp h.split
  · rintro ⟨rfl, rfl⟩
    exact takes_nil k []

theorem takes_cons_iff {c : Char} :
    k.Takes (c :: cs) taken rest
      ↔ taken = [] ∧ rest = c :: cs
        ∨ ∃ more, taken = c :: more ∧ k.has c = true ∧ k.Takes cs more rest := by
  constructor
  · rintro ⟨hsplit, hall⟩
    cases taken with
    | nil => exact .inl ⟨rfl, hsplit.symm⟩
    | cons d more =>
      obtain ⟨rfl, rfl⟩ := List.cons.inj hsplit
      obtain ⟨hc, hmore⟩ := List.forall_mem_cons.mp hall
      exact .inr ⟨more, rfl, hc, rfl, hmore⟩
  · rintro (⟨rfl, rfl⟩ | ⟨more, rfl, hc, h⟩)
    · exact takes_nil k _
    · exact takes_cons hc h

theorem takes_inLine_iff : inLine.Takes cs taken rest ↔ cs = taken ++ rest ∧ '\n' ∉ taken := by
  have hall : (∀ c ∈ taken, inLine.has c = true) ↔ '\n' ∉ taken := by
    simp only [has_inLine_iff]
    exact ⟨fun h hmem => h _ hmem rfl, fun h c hc hfeed => h (hfeed ▸ hc)⟩
  rw [← hall]
  exact ⟨fun h => ⟨h.split, h.all⟩, fun h => ⟨h.1, h.2⟩⟩

section Run

variable {next : Nat → List Char → Option α}

theorem runThen_nil : k.runThen next offset [] = next offset [] :=
  rfl

theorem runThen_cons {c : Char} (hc : k.has c = true) :
    k.runThen next offset (c :: cs)
      = (k.runThen next (offset + 1) cs).or (next offset (c :: cs)) := by
  rw [runThen, if_pos hc, Option.orElse_eq_orElse, Option.orElse_eq_or]

theorem runThen_cons_of_not {c : Char} (hc : ¬k.has c = true) :
    k.runThen next offset (c :: cs) = next offset (c :: cs) := by
  rw [runThen, if_neg hc]

/-- Runs lead to no match exactly if none of them does. -/
theorem runThen_eq_none_iff :
    k.runThen next offset cs = none
      ↔ ∀ taken rest, k.Takes cs taken rest → next (offset + taken.length) rest = none := by
  induction cs generalizing offset with
  | nil => simp [runThen_nil, takes_nil_iff]
  | cons c cs ih =>
    have hshift : ∀ n, offset + 1 + n = offset + (n + 1) := fun n => by omega
    by_cases hc : k.has c = true
    · rw [runThen_cons hc, Option.or_eq_none_iff, ih]
      simp only [hshift]
      constructor
      · rintro ⟨hlonger, hstop⟩ taken rest h
        rcases takes_cons_iff.mp h with ⟨rfl, rfl⟩ | ⟨more, rfl, -, hmore⟩
        · exact hstop
        · exact hlonger more rest hmore
      · intro h
        exact ⟨fun more rest hmore => h _ rest (takes_cons hc hmore), h [] _ (takes_nil k _)⟩
    · simp [runThen_cons_of_not hc, takes_cons_iff, hc]

/-- Of the runs that lead to a match, the longest one is taken. -/
theorem runThen_eq_some_iff :
    k.runThen next offset cs = some r
      ↔ ∃ taken rest, k.Takes cs taken rest
          ∧ next (offset + taken.length) rest = some r
          ∧ ∀ longer rest', k.Takes cs longer rest' → taken.length < longer.length →
              next (offset + longer.length) rest' = none := by
  induction cs generalizing offset with
  | nil => simp [runThen_nil, takes_nil_iff, and_assoc]
  | cons c cs ih =>
    have hshift : ∀ n, offset + 1 + n = offset + (n + 1) := fun n => by omega
    by_cases hc : k.has c = true
    · rw [runThen_cons hc, Option.or_eq_some_iff, ih, runThen_eq_none_iff]
      simp only [hshift]
      constructor
      · rintro (⟨taken, rest, htakes, hnext, hlongest⟩ | ⟨hlonger, hstop⟩)
        · refine ⟨c :: taken, rest, takes_cons hc htakes, hnext, fun longer rest' h hlt => ?_⟩
          rcases takes_cons_iff.mp h with ⟨rfl, -⟩ | ⟨more, rfl, -, hmore⟩
          · exact absurd hlt (Nat.not_lt_zero _)
          · exact hlongest more rest' hmore (Nat.lt_of_succ_lt_succ hlt)
        · refine ⟨[], _, takes_nil k _, hstop, fun longer rest' h hlt => ?_⟩
          rcases takes_cons_iff.mp h with ⟨rfl, -⟩ | ⟨more, rfl, -, hmore⟩
          · exact absurd hlt (Nat.not_lt_zero _)
          · exact hlonger more rest' hmore
      · rintro ⟨taken, rest, htakes, hnext, hlongest⟩
        rcases takes_cons_iff.mp htakes with ⟨rfl, rfl⟩ | ⟨more, rfl, -, hmore⟩
        · refine .inr ⟨fun more rest h => ?_, hnext⟩
          exact hlongest _ rest (takes_cons hc h) (Nat.succ_pos _)
        · refine .inl ⟨more, rest, hmore, hnext, fun longer rest' h hlt => ?_⟩
          exact hlongest _ rest' (takes_cons hc h) (Nat.succ_lt_succ hlt)
    · simp [runThen_cons_of_not hc, takes_cons_iff, hc, and_assoc]

end Run

end CharClass

/-! ### Other forms -/

namespace Pattern

variable {p q : Pattern} {ps : List Pattern} {groups : Captures}

section Forms

variable {next : Nat → List Char → Captures → Option α}

theorem matchThen_finish_eq_some_iff :
    finish.matchThen offset cs groups next = some r ↔ cs = [] ∧ next offset cs groups = some r := by
  simp [matchThen]

theorem matchThen_only_eq_some_iff {c : Char} :
    (one (.only c)).matchThen offset cs groups next = some r
      ↔ ∃ rest, cs = c :: rest ∧ next (offset + 1) rest groups = some r := by
  cases cs with
  | nil => simp [matchThen]
  | cons d rest => simp [matchThen, CharClass.has_only_iff, and_assoc]

theorem matchThen_either_eq_some_iff :
    (either p q).matchThen offset cs groups next = some r
      ↔ p.matchThen offset cs groups next = some r
        ∨ p.matchThen offset cs groups next = none ∧ q.matchThen offset cs groups next = some r := by
  rw [matchThen, Option.orElse_eq_orElse, Option.orElse_eq_or, Option.or_eq_some_iff]

theorem matchThen_group (i : Nat) :
    (group i p).matchThen offset cs groups next
      = p.matchThen offset cs groups fun last rest groups =>
          next last rest ((i, cs.take (last - offset)) :: groups) :=
  rfl

/-- A group around a run holds the run that is taken. -/
theorem matchThen_groupRun_eq_some_iff {i : Nat} :
    (group i (.run k)).matchThen offset cs groups next = some r
      ↔ ∃ taken rest, k.Takes cs taken rest
          ∧ next (offset + taken.length) rest ((i, taken) :: groups) = some r
          ∧ ∀ longer rest', k.Takes cs longer rest' → taken.length < longer.length →
              next (offset + longer.length) rest' ((i, longer) :: groups) = none := by
  have hheld : ∀ {taken rest}, k.Takes cs taken rest →
      cs.take (offset + taken.length - offset) = taken := fun h => by
    rw [h.split, Nat.add_sub_cancel_left, List.take_left]
  rw [matchThen_group, matchThen, CharClass.runThen_eq_some_iff]
  constructor
  · rintro ⟨taken, rest, htakes, hnext, hlongest⟩
    rw [hheld htakes] at hnext
    refine ⟨taken, rest, htakes, hnext, fun longer rest' h hlt => ?_⟩
    have hfails := hlongest longer rest' h hlt
    rwa [hheld h] at hfails
  · rintro ⟨taken, rest, htakes, hnext, hlongest⟩
    refine ⟨taken, rest, htakes, by rwa [hheld htakes], fun longer rest' h hlt => ?_⟩
    rw [hheld h]
    exact hlongest longer rest' h hlt

end Forms

/-! ### Matches in a text -/

theorem matchFrom?_nil : (sequence []).matchFrom? offset cs groups = some groups :=
  rfl

theorem matchFrom?_cons :
    (sequence (p :: ps)).matchFrom? offset cs groups
      = p.matchThen offset cs groups (sequence ps).matchFrom? :=
  rfl

theorem matchFrom?_start :
    (sequence (.start :: ps)).matchFrom? offset cs groups
      = if offset = 0 then (sequence ps).matchFrom? offset cs groups else none :=
  rfl

theorem capturesFrom?_start (hoffset : offset ≠ 0) :
    (sequence (.start :: ps)).capturesFrom? offset cs = none := by
  induction cs generalizing offset with
  | nil => rw [capturesFrom?, matchFrom?_start, if_neg hoffset]
  | cons c cs ih =>
    rw [capturesFrom?, matchFrom?_start, if_neg hoffset, ih (Nat.succ_ne_zero offset)]
    rfl

/-- A pattern that begins with the start of the text matches nowhere else. -/
theorem captures?_start :
    (sequence (.start :: ps)).captures? cs = (sequence ps).matchFrom? 0 cs [] := by
  rw [captures?]
  cases cs with
  | nil => rfl
  | cons c cs =>
    rw [capturesFrom?, matchFrom?_start, if_pos rfl, capturesFrom?_start (Nat.succ_ne_zero 0)]
    simp

end Pattern

end ListQuery.Text
