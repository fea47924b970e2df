/-
What validates also compiles.

The reader of filters, the equalities and the text search each check fields and operators in their own
way, and the compiler checks them once more.  It never finds anything: a condition that one of them has
let through is permitted at every node, and so is a conjunction of such conditions.

* `Condition.Validated` — the conditions of filters, equalities and texts, and their conjunctions;
* `compile_of_every` — a condition whose leaves are permitted compiles, whatever the table is called;
* `exists_build_iff` — so a plan is built exactly if each part of its request is let through.

Design notes: text search asks the registry nothing, so that its leaves are permitted rests on what
`Draft.build` checks of fields that are searched.
-/
import ListQuery.Proofs.Condition.Sound
import ListQuery.Proofs.Plan.Parts
import ListQuery.Proofs.Predicate.Whitelist

namespace ListQuery

namespace Condition

variable {r : Registry}

mutual

theorem permitted_of_mem_nodes : ∀ {c : Condition},
    (c.Every fun field test => (leaf field test).Permitted r) → ∀ n ∈ c.nodes, n.Permitted r
  | .leaf field test, h => by
    cases h with
    | leaf h => exact List.forall_mem_singleton.mpr h
  | .group kind children, h => by
    cases h with
    | group arity h => exact List.forall_mem_cons.mpr ⟨arity, permitted_of_mem_nodesOf h⟩

theorem permitted_of_mem_nodesOf : ∀ {cs : List Condition},
    (∀ c ∈ cs, c.Every fun field test => (leaf field test).Permitted r) →
      ∀ n ∈ nodesOf cs, n.Permitted r
  | [], _ => fun _ hn => absurd hn List.not_mem_nil
  | c :: cs, h => by
    obtain ⟨hc, hcs⟩ := List.forall_mem_cons.mp h
    exact List.forall_mem_append.mpr ⟨permitted_of_mem_nodes hc, permitted_of_mem_nodesOf hcs⟩

end

/-- A condition whose leaves are permitted, with children enough in its groups, compiles. -/
theorem compile_of_every {t : TableRef} {c : Condition}
    (h : c.Every fun field test => (leaf field test).Permitted t.registry) :
    ∃ p, c.compile t = .ok p := by
  rcases compile_cases t c with ⟨p, hp, -⟩ | ⟨e, -, hfault⟩
  · exact ⟨p, hp⟩
  · exact absurd (permitted_of_mem_nodes h) hfault.not_forall

/-- The conditions that a registry lets through: those of filters, of equalities and of texts that are
looked for, and the conjunctions of such conditions. -/
inductive Validated (r : Registry) : Condition → Prop where
  | read {raw : Json} {c : Condition} (h : Condition.read r raw = .ok c) : Validated r c
  | equalities {equalities : Pairs} {c : Condition}
      (h : r.equalityCondition equalities = .ok (some c)) : Validated r c
  | search {text : String} {c : Condition} (h : r.textCondition text = .ok (some c)) :
      Validated r c
  | all {cs : List Condition} {c : Condition} (h : ∀ d ∈ cs, Validated r d)
      (hc : Condition.all cs = some c) : Validated r c

theorem permitted_of_suits {field : String} {test : Test} (h : Suits r field test) :
    (leaf field test).Permitted r := by
  obtain ⟨f, hf, hallows, -⟩ := h
  exact ⟨f, hf, hallows⟩

theorem every_of_validated (hr : r.Consistent) {c : Condition} (h : c.Validated r) :
    c.Every fun field test => (leaf field test).Permitted r := by
  induction h with
  | read h =>
    refine every_of_read Json.inherited_true ?_ trivial h
    intro name f tag op operand t _ hf hallows _ hread
    refine ⟨f, hf, ?_⟩
    rw [Test.operator_of_read hread]
    exact hallows
  | equalities h => exact (sound_of_equalityCondition h).mono fun _ _ => permitted_of_suits
  | search h => exact (sound_of_textCondition hr h).mono fun _ _ => permitted_of_suits
  | all _ hc ih => exact every_of_all ih hc

end Condition

/-! ### Plans -/

namespace Request

variable {q : Request} {r : Registry}

theorem exists_filterCondition_iff :
    (∃ filter, q.filterCondition r = .ok filter)
      ↔ ∀ raw, q.filter = some raw → raw.isBlankFilter = false → ∃ c, Condition.read r raw = .ok c := by
  rw [filterCondition]
  cases q.filter with
  | none => simp
  | some raw =>
    cases hblank : raw.isBlankFilter with
    | true => simp [hblank]
    | false =>
      simp only [hblank, Bool.false_eq_true, if_false]
      constructor
      · rintro ⟨filter, h⟩ raw' hraw _
        obtain rfl := Option.some.inj hraw
        obtain ⟨c, hc, -⟩ := map_eq_ok_iff.mp h
        exact ⟨c, hc⟩
      · intro h
        obtain ⟨c, hc⟩ := h raw rfl hblank
        exact ⟨some c, map_eq_ok_iff.mpr ⟨c, hc, rfl⟩⟩

theorem exists_searchCondition_iff :
    (∃ search, q.searchCondition r = .ok search)
      ↔ ∀ text, q.text = some text → ∃ search, r.textCondition text = .ok search := by
  rw [searchCondition]
  cases q.text with
  | none => simp
  | some text => simp

theorem validated_of_filterCondition {c : Condition} (h : q.filterCondition r = .ok (some c)) :
    c.Validated r := by
  obtain ⟨raw, -, hread⟩ := read_of_filterCondition h
  exact .read hread

theorem validated_of_searchCondition {c : Condition} (h : q.searchCondition r = .ok (some c)) :
    c.Validated r := by
  obtain ⟨text, -, htext⟩ := text_of_searchCondition h
  exact .search htext

end Request

namespace Plan

/-- The conditions that a request asks for are all let through. -/
theorem validated_of_mem_parts {r : Registry} {q : Request}
    {filter equalities search : Option Condition} (hfilter : q.filterCondition r = .ok filter)
    (hequalities : r.equalityCondition q.equalities = .ok equalities)
    (hsearch : q.searchCondition r = .ok search) {c : Condition}
    (hc : c ∈ filter.toList ++ equalities.toList ++ search.toList) : c.Validated r := by
  refine forall_mem_parts ?_ ?_ ?_ c hc
  · rintro d rfl
    exact Request.validated_of_filterCondition hfilter
  · rintro d rfl
    exact .equalities hequalities
  · rintro d rfl
    exact Request.validated_of_searchCondition hsearch

/-- The conjunction of the conditions that a request asks for compiles. -/
theorem exists_compile?_all {r : Registry} (hr : r.Consistent) {q : Request}
    {filter equalities search : Option Condition} (hfilter : q.filterCondition r = .ok filter)
    (hequalities : r.equalityCondition q.equalities = .ok equalities)
    (hsearch : q.searchCondition r = .ok search) :
    ∃ predicate, Condition.compile? (.ofRegistry r)
      (Condition.all (filter.toList ++ equalities.toList ++ search.toList)) = .ok predicate := by
  cases hall : Condition.all (filter.toList ++ equalities.toList ++ search.toList) with
  | none => exact ⟨none, rfl⟩
  | some c =>
    have hc : c.Validated r :=
      .all (fun d hd => validated_of_mem_parts hfilter hequalities hsearch hd) hall
    obtain ⟨p, hp⟩ := Condition.compile_of_every (t := .ofRegistry r)
      (Condition.every_of_validated hr hc)
    exact ⟨some p, map_eq_ok_iff.mpr ⟨p, hp, rfl⟩⟩

/-- What a built registry lets through compiles under any name of the table.  So a plan is built exactly
if filter, equalities, text, order and paging of the request are each let through. -/
theorem exists_build_iff {r : Registry} (hr : r.Built) :
    (∀ c : Condition, c.Validated r → ∀ alias? : Option String, ∃ p, c.compile ⟨r, alias?⟩ = .ok p)
      ∧ ∀ (q : Request) (path : String),
        (∃ p, Plan.build q r path = .ok p)
          ↔ (∀ raw, q.filter = some raw → raw.isBlankFilter = false →
                ∃ c, Condition.read r raw = .ok c)
            ∧ (∃ equalities, r.equalityCondition q.equalities = .ok equalities)
            ∧ (∀ text, q.text = some text → ∃ search, r.textCondition text = .ok search)
            ∧ (∃ order, q.order.resolve r = .ok order) ∧ ∃ w, q.paging.resolve r = .ok w := by
  have hconsistent := Registry.consistent_of_built hr
  constructor
  · intro c hc alias?
    exact Condition.compile_of_every (Condition.every_of_validated hconsistent hc)
  · intro q path
    rw [← Request.exists_filterCondition_iff, ← Request.exists_searchCondition_iff]
    constructor
    · rintro ⟨p, h⟩
      obtain ⟨filter, equalities, search, hfilter, hequalities, hsearch, -, horder, hwindow, -⟩ :=
        parts_of_build h
      exact ⟨⟨filter, hfilter⟩, ⟨equalities, hequalities⟩, ⟨search, hsearch⟩, ⟨p.order, horder⟩,
        ⟨p.window, hwindow⟩⟩
    · rintro ⟨⟨filter, hfilter⟩, ⟨equalities, hequalities⟩, ⟨search, hsearch⟩, ⟨order, horder⟩,
        ⟨w, hw⟩⟩
      -- Compiling is the one step that is left, and it cannot fail on conditions let through.
      obtain ⟨predicate, hpredicate⟩ := exists_compile?_all hconsistent hfilter hequalities hsearch
      let condition := Condition.all (filter.toList ++ equalities.toList ++ search.toList)
      let links : Links := ⟨path, q.linkParams filter search.isSome order⟩
      refine ⟨⟨condition, predicate, order, w, links⟩, ?_⟩
      exact build_eq_ok_iff.mpr ⟨filter, equalities, search, hfilter, hequalities, hsearch, rfl,
        hpredicate, horder, hw, rfl⟩

theorem exists_build_iff_parts :
    let raw : Json := .object [("or", .array
      [.object [("id", .object [("lt", .integer 3), ("not_in", .array [.integer 1])])],
        .object [("kind", .object [("eq", .null)])]])]
    let q : Request := { Request.empty with
      filter := some raw
      equalities := [("kind", "a")]
      text := some " b " }
    (∃ c p, Condition.read .parts raw = .ok c ∧ c.compile ⟨.parts, some "p"⟩ = .ok p)
      ∧ ∃ p, Plan.build q .parts "/parts" = .ok p := by
  intro raw q
  have hiff := exists_build_iff Registry.built_parts
  obtain ⟨c, hc⟩ : ∃ c, Condition.read .parts raw = .ok c := ⟨_, rfl⟩
  constructor
  · obtain ⟨p, hp⟩ := hiff.1 c (.read hc) (some "p")
    exact ⟨c, p, hc, hp⟩
  · refine (hiff.2 q "/parts").mpr ⟨?_, ⟨_, rfl⟩, ?_, ⟨_, rfl⟩, ⟨_, rfl⟩⟩
    · intro raw' hraw _
      obtain rfl := Option.some.inj hraw
      exact ⟨c, hc⟩
    · intro text htext
      obtain rfl := Option.some.inj htext
      exact ⟨_, rfl⟩

end Plan

end ListQuery
