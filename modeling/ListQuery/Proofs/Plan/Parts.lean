/-
The parts that a plan is put together from.

Filter, equalities, text, order and paging of a request are each checked on their own.  A plan is built
when every one of them is let through and the conjunction of the conditions compiles.

* `Request.filterCondition_cases` — what the condition of a filter may be;
* `build_eq_ok_iff` — the parts of a plan, all of them;
* `build_withPaging` — asking for other rows of the same list changes the window and nothing else.
-/
import ListQuery.Plan
import ListQuery.Proofs.Outcome

namespace ListQuery

variable {q : Request} {r : Registry}

namespace Request

/-- A filter that is not blank is read, and otherwise there is no condition. -/
theorem filterCondition_cases {filter : Option Condition} (h : q.filterCondition r = .ok filter) :
    (∃ raw c, q.filter = some raw ∧ raw.isBlankFilter = false ∧ Condition.read r raw = .ok c
        ∧ filter = some c)
      ∨ (∀ raw, q.filter = some raw → raw.isBlankFilter = true) ∧ filter = none := by
  rw [filterCondition] at h
  split at h
  · rename_i raw hraw
    split at h
    · rename_i hblank
      refine Or.inr ⟨fun raw' hraw' => ?_, (Except.ok.inj h).symm⟩
      obtain rfl := Option.some.inj (hraw.symm.trans hraw')
      exact hblank
    · rename_i hblank
      obtain ⟨c, hread, rfl⟩ := map_eq_ok_iff.mp h
      exact Or.inl ⟨raw, c, hraw, Bool.eq_false_iff.mpr hblank, hread, rfl⟩
  · rename_i hnone
    refine Or.inr ⟨fun raw hraw => ?_, (Except.ok.inj h).symm⟩
    simp [hnone] at hraw

theorem read_of_filterCondition {c : Condition} (h : q.filterCondition r = .ok (some c)) :
    ∃ raw, q.filter = some raw ∧ Condition.read r raw = .ok c := by
  rcases filterCondition_cases h with ⟨raw, d, hraw, -, hread, hd⟩ | ⟨-, hnone⟩
  · obtain rfl := Option.some.inj hd
    exact ⟨raw, hraw, hread⟩
  · simp at hnone

theorem text_of_searchCondition {c : Condition} (h : q.searchCondition r = .ok (some c)) :
    ∃ text, q.text = some text ∧ r.textCondition text = .ok (some c) := by
  rw [searchCondition] at h
  split at h
  · rename_i text htext
    exact ⟨text, htext, h⟩
  · simp at h

end Request

namespace Plan

variable {path : String} {p : Plan}

/-- What holds of the conditions of filter, equalities and text holds of all that a plan joins. -/
theorem forall_mem_parts {P : Condition → Prop} {filter equalities search : Option Condition}
    (hfilter : ∀ c, filter = some c → P c) (hequalities : ∀ c, equalities = some c → P c)
    (hsearch : ∀ c, search = some c → P c) :
    ∀ c ∈ filter.toList ++ equalities.toList ++ search.toList, P c := by
  intro c hc
  rcases List.mem_append.mp hc with hc | hc
  · rcases List.mem_append.mp hc with hc | hc
    · exact hfilter c (Option.mem_toList.mp hc)
    · exact hequalities c (Option.mem_toList.mp hc)
  · exact hsearch c (Option.mem_toList.mp hc)

theorem build_eq_ok_iff :
    Plan.build q r path = .ok p
      ↔ ∃ filter equalities search, q.filterCondition r = .ok filter
          ∧ r.equalityCondition q.equalities = .ok equalities ∧ q.searchCondition r = .ok search
          ∧ p.condition = Condition.all (filter.toList ++ equalities.toList ++ search.toList)
          ∧ Condition.compile? (.ofRegistry r) p.condition = .ok p.predicate
          ∧ q.order.resolve r = .ok p.order ∧ q.paging.resolve r = .ok p.window
          ∧ p.links = ⟨path, q.linkParams filter search.isSome p.order⟩ := by
  constructor
  · intro h
    obtain ⟨filter, hfilter, h⟩ := bind_eq_ok_iff.mp h
    obtain ⟨equalities, hequalities, h⟩ := bind_eq_ok_iff.mp h
    obtain ⟨search, hsearch, h⟩ := bind_eq_ok_iff.mp h
    obtain ⟨predicate, hpredicate, h⟩ := bind_eq_ok_iff.mp h
    obtain ⟨order, horder, h⟩ := bind_eq_ok_iff.mp h
    obtain ⟨window, hwindow, h⟩ := bind_eq_ok_iff.mp h
    obtain rfl := pure_eq_ok_iff.mp h
    exact ⟨filter, equalities, search, hfilter, hequalities, hsearch, rfl, hpredicate, horder,
      hwindow, rfl⟩
  · rintro ⟨filter, equalities, search, hfilter, hequalities, hsearch, hcondition, hpredicate,
      horder, hwindow, hlinks⟩
    have hp : p = ⟨Condition.all (filter.toList ++ equalities.toList ++ search.toList),
        p.predicate, p.order, p.window, ⟨path, q.linkParams filter search.isSome p.order⟩⟩ := by
      rw [← hcondition, ← hlinks]
    rw [hcondition] at hpredicate
    refine bind_eq_ok_iff.mpr ⟨filter, hfilter, ?_⟩
    refine bind_eq_ok_iff.mpr ⟨equalities, hequalities, ?_⟩
    refine bind_eq_ok_iff.mpr ⟨search, hsearch, ?_⟩
    refine bind_eq_ok_iff.mpr ⟨p.predicate, hpredicate, ?_⟩
    refine bind_eq_ok_iff.mpr ⟨p.order, horder, ?_⟩
    exact bind_eq_ok_iff.mpr ⟨p.window, hwindow, congrArg Except.ok hp.symm⟩

/-- The parts of a plan that its predicate is not needed for. -/
theorem parts_of_build (h : Plan.build q r path = .ok p) :
    ∃ filter equalities search, q.filterCondition r = .ok filter
      ∧ r.equalityCondition q.equalities = .ok equalities ∧ q.searchCondition r = .ok search
      ∧ p.condition = Condition.all (filter.toList ++ equalities.toList ++ search.toList)
      ∧ q.order.resolve r = .ok p.order ∧ q.paging.resolve r = .ok p.window
      ∧ p.links = ⟨path, q.linkParams filter search.isSome p.order⟩ := by
  obtain ⟨filter, equalities, search, hfilter, hequalities, hsearch, hcondition, -, hrest⟩ :=
    build_eq_ok_iff.mp h
  exact ⟨filter, equalities, search, hfilter, hequalities, hsearch, hcondition, hrest⟩

/-- Neither the conditions nor the order nor the links of a plan depend on the rows that are asked
for. -/
theorem build_withPaging {paging : PageRequest} {w : Window} (h : Plan.build q r path = .ok p)
    (hw : paging.resolve r = .ok w) :
    Plan.build (q.withPaging paging) r path = .ok { p with window := w } := by
  obtain ⟨filter, equalities, search, hfilter, hequalities, hsearch, hcondition, hpredicate,
    horder, -, hlinks⟩ := build_eq_ok_iff.mp h
  exact build_eq_ok_iff.mpr ⟨filter, equalities, search, hfilter, hequalities, hsearch, hcondition,
    hpredicate, horder, hw, hlinks⟩

end Plan

end ListQuery
