/-
What every request keeps that has been received.

A request comes from a query string, and any number of bodies are laid over it.  Whatever they say, the
values that fields are to equal and the parameters that are carried along stand under different names,
and each name is read into its own place again.

* `Request.Received` — the requests that come about so;
* `Request.Kept` — what they all keep, `kept_set` and `kept_overlay` being the steps and `kept_of_received`
  the run.
-/
import ListQuery.Proofs.Json.WellFormed
import ListQuery.Proofs.Outcome
import ListQuery.Request.Basic

namespace ListQuery

/-! ### Named values -/

namespace Pairs

/-- Whether no name stands twice. -/
def Distinct (ps : Pairs) : Prop :=
  ps.Pairwise fun p q => p.1 ≠ q.1

theorem mem_of_mem_set {name value : String} {ps : Pairs} {p : String × String}
    (h : p ∈ ps.set name value) : p = (name, value) ∨ p ∈ ps := by
  induction ps with
  | nil => exact Or.inl (List.mem_singleton.mp h)
  | cons q rest ih =>
    obtain ⟨n, v⟩ := q
    rw [set] at h
    split at h
    · rename_i hn
      exact (List.mem_cons.mp h).imp (fun hp => hn ▸ hp) (List.mem_cons_of_mem _)
    · rcases List.mem_cons.mp h with rfl | h
      · exact Or.inr List.mem_cons_self
      · exact (ih h).imp id (List.mem_cons_of_mem _)

theorem distinct_set {name value : String} {ps : Pairs} (h : ps.Distinct) :
    (ps.set name value).Distinct := by
  induction ps with
  | nil => exact List.pairwise_singleton _ _
  | cons q rest ih =>
    obtain ⟨n, v⟩ := q
    obtain ⟨hn, hrest⟩ := List.pairwise_cons.mp h
    rw [set]
    split
    · exact List.pairwise_cons.mpr ⟨hn, hrest⟩
    · rename_i hne
      refine List.pairwise_cons.mpr ⟨fun p hp => ?_, ih hrest⟩
      rcases mem_of_mem_set hp with rfl | hp
      · exact hne
      · exact hn p hp

theorem set_of_not_mem {name value : String} {ps : Pairs} (h : ∀ p ∈ ps, p.1 ≠ name) :
    ps.set name value = ps ++ [(name, value)] := by
  induction ps with
  | nil => rfl
  | cons q rest ih =>
    obtain ⟨n, v⟩ := q
    obtain ⟨hn, hrest⟩ := List.forall_mem_cons.mp h
    rw [set, if_neg hn, ih hrest, List.cons_append]

/-- The pairs with the values of others, set one after the other. -/
def setAll (before ps : Pairs) : Pairs :=
  ps.foldl (fun kept p => Pairs.set p.1 p.2 kept) before

/-- Values of different names that are set one after the other are appended. -/
theorem setAll_eq_append {before ps : Pairs} (h : Distinct (before ++ ps)) :
    before.setAll ps = before ++ ps := by
  induction ps generalizing before with
  | nil => exact (List.append_nil before).symm
  | cons p ps ih =>
    have hnew : ∀ q ∈ before, q.1 ≠ p.1 := fun q hq =>
      (List.pairwise_append.mp h).2.2 q hq p List.mem_cons_self
    have happend : before ++ p :: ps = (before ++ [p]) ++ ps := by simp
    rw [happend] at h ⊢
    rw [← ih h, ← set_of_not_mem hnew]
    rfl

end Pairs

/-! ### Names of parameters -/

theorem eq_of_equalityField? {name field : String} (h : equalityField? name = some field) :
    name = equalityMark ++ field := by
  simp only [equalityField?] at h
  split at h
  · rename_i hmark
    obtain rfl := Option.some.inj h
    refine String.toList_inj.mp ?_
    rw [String.toList_append, String.toList_ofList]
    conv => lhs; rw [← List.take_append_drop equalityMark.toList.length name.toList, hmark.1]
  · simp at h

theorem Slot.eq_of_ofName {name field : String} (h : Slot.ofName name = .equality field) :
    name = equalityMark ++ field := by
  rw [Slot.ofName.eq_def] at h
  split at h
  all_goals try cases h
  split at h
  · rename_i hfield
    obtain rfl := Slot.equality.inj h
    exact eq_of_equalityField? hfield
  · simp at h

/-! ### Received requests -/

namespace Request

/-- What a received request keeps. -/
structure Kept (q : Request) : Prop where
  filter : ∀ raw, q.filter = some raw → raw.isWellFormed = true
  /-- A field's parameter is read as that of the field. -/
  equality : ∀ p ∈ q.equalities, Slot.ofName (equalityMark ++ p.1) = .equality p.1
  equalities : q.equalities.Distinct
  /-- A parameter that is carried along is of no other use. -/
  carried : ∀ p ∈ q.carried, Slot.ofName p.1 = .carried
  carriedOnce : q.carried.Distinct

theorem kept_empty : Kept empty where
  filter _ h := by simp [empty] at h
  equality _ h := absurd h List.not_mem_nil
  equalities := List.Pairwise.nil
  carried _ h := absurd h List.not_mem_nil
  carriedOnce := List.Pairwise.nil

theorem kept_set {q q' : Request} {name value : String} (hq : q.Kept)
    (h : q.set name value = .ok q') : q'.Kept := by
  rw [set.eq_def] at h
  split at h
  -- Only the filter, an equality and a carried parameter bear on what is kept; of the other names
  -- none changes these.
  case h_1 =>
    split at h
    · rename_i v hv
      obtain rfl := Except.ok.inj h
      refine { hq with filter := fun raw hraw => ?_ }
      obtain rfl := Option.some.inj hraw
      exact Json.isWellFormed_of_read? hv
    · simp at h
  case h_9 field hslot =>
    obtain rfl := Except.ok.inj h
    refine { hq with equality := fun p hp => ?_, equalities := Pairs.distinct_set hq.equalities }
    rcases Pairs.mem_of_mem_set hp with rfl | hp
    · rw [← Slot.eq_of_ofName hslot]
      exact hslot
    · exact hq.equality p hp
  case h_10 hslot =>
    obtain rfl := Except.ok.inj h
    refine { hq with carried := fun p hp => ?_, carriedOnce := Pairs.distinct_set hq.carriedOnce }
    rcases Pairs.mem_of_mem_set hp with rfl | hp
    · exact hslot
    · exact hq.carried p hp
  case h_2 | h_3 | h_8 =>
    obtain rfl := Except.ok.inj h
    exact { hq with }
  case h_4 | h_5 | h_6 | h_7 =>
    obtain ⟨n, -, h⟩ := bind_eq_ok_iff.mp h
    obtain rfl := pure_eq_ok_iff.mp h
    exact { hq with }

theorem kept_foldlM {ps : List (String × String)} {q q' : Request} (hq : q.Kept)
    (h : ps.foldlM (fun q (name, value) => q.set name value) q = .ok q') : q'.Kept := by
  induction ps generalizing q with
  | nil =>
    obtain rfl := pure_eq_ok_iff.mp h
    exact hq
  | cons p ps ih =>
    rw [List.foldlM_cons] at h
    obtain ⟨next, hnext, h⟩ := bind_eq_ok_iff.mp h
    exact ih (kept_set hq hnext) h

theorem kept_overlay {q q' : Request} {body : Json} (hq : q.Kept) (hbody : body.isWellFormed = true)
    (h : q.overlay body = .ok q') : q'.Kept := by
  rw [overlay.eq_def] at h
  split at h
  · obtain rfl := Except.ok.inj h
    exact hq
  · rename_i members
    obtain ⟨order, -, h⟩ := bind_eq_ok_iff.mp h
    obtain ⟨paging, -, h⟩ := bind_eq_ok_iff.mp h
    obtain rfl := pure_eq_ok_iff.mp h
    refine { hq with filter := fun raw hraw => ?_ }
    rcases Option.or_eq_some_iff.mp hraw with hraw | ⟨-, hraw⟩
    · exact Json.isWellFormed_of_presentOf? hbody hraw
    · exact hq.filter raw hraw
  · simp at h

/-- The requests that come from a query string or its pairs, any number of bodies laid over them. -/
inductive Received : Request → Prop where
  | queryString {query : String} {q : Request} (h : ofQueryString query = .ok q) : Received q
  | pairs {ps : List (String × String)} {q : Request} (h : ofPairs ps = .ok q) : Received q
  | overlay {q q' : Request} {body : Json} (hq : Received q) (hbody : body.isWellFormed = true)
      (h : q.overlay body = .ok q') : Received q'

theorem kept_of_received {q : Request} (h : q.Received) : q.Kept := by
  induction h with
  | queryString h => exact kept_foldlM kept_empty h
  | pairs h => exact kept_foldlM kept_empty h
  | overlay _ hbody h ih => exact kept_overlay ih hbody h

end Request

end ListQuery
