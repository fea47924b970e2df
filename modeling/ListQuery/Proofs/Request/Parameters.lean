/-
Parameters that are set one after the other.

Whether a parameter can be set depends on its name and its value alone, and not on what was set before.  A
parameter that can be set changes the one place that its name stands for.

* `Settable` — the values that a parameter can have;
* `set_eq_ok_iff` and `setAll_eq_ok_iff` — when parameters can be set, and what is set then;
* `isSome_integer?_decimalText_iff` — which decimal texts are values of the parameters of pages.
-/
import ListQuery.Proofs.Numeric.Digits
import ListQuery.Proofs.Outcome
import ListQuery.Request.Basic

namespace ListQuery

open Numeric

/-! ### Texts of counts -/

theorem integer?_decimalText (n : Nat) :
    integer? (Text.trimChars (Text.decimalText n).toList) = int64? n := by
  have htrim : Text.trimChars (Text.decimal n) = Text.decimal n := trimChars_signed n
  rw [Text.decimalText, String.toList_ofList, htrim, integer?_decimal]

/-- The decimal text of a count is read as an integer of 64 bits with a sign exactly if it is one. -/
theorem isSome_integer?_decimalText_iff {n : Nat} :
    (integer? (Text.trimChars (Text.decimalText n).toList)).isSome ↔ (n : Int) ≤ Int64.maxValue.toInt := by
  have hmin : Int64.minValue.toInt ≤ 0 := by decide
  have hfits : inInt64 n = true ↔ (n : Int) ≤ Int64.maxValue.toInt := by
    rw [inInt64, decide_eq_true_eq]
    omega
  rw [integer?_decimalText, int64?, ← hfits]
  split <;> simp_all

theorem readCount_eq_ok_iff {name value : String} {n : Int64} :
    readCount name value = .ok n ↔ integer? (Text.trimChars value.toList) = some n := by
  rw [readCount]
  cases integer? (Text.trimChars value.toList) <;> simp

theorem readCount_decimalText {name : String} {n : Nat} {count : Int64}
    (h : readCount name (Text.decimalText n) = .ok count) : count.toInt = n := by
  rw [readCount_eq_ok_iff, integer?_decimalText] at h
  exact toInt_of_int64? h

theorem readCount_decimalText_eq_error {name : String} {n : Nat}
    (h : ¬(n : Int) ≤ Int64.maxValue.toInt) :
    readCount name (Text.decimalText n) = .error (.paging name (.notANumber (Text.decimalText n))) := by
  rw [← isSome_integer?_decimalText_iff, Option.not_isSome_iff_eq_none] at h
  rw [readCount, h]

namespace Request

/-! ### One parameter -/

/-- Whether the value of a parameter is one that the parameter can have: a filter is JSON, and what
pages are counted with is an integer. -/
def Settable (name value : String) : Prop :=
  match Slot.ofName name with
  | .filter => (Json.read? value).isSome
  | .page | .items | .offset | .limit => (integer? (Text.trimChars value.toList)).isSome
  | .orderBy | .direction | .text | .equality _ | .carried => True

/-- The request with the value of a parameter in its place; a value that cannot be read leaves the place
empty. -/
def put (q : Request) (name value : String) : Request :=
  match Slot.ofName name with
  | .filter => { q with filter := Json.read? value }
  | .orderBy => { q with order := { q.order with orderBy := some value } }
  | .direction => { q with order := { q.order with direction := some value } }
  | .page => { q with paging := { q.paging with page := integer? (Text.trimChars value.toList) } }
  | .items => { q with paging := { q.paging with items := integer? (Text.trimChars value.toList) } }
  | .offset => { q with paging := { q.paging with offset := integer? (Text.trimChars value.toList) } }
  | .limit => { q with paging := { q.paging with limit := integer? (Text.trimChars value.toList) } }
  | .text => { q with text := some value }
  | .equality field => { q with equalities := q.equalities.set field value }
  | .carried => { q with carried := q.carried.set name value }

/-- Whether a parameter can be set does not depend on what has been set before. -/
theorem set_eq_ok_iff {q q' : Request} {name value : String} :
    q.set name value = .ok q' ↔ Settable name value ∧ q' = q.put name value := by
  rw [set.eq_def, Settable, put]
  cases Slot.ofName name with
  | filter => cases Json.read? value <;> simp [eq_comm]
  | page | items | offset | limit =>
    simp only [bind_eq_ok_iff, readCount_eq_ok_iff, pure_eq_ok_iff]
    cases integer? (Text.trimChars value.toList) <;> simp [eq_comm]
  | orderBy | direction | text | equality | carried => simp [eq_comm]

/-! ### Several parameters -/

/-- A request with the parameters set one after the other. -/
def setAll (q : Request) (ps : List (String × String)) : Except QueryError Request :=
  ps.foldlM (fun q (name, value) => q.set name value) q

/-- The request with the values of some parameters, one after the other, in their places. -/
def putAll (q : Request) (ps : List (String × String)) : Request :=
  ps.foldl (fun q p => q.put p.1 p.2) q

theorem setAll_cons (q : Request) (name value : String) (ps : List (String × String)) :
    q.setAll ((name, value) :: ps) = (q.set name value >>= fun q => q.setAll ps) :=
  List.foldlM_cons

theorem setAll_append (q : Request) (ps ps' : List (String × String)) :
    q.setAll (ps ++ ps') = (q.setAll ps >>= fun q => q.setAll ps') :=
  List.foldlM_append

theorem setAll_eq_ok_iff {q q' : Request} {ps : List (String × String)} :
    q.setAll ps = .ok q' ↔ (∀ p ∈ ps, Settable p.1 p.2) ∧ q' = q.putAll ps := by
  induction ps generalizing q with
  | nil =>
    show (pure q : Except QueryError Request) = .ok q' ↔ _
    rw [pure_eq_ok_iff, eq_comm]
    exact ⟨fun h => ⟨fun _ hp => absurd hp List.not_mem_nil, h⟩, fun h => h.2⟩
  | cons p ps ih =>
    rw [setAll_cons, bind_eq_ok_iff, List.forall_mem_cons]
    constructor
    · rintro ⟨next, hnext, h⟩
      obtain ⟨hp, rfl⟩ := set_eq_ok_iff.mp hnext
      obtain ⟨hps, rfl⟩ := ih.mp h
      exact ⟨⟨hp, hps⟩, rfl⟩
    · rintro ⟨⟨hp, hps⟩, rfl⟩
      exact ⟨_, set_eq_ok_iff.mpr ⟨hp, rfl⟩, ih.mpr ⟨hps, rfl⟩⟩

end Request

end ListQuery
