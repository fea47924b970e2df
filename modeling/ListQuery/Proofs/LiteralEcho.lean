/-
Literals in JSON and back.

A literal whose numbers are finite is read back from its JSON value.  Literals read from JSON are of
this sort: an integer of JSON that needs more than 64 bits with a sign is rounded, and never to an
infinity.

* `ofJson?_toJson` — a finite literal is read back;
* `isFinite_of_ofJson?` — a literal of a well-formed JSON value is finite;
* `isWellFormed_toJson` — the JSON value of any literal is well-formed.
-/
import ListQuery.Literal
import ListQuery.Proofs.Json.WellFormed
import ListQuery.Proofs.Numeric.Digits
import ListQuery.Proofs.Numeric.Rounding

namespace ListQuery.Literal

open Numeric

mutual

/-- Whether every binary64 number in the literal is finite. -/
def isFinite : Literal → Bool
  | .float x => x.isFinite
  | .list items => areFinite items
  | _ => true

/-- Whether all of some literals are finite. -/
def areFinite : List Literal → Bool
  | [] => true
  | l :: ls => isFinite l && areFinite ls

end

@[simp] theorem ofInt_toInt (n : Int64) : ofInt n.toInt = .int n := by
  rw [ofInt, int64?_toInt]

theorem isNull_iff {v : Literal} : v.isNull = true ↔ v = .null := by
  cases v <;> simp [isNull, kind]

theorem isNull_eq_false_iff {v : Literal} : v.isNull = false ↔ v ≠ .null := by
  rw [← Bool.not_eq_true, isNull_iff]

mutual

theorem ofJson?_toJson : ∀ {l : Literal}, l.isFinite = true → ofJson? l.toJson = some l
  | .null, _ => rfl
  | .bool _, _ => rfl
  | .int n, _ => by rw [toJson, ofJson?, ofInt_toInt]
  | .float (.finite _), _ => rfl
  | .float .nan, h => absurd h (by decide)
  | .float (.infinity _), h => absurd h Bool.false_ne_true
  | .text _, _ => rfl
  | .list _, h => by rw [toJson, ofJson?, ofItems?_toItems h, Option.map_some]

theorem ofItems?_toItems : ∀ {ls : List Literal}, areFinite ls = true →
    ofItems? (toItems ls) = some ls
  | [], _ => rfl
  | l :: ls, h => by
    obtain ⟨hl, hls⟩ := Bool.and_eq_true_iff.mp h
    rw [toItems, ofItems?, ofJson?_toJson hl, ofItems?_toItems hls]

end

/-- An integer of a well-formed JSON value is less than `2 ^ 64`, so its rounding is finite. -/
theorem isFinite_ofInt {n : Int} (h : (Json.integer n).isWellFormed = true) :
    (ofInt n).isFinite = true := by
  rw [ofInt]
  split
  · rfl
  · have hmin : Int64.minValue.toInt = -2 ^ 63 := by decide
    have hsize : UInt64.size = 2 ^ 64 := by decide
    obtain ⟨hlow, hhigh⟩ := of_decide_eq_true h
    have habs : n.natAbs < 2 ^ 64 := by
      rw [hmin] at hlow
      rw [hsize] at hhigh
      omega
    obtain ⟨x, hx⟩ := Binary64.exists_ofInt_eq_finite habs
    rw [isFinite, hx]
    rfl

mutual

theorem isFinite_of_ofJson? : ∀ {v : Json} {l : Literal}, v.isWellFormed = true →
    ofJson? v = some l → l.isFinite = true
  | .null, l, _, h => by
    obtain rfl := Option.some.inj h
    rfl
  | .bool _, l, _, h => by
    obtain rfl := Option.some.inj h
    rfl
  | .integer n, l, hv, h => by
    obtain rfl := Option.some.inj h
    exact isFinite_ofInt hv
  | .float _, l, _, h => by
    obtain rfl := Option.some.inj h
    rfl
  | .string _, l, _, h => by
    obtain rfl := Option.some.inj h
    rfl
  | .array items, l, hv, h => by
    obtain ⟨ls, hls, rfl⟩ := Option.map_eq_some_iff.mp h
    exact areFinite_of_ofItems? hv hls
  | .object _, l, _, h => by simp [ofJson?] at h

theorem areFinite_of_ofItems? : ∀ {vs : List Json} {ls : List Literal},
    Json.areWellFormed vs = true → ofItems? vs = some ls → areFinite ls = true
  | [], ls, _, h => by
    obtain rfl := Option.some.inj h
    rfl
  | v :: vs, ls, hv, h => by
    obtain ⟨hv, hvs⟩ := Bool.and_eq_true_iff.mp hv
    rw [ofItems?] at h
    split at h
    · rename_i l rest hl hrest
      obtain rfl := Option.some.inj h
      rw [areFinite, isFinite_of_ofJson? hv hl, areFinite_of_ofItems? hvs hrest]
      rfl
    · simp at h

end

mutual

theorem isWellFormed_toJson : ∀ l : Literal, l.toJson.isWellFormed = true
  | .null => rfl
  | .bool _ => rfl
  | .int n => by
    have hlow := Int64.minValue_le_toInt n
    have hhigh := Int64.toInt_le n
    have hmax : Int64.maxValue.toInt < UInt64.size := by decide
    rw [toJson, Json.isWellFormed]
    exact decide_eq_true ⟨hlow, Int.lt_of_le_of_lt hhigh hmax⟩
  | .float (.finite _) => rfl
  | .float .nan => rfl
  | .float (.infinity _) => rfl
  | .text _ => rfl
  | .list items => areWellFormed_toItems items

theorem areWellFormed_toItems : ∀ ls : List Literal, Json.areWellFormed (toItems ls) = true
  | [] => rfl
  | l :: ls => by
    rw [toItems, Json.areWellFormed, isWellFormed_toJson l, areWellFormed_toItems ls]
    rfl

end

end ListQuery.Literal
