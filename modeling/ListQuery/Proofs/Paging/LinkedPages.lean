/-
The pages that links name.

A window of a registry holds at least one row and at most so many as the registry allows, and starts
where 64 bits reach.  A page that a link names starts there too, so asking for it by number and size
gives the window of this size that starts where the page does.

* `Window.le_lastPage_mul` and `Window.mul_lt_of_lt_lastPage` — how the last page is counted;
* `Window.Fits` — what the windows of a registry are, `fits_of_resolve`;
* `Window.Linked` — the pages of the links around a window;
* `resolve_linked` — asking for a linked page gives a window of the same size.
-/
import ListQuery.Proofs.Registry.Built
import ListQuery.Paging.Window

namespace ListQuery

theorem pageSize_bounds {r : Registry} (hr : r.Consistent) (n : Option Int64) :
    1 ≤ r.pageSize n ∧ r.pageSize n ≤ r.maxItems := by
  obtain ⟨hdefault, hmax⟩ := hr.items
  cases n with
  | none => exact ⟨hdefault, hmax⟩
  | some n =>
    rw [Registry.pageSize]
    split
    · exact ⟨Nat.le_refl 1, Nat.le_trans hdefault hmax⟩
    · have hpos : 1 ≤ n.toInt.toNat := by omega
      exact ⟨Nat.le_min.mpr ⟨hpos, Nat.le_trans hdefault hmax⟩, Nat.min_le_right _ _⟩

theorem pageSize_some {r : Registry} {n : Int64} {size : Nat} (hn : n.toInt = size)
    (hsize : 1 ≤ size) (hmax : size ≤ r.maxItems) : r.pageSize (some n) = size := by
  rw [Registry.pageSize, if_neg (by omega), hn, Int.toNat_natCast, Nat.min_eq_left hmax]

/-! ### Numbers of pages -/

namespace Window

variable {w : Window} {size k total : Nat}

theorem page_pos (w : Window) : 1 ≤ w.page := by
  rw [page]
  split
  · exact Nat.le_refl 1
  · exact Nat.le_add_left 1 _

theorem page_sub_one (hlimit : 1 ≤ w.limit) : w.page - 1 = w.offset / w.limit := by
  have hzero : ¬w.limit = 0 := by omega
  rw [page, if_neg hzero, Nat.add_sub_cancel]

theorem page_of_aligned (hsize : 1 ≤ size) : (Window.mk (k * size) size).page = k + 1 := by
  have hne : ¬size = 0 := by omega
  rw [page, if_neg hne, Nat.mul_div_cancel _ hsize]

theorem lastPage_eq (hsize : 1 ≤ size) (offset : Nat) :
    (Window.mk offset size).lastPage total = max 1 ((total + size - 1) / size) := by
  have hne : ¬size = 0 := by omega
  rw [lastPage, pageCount, if_neg hne]

/-- All rows fit on the pages up to the last one. -/
theorem le_lastPage_mul (hsize : 1 ≤ size) :
    total ≤ max 1 ((total + size - 1) / size) * size := by
  have hdiv := Nat.div_add_mod (total + size - 1) size
  have hmod := Nat.mod_lt (total + size - 1) hsize
  have hpages : total ≤ (total + size - 1) / size * size := by
    rw [Nat.mul_comm]
    omega
  exact Nat.le_trans hpages (Nat.mul_le_mul_right _ (Nat.le_max_right _ _))

/-- A page before the last one is full, and there are rows after it. -/
theorem mul_lt_of_lt_lastPage (hsize : 1 ≤ size) (hk : k < max 1 ((total + size - 1) / size))
    (hpos : 1 ≤ k) : k * size < total := by
  have hle : k + 1 ≤ (total + size - 1) / size := by omega
  have hmul : (k + 1) * size ≤ total + size - 1 := (Nat.le_div_iff_mul_le hsize).mp hle
  rw [Nat.succ_mul] at hmul
  omega

end Window

/-! ### Windows and their links -/

namespace Window

/-- A window of at least one row and at most so many as a registry allows, its start fitting 64 bits. -/
structure Fits (r : Registry) (w : Window) : Prop where
  limit : 1 ≤ w.limit ∧ w.limit ≤ r.maxItems
  offset : w.offset ≤ maxCount

theorem fits_of_resolve {r : Registry} (hr : r.Consistent) {p : PageRequest} {w : Window}
    (h : p.resolve r = .ok w) : w.Fits r := by
  rw [PageRequest.resolve] at h
  split at h
  · split at h
    · simp at h
    · obtain rfl := Except.ok.inj h
      refine ⟨pageSize_bounds hr _, ?_⟩
      have hle := Int64.toInt_le (p.offset.getD 0)
      have hmax : Int64.maxValue.toInt.toNat ≤ maxCount := by decide
      exact Nat.le_trans (Int.toNat_le_toNat hle) hmax
  · obtain rfl := Except.ok.inj h
    exact ⟨pageSize_bounds hr _, Nat.min_le_right _ _⟩

/-- The pages that the links around a window name, the list having so many rows. -/
def Linked (w : Window) (total page : Nat) : Prop :=
  page = w.page ∨ w.previous? total = some page ∨ w.next? total = some page

theorem lastPage_pos (w : Window) (total : Nat) : 1 ≤ w.lastPage total :=
  Nat.le_max_left 1 _

/-- The page before a window is given unless it is on the first one. -/
theorem previous?_eq_some_iff {w : Window} {total page : Nat} :
    w.previous? total = some page ↔ 1 < w.page ∧ page = min (w.page - 1) (w.lastPage total) := by
  have hlast := w.lastPage_pos total
  simp only [previous?, Option.ite_none_right_eq_some, Option.some.injEq]
  omega

/-- The page after a window is given unless it is on the last one or past it. -/
theorem next?_eq_some_iff {w : Window} {total page : Nat} :
    w.next? total = some page ↔ w.page < w.lastPage total ∧ page = w.page + 1 := by
  simp only [next?, Option.ite_none_right_eq_some, Option.some.injEq]
  omega

theorem pos_of_linked {w : Window} {total page : Nat} (h : w.Linked total page) : 1 ≤ page := by
  have hlast := w.lastPage_pos total
  rcases h with rfl | h | h
  · exact w.page_pos
  · obtain ⟨hpage, rfl⟩ := previous?_eq_some_iff.mp h
    omega
  · obtain ⟨-, rfl⟩ := next?_eq_some_iff.mp h
    exact Nat.le_add_left 1 _

/-- A linked page starts at or before the window, or before the last row. -/
theorem start_of_linked {r : Registry} {w : Window} {total page : Nat} (hw : w.Fits r)
    (htotal : total ≤ maxCount) (h : w.Linked total page) :
    (page - 1) * w.limit ≤ maxCount := by
  have hlimit := hw.limit.1
  have hupto : page ≤ w.page → (page - 1) * w.limit ≤ maxCount := by
    intro hle
    have hpage := page_sub_one hlimit
    have hstart : (page - 1) * w.limit ≤ w.offset / w.limit * w.limit :=
      Nat.mul_le_mul_right _ (by omega)
    exact Nat.le_trans (Nat.le_trans hstart (Nat.div_mul_le_self _ _)) hw.offset
  -- The current page and the one before it start no later than the window; the next has rows.
  rcases h with rfl | h | h
  · exact hupto (Nat.le_refl _)
  · obtain ⟨-, rfl⟩ := previous?_eq_some_iff.mp h
    exact hupto (by omega)
  · obtain ⟨hlast, rfl⟩ := next?_eq_some_iff.mp h
    rw [lastPage_eq hlimit] at hlast
    exact Nat.le_trans (Nat.le_of_lt (mul_lt_of_lt_lastPage hlimit hlast w.page_pos)) htotal

/-- Asking for a linked page by its number and the size of the window gives the window of this size
that starts where the page does. -/
theorem resolve_linked {r : Registry} {w : Window} {total page : Nat} (hw : w.Fits r)
    (htotal : total ≤ maxCount) (h : w.Linked total page) {number size : Int64}
    (hnumber : number.toInt = page) (hsize : size.toInt = w.limit) :
    PageRequest.resolve ⟨some number, some size, none, none⟩ r
      = .ok ⟨(page - 1) * w.limit, w.limit⟩ := by
  have hstart := start_of_linked hw htotal h
  have hlimit : r.pageSize (some size) = w.limit := pageSize_some hsize hw.limit.1 hw.limit.2
  have hpage : (Option.getD (some number) 1).toInt.toNat = page := by
    rw [Option.getD_some, hnumber, Int.toNat_natCast]
  rw [PageRequest.resolve, hlimit, hpage]
  show Except.ok (Window.mk (min ((page - 1) * w.limit) maxCount) w.limit) = _
  rw [Nat.min_eq_left hstart]

end Window

end ListQuery
