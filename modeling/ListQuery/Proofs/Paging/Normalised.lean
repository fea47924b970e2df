/-
The window that a page request comes to.

A request says what it says in numbers of 64 bits with a sign, and its window is counted in 64 bits
without one.  Nothing that a request says leaves these: sizes and pages are fitted into the limits of the
registry, a page that starts past all counts starts at the greatest, and even there the number of the
page is a count.

* `PageRequest.Mixes` — the requests that are refused, `resolve_eq_error_iff`;
* `PageRequest.Normalised` — what the window of any other request is;
* `Window.page_le_iff` — which windows have a page whose number is a count;
* `resolve_normalised` — every request is refused, or comes to the window it should.
-/
import ListQuery.Proofs.Paging.LinkedPages

namespace ListQuery

/-! ### Numbers of pages -/

namespace Window

variable {w : Window}

/-- The number of a page is at most as great as a bound on the rows before it, unless a window of one row
starts at the bound. -/
theorem page_le_iff {m : Nat} (hm : 2 ≤ m) (h : w.offset ≤ m) :
    w.page ≤ m ↔ ¬(w.offset = m ∧ w.limit = 1) := by
  rw [page]
  by_cases hzero : w.limit = 0
  · rw [if_pos hzero]
    omega
  rw [if_neg hzero]
  by_cases hone : w.limit = 1
  · rw [hone, Nat.div_one]
    omega
  -- Pages of two rows or more have numbers of at most half the count of rows before them.
  · have hhalf : w.offset / w.limit ≤ w.offset / 2 := Nat.div_le_div_left (by omega) (by decide)
    omega

/-- A window that is cut down to the greatest count has more than one row, if fewer pages than there are
counts lie before it. -/
theorem page_cut_le {before items : Nat} (hbefore : before < maxCount) :
    (Window.mk (min (before * items) maxCount) items).page ≤ maxCount := by
  refine (page_le_iff (by decide) (Nat.min_le_right _ _)).mpr ?_
  rintro ⟨hstart : min (before * items) maxCount = maxCount, rfl : items = 1⟩
  rw [Nat.mul_one] at hstart
  omega

end Window

/-! ### Styles and sizes -/

namespace PageRequest

variable {p : PageRequest} {r : Registry} {w : Window}

/-- Whether a request asks in both styles of paging. -/
def Mixes (p : PageRequest) : Prop :=
  p.usesOffset = true ∧ p.usesPage = true

/-- The number of rows that a request asks for, in the style it uses. -/
def size? (p : PageRequest) : Option Int64 :=
  if p.usesOffset then p.limit else p.items

/-- The number of the page that a request asks for; the first where it names none or one before it. -/
def number (p : PageRequest) : Int :=
  max (p.page.elim 1 Int64.toInt) 1

theorem resolve_eq_error_iff {e : QueryError} :
    p.resolve r = .error e
      ↔ p.Mixes ∧ e = .paging (if p.offset.isSome then "offset" else "limit") .mixedStyles := by
  rw [resolve, Mixes]
  split
  · rename_i hoffset
    split
    · rename_i hpage
      simp only [Except.error.injEq, hoffset, hpage, true_and, eq_comm]
    · rename_i hpage
      simp [hpage]
  · rename_i hoffset
    simp [hoffset]

theorem resolve_offset (hoffset : p.usesOffset = true) (h : ¬p.Mixes) :
    p.resolve r = .ok ⟨(p.offset.getD 0).toInt.toNat, r.pageSize p.limit⟩ := by
  have hpage : ¬p.usesPage = true := fun hpage => h ⟨hoffset, hpage⟩
  rw [resolve, if_pos hoffset, if_neg hpage]

theorem resolve_page (hoffset : ¬p.usesOffset = true) :
    p.resolve r
      = .ok ⟨min (((p.page.getD 1).toInt.toNat - 1) * r.pageSize p.items) maxCount,
          r.pageSize p.items⟩ := by
  rw [resolve, if_neg hoffset]

theorem size?_offset (h : p.usesOffset = true) : p.size? = p.limit :=
  if_pos h

theorem size?_page (h : ¬p.usesOffset = true) : p.size? = p.items :=
  if_neg h

/-- The rows before the page that a request asks for, in pages. -/
theorem number_sub_one : p.number - 1 = ((p.page.getD 1).toInt.toNat - 1 : Nat) := by
  rw [number]
  cases p.page with
  | none => rfl
  | some n =>
    rw [Option.elim_some, Option.getD_some]
    omega

end PageRequest

/-- A page has the size that is asked for, fitted between one row and the greatest size. -/
theorem pageSize_eq {r : Registry} (hr : r.Consistent) (n : Option Int64) :
    (r.pageSize n : Int) = n.elim (r.defaultItems : Int) fun n => max 1 (min n.toInt r.maxItems) := by
  obtain ⟨hdefault, hmax⟩ := hr.items
  cases n with
  | none => rfl
  | some n =>
    rw [Registry.pageSize, Option.elim_some]
    split <;> omega

/-! ### Windows of requests -/

namespace PageRequest

/-- What the window of a request is that does not mix the styles. -/
structure Normalised (p : PageRequest) (r : Registry) (w : Window) : Prop where
  limit : 1 ≤ w.limit ∧ w.limit ≤ r.maxItems
  size : (w.limit : Int)
    = p.size?.elim (r.defaultItems : Int) fun n => max 1 (min n.toInt r.maxItems)
  /-- An offset counts as it is, one below zero as zero. -/
  offset : p.usesOffset = true → (w.offset : Int) = max (p.offset.elim 0 Int64.toInt) 0
  /-- A page starts after the pages before it, or at the greatest count. -/
  start : p.usesOffset = false → (w.offset : Int) = min ((p.number - 1) * w.limit) maxCount
  counts : w.offset ≤ maxCount ∧ w.page ≤ maxCount
  /-- A page that starts at a count is the one that was asked for. -/
  page : p.usesOffset = false → (p.number - 1) * w.limit ≤ maxCount → (w.page : Int) = p.number

variable {p : PageRequest} {r : Registry} {w : Window}

/-- A window from an offset on, which is at most half of the counts. -/
theorem normalised_offset (hr : r.Consistent) (hoffset : p.usesOffset = true) :
    p.Normalised r ⟨(p.offset.getD 0).toInt.toNat, r.pageSize p.limit⟩ := by
  have hle := Int64.toInt_le (p.offset.getD 0)
  have hmax : Int64.maxValue.toInt.toNat < maxCount := by decide
  have hlt : (p.offset.getD 0).toInt.toNat < maxCount :=
    Nat.lt_of_le_of_lt (Int.toNat_le_toNat hle) hmax
  exact
    { limit := pageSize_bounds hr _
      size := by rw [size?_offset hoffset, pageSize_eq hr]
      offset := fun _ => by
        cases p.offset with
        | none => rfl
        | some n => exact Int.toNat_eq_max _
      start := fun h => by simp [hoffset] at h
      counts := by
        refine ⟨Nat.le_of_lt hlt, (Window.page_le_iff (by decide) (Nat.le_of_lt hlt)).mpr ?_⟩
        exact fun h => Nat.ne_of_lt hlt h.1
      page := fun h => by simp [hoffset] at h }

/-- A window of a page, of which there are fewer than counts. -/
theorem normalised_page (hr : r.Consistent) (hoffset : ¬p.usesOffset = true) :
    p.Normalised r ⟨min (((p.page.getD 1).toInt.toNat - 1) * r.pageSize p.items) maxCount,
      r.pageSize p.items⟩ := by
  have hbounds := pageSize_bounds hr p.items
  have hsize := pageSize_eq hr p.items
  have hsub := p.number_sub_one
  have hbefore : (p.page.getD 1).toInt.toNat - 1 < maxCount := by
    have hle := Int.toNat_le_toNat (Int64.toInt_le (p.page.getD 1))
    have hmax : Int64.maxValue.toInt.toNat < maxCount := by decide
    omega
  generalize (p.page.getD 1).toInt.toNat - 1 = before at hsub hbefore ⊢
  generalize r.pageSize p.items = items at hbounds hsize ⊢
  -- The product of the request's numbers is that of the counts.
  have hstart : (p.number - 1) * (items : Int) = (before * items : Nat) := by
    rw [hsub, Int.natCast_mul]
  exact
    { limit := hbounds
      size := by rw [size?_page hoffset, hsize]
      offset := fun h => absurd h hoffset
      start := fun _ => by
        show ((min (before * items) maxCount : Nat) : Int) = min ((p.number - 1) * items) maxCount
        rw [hstart]
        omega
      counts := ⟨Nat.min_le_right _ _, Window.page_cut_le hbefore⟩
      page := fun _ (hcount : (p.number - 1) * (items : Int) ≤ maxCount) => by
        have hfits : before * items ≤ maxCount := by
          rw [hstart] at hcount
          omega
        rw [Nat.min_eq_left hfits, Window.page_of_aligned hbounds.1]
        omega }

theorem normalised_of_resolve (hr : r.Consistent) (h : p.resolve r = .ok w) : p.Normalised r w := by
  have hmixes : ¬p.Mixes := by
    intro hmixes
    rw [resolve_eq_error_iff.mpr ⟨hmixes, rfl⟩] at h
    exact nomatch h
  by_cases hoffset : p.usesOffset = true
  · obtain rfl := Except.ok.inj ((resolve_offset hoffset hmixes).symm.trans h)
    exact normalised_offset hr hoffset
  · obtain rfl := Except.ok.inj ((resolve_page hoffset).symm.trans h)
    exact normalised_page hr hoffset

/-- A request of both styles is refused.  The window of any other one holds so many rows as it asks for,
within the limits of the registry, starts where it says, and is on a page whose number is a count. -/
theorem resolve_normalised (hr : r.Built) (p : PageRequest) :
    (∀ e, p.resolve r = .error e
        ↔ p.Mixes ∧ e = .paging (if p.offset.isSome then "offset" else "limit") .mixedStyles)
      ∧ (p.Mixes ∨ ∃ w, p.resolve r = .ok w ∧ p.Normalised r w) := by
  refine ⟨fun e => resolve_eq_error_iff, ?_⟩
  cases hresolve : p.resolve r with
  | error e => exact Or.inl (resolve_eq_error_iff.mp hresolve).1
  | ok w => exact Or.inr ⟨w, rfl, normalised_of_resolve (Registry.consistent_of_built hr) hresolve⟩

/-- The last page that can be asked for starts past all counts. -/
theorem resolve_normalised_last_page :
    let p : PageRequest := ⟨some Int64.maxValue, some 7000, none, none⟩
    Registry.parts.Built ∧ ∃ w, p.resolve Registry.parts = .ok w ∧ w.limit = 500
      ∧ w.offset = maxCount ∧ w.page ≤ maxCount := by
  intro p
  refine ⟨Registry.built_parts, ?_⟩
  obtain ⟨-, hmixes | ⟨w, hw, hnormal⟩⟩ := resolve_normalised Registry.built_parts p
  · exact absurd hmixes.1 (by decide)
  · have hsize : (w.limit : Int) = 500 := hnormal.size
    have hstart := hnormal.start rfl
    have hcut : min ((p.number - 1) * 500) (maxCount : Int) = maxCount := by decide
    rw [hsize, hcut] at hstart
    exact ⟨w, hw, Int.ofNat_inj.mp hsize, Int.ofNat_inj.mp hstart, hnormal.counts.2⟩

end PageRequest

end ListQuery
