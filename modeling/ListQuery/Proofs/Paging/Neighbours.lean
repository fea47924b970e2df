/-
The links around a window.

A window links to the page before it and to the one after it, as far as the list has these pages.  The
numbers are worked out in counts of 64 bits, where a sum may be too great, a quotient have no value and
two bounds stand in the wrong order.  None of this comes up as long as the number of the window's page is
a count, and what comes out is what exact numbers give.

* `Count.add?`, `Count.div?`, `Count.clamp?` and others — the steps in 64 bits, where they can be taken;
* `PageInfo.count?` — where a window stands, worked out in these steps, `count?_eq`;
* `Links.page_inj` — the links to two pages differ;
* `neighbours_of_window` — which pages the links around a window name, and that the link back from the next
  page is the link to the window's own.
-/
import ListQuery.Proofs.FormEncodingReadsBack
import ListQuery.Proofs.Numeric.Digits
import ListQuery.Proofs.Paging.LinkedPages
import ListQuery.Paging.Links
import Mathlib.Algebra.Order.Floor.Div

namespace ListQuery

/-! ### Counts of 64 bits -/

theorem toNat_le_maxCount (n : UInt64) : n.toNat ≤ maxCount :=
  Nat.le_sub_one_of_lt n.toNat_lt

theorem exists_toNat_eq {n : Nat} (h : n ≤ maxCount) : ∃ c : UInt64, c.toNat = n :=
  ⟨.ofNat n, UInt64.toNat_ofNat_of_lt' (Nat.lt_of_le_of_lt h (by decide))⟩

namespace Count

/-- The sum of two counts, if it is one. -/
def add? (a b : UInt64) : Option UInt64 :=
  if a.toNat + b.toNat ≤ maxCount then some (a + b) else none

/-- The sum of two counts, or the greatest count. -/
def addUpTo (a b : UInt64) : UInt64 :=
  (add? a b).getD (.ofNat maxCount)

/-- The difference of two counts, or zero. -/
def subDownTo (a b : UInt64) : UInt64 :=
  if b ≤ a then a - b else 0

/-- The quotient of two counts, if the second one is not zero. -/
def div? (a b : UInt64) : Option UInt64 :=
  if b = 0 then none else some (a / b)

/-- The quotient of two counts, rounded up. -/
def divUp? (a b : UInt64) : Option UInt64 := do
  let whole ← div? a b
  if a % b = 0 then return whole else add? whole 1

/-- A count, or one in place of zero. -/
def atLeastOne (n : UInt64) : UInt64 :=
  if n < 1 then 1 else n

/-- A count brought between two others, if these are in order. -/
def clamp? (n low high : UInt64) : Option UInt64 :=
  if low ≤ high then some (if n < low then low else if high < n then high else n) else none

variable {a b n low high : UInt64}

theorem toNat_add (h : a.toNat + b.toNat ≤ maxCount) : (a + b).toNat = a.toNat + b.toNat := by
  rw [UInt64.toNat_add]
  exact Nat.mod_eq_of_lt (Nat.lt_of_le_of_lt h (by decide))

theorem add?_eq_some (h : a.toNat + b.toNat ≤ maxCount) : add? a b = some (a + b) :=
  if_pos h

theorem toNat_addUpTo : (addUpTo a b).toNat = min (a.toNat + b.toNat) maxCount := by
  rw [addUpTo, add?]
  split
  · rename_i h
    rw [Option.getD_some, toNat_add h, Nat.min_eq_left h]
  · rename_i h
    have hmax : (UInt64.ofNat maxCount).toNat = maxCount := by decide
    rw [Option.getD_none, hmax, Nat.min_eq_right (by omega)]

theorem toNat_subDownTo : (subDownTo a b).toNat = a.toNat - b.toNat := by
  rw [subDownTo]
  split
  · rename_i h
    exact UInt64.toNat_sub_of_le a b h
  · rename_i h
    rw [UInt64.le_iff_toNat_le] at h
    have hzero := UInt64.toNat_zero
    omega

theorem div?_eq_some (hb : b ≠ 0) : div? a b = some (a / b) :=
  if_neg hb

/-- Rounding a quotient up never leaves the counts. -/
theorem exists_divUp?_eq (hb : b ≠ 0) :
    ∃ c, divUp? a b = some c ∧ c.toNat = (a.toNat + b.toNat - 1) / b.toNat := by
  have hpos : 0 < b.toNat := Nat.pos_of_ne_zero fun h => hb (UInt64.toNat_inj.mp h)
  have hparts := Nat.div_add_mod' a.toNat b.toNat
  have hrest := Nat.mod_lt a.toNat hpos
  have hmod : a % b = 0 ↔ a.toNat % b.toNat = 0 := by
    rw [← UInt64.toNat_inj, UInt64.toNat_mod]
    rfl
  rw [divUp?, div?_eq_some hb]
  by_cases hzero : a % b = 0
  · refine ⟨a / b, if_pos hzero, ?_⟩
    rw [hmod] at hzero
    rw [UInt64.toNat_div]
    exact (Nat.div_eq_of_lt_le (by omega) (by rw [Nat.succ_mul]; omega)).symm
  · rw [hmod] at hzero
    -- There is a rest, so the divisor is at least two.
    have hhalf : a.toNat / b.toNat ≤ a.toNat / 2 := Nat.div_le_div_left (by omega) (by decide)
    have hmax : maxCount = 2 ^ 64 - 1 := by decide
    have hlt := a.toNat_lt
    have hsum : (a / b).toNat + (1 : UInt64).toNat ≤ maxCount := by
      rw [UInt64.toNat_div, UInt64.toNat_one]
      omega
    refine ⟨a / b + 1, (if_neg (mt hmod.mp hzero)).trans (add?_eq_some hsum), ?_⟩
    rw [toNat_add hsum, UInt64.toNat_div, UInt64.toNat_one]
    refine (Nat.div_eq_of_lt_le ?_ ?_).symm
    · rw [Nat.succ_mul]
      omega
    · rw [Nat.succ_mul, Nat.succ_mul]
      omega

theorem toNat_atLeastOne : (atLeastOne n).toNat = max 1 n.toNat := by
  have hone := UInt64.toNat_one
  rw [atLeastOne]
  split
  · rename_i h
    rw [UInt64.lt_iff_toNat_lt] at h
    omega
  · rename_i h
    rw [UInt64.lt_iff_toNat_lt] at h
    omega

theorem exists_clamp?_eq (h : low ≤ high) :
    ∃ c, clamp? n low high = some c ∧ c.toNat = min (max n.toNat low.toNat) high.toNat := by
  refine ⟨_, if_pos h, ?_⟩
  rw [UInt64.le_iff_toNat_le] at h
  split
  · rename_i hlow
    rw [UInt64.lt_iff_toNat_lt] at hlow
    omega
  · rename_i hlow
    rw [UInt64.lt_iff_toNat_lt] at hlow
    split
    · rename_i hhigh
      rw [UInt64.lt_iff_toNat_lt] at hhigh
      omega
    · rename_i hhigh
      rw [UInt64.lt_iff_toNat_lt] at hhigh
      omega

end Count

/-! ### A window in counts -/

open ListQuery.Count

/-- The number of the page on which a window starts, in counts. -/
def Window.page? (offset limit : UInt64) : Option UInt64 :=
  if limit = 0 then some 1 else do add? (← div? offset limit) 1

/-- The number of the pages of a list, in counts. -/
def Window.pageCount? (limit total : UInt64) : Option UInt64 :=
  if limit = 0 then some 1 else divUp? total limit

/-- Where a window stands in a list, worked out in counts. -/
def PageInfo.count? (offset limit total : UInt64) (links : Links) : Option PageInfo := do
  let page ← Window.page? offset limit
  let pageCount ← Window.pageCount? limit total
  let last := atLeastOne pageCount
  let previous ← clamp? (subDownTo page 1) 1 last
  let next ← clamp? (addUpTo page 1) 1 last
  let link (n : Nat) := links.page n limit.toNat
  return ⟨page.toNat, limit.toNat, total.toNat, pageCount.toNat, link page.toNat,
    (if previous < page then some previous.toNat else none).map link,
    (if page < next then some next.toNat else none).map link⟩

section Counts

variable {w : Window} {offset limit total : UInt64}

theorem exists_page?_eq (hoffset : offset.toNat = w.offset) (hlimit : limit.toNat = w.limit)
    (h : w.page ≤ maxCount) : ∃ page, Window.page? offset limit = some page ∧ page.toNat = w.page := by
  rw [Window.page, ← hoffset, ← hlimit] at h ⊢
  by_cases hempty : limit = 0
  · subst hempty
    exact ⟨1, rfl, rfl⟩
  · have hzero : ¬limit.toNat = 0 := fun h => hempty (UInt64.toNat_inj.mp h)
    rw [if_neg hzero] at h ⊢
    have hsum : (offset / limit).toNat + (1 : UInt64).toNat ≤ maxCount := by
      rw [UInt64.toNat_div, UInt64.toNat_one]
      exact h
    refine ⟨offset / limit + 1, ?_, ?_⟩
    · rw [Window.page?, if_neg hempty, div?_eq_some hempty]
      exact add?_eq_some hsum
    · rw [toNat_add hsum, UInt64.toNat_div, UInt64.toNat_one]

theorem exists_pageCount?_eq (hlimit : limit.toNat = w.limit) (total : UInt64) :
    ∃ count, Window.pageCount? limit total = some count ∧ count.toNat = w.pageCount total.toNat := by
  rw [Window.pageCount?, Window.pageCount, ← hlimit]
  by_cases hempty : limit = 0
  · subst hempty
    exact ⟨1, rfl, rfl⟩
  · have hzero : ¬limit.toNat = 0 := fun h => hempty (UInt64.toNat_inj.mp h)
    rw [if_neg hempty, if_neg hzero]
    exact exists_divUp?_eq hempty

theorem lastPage_le_maxCount (hlimit : limit.toNat = w.limit) (total : UInt64) :
    w.lastPage total.toNat ≤ maxCount := by
  obtain ⟨count, -, hcount⟩ := exists_pageCount?_eq hlimit total
  rw [Window.lastPage, ← hcount, ← toNat_atLeastOne]
  exact toNat_le_maxCount _

/-- Nothing goes wrong in counts while the page of the window has a number, and exact numbers come out. -/
theorem count?_eq (hoffset : offset.toNat = w.offset) (hlimit : limit.toNat = w.limit)
    (h : w.page ≤ maxCount) (total : UInt64) (links : Links) :
    PageInfo.count? offset limit total links = some (.ofWindow w total.toNat links) := by
  obtain ⟨page, hpage, hpageNat⟩ := exists_page?_eq hoffset hlimit h
  obtain ⟨count, hcount, hcountNat⟩ := exists_pageCount?_eq hlimit total
  have hlast : (atLeastOne count).toNat = w.lastPage total.toNat := by
    rw [toNat_atLeastOne, hcountNat, Window.lastPage]
  have hbounds : 1 ≤ atLeastOne count := by
    rw [UInt64.le_iff_toNat_le, hlast]
    exact Window.lastPage_pos _ _
  obtain ⟨previous, hprevious, hpreviousNat⟩ := exists_clamp?_eq (n := subDownTo page 1) hbounds
  obtain ⟨next, hnext, hnextNat⟩ := exists_clamp?_eq (n := addUpTo page 1) hbounds
  rw [toNat_subDownTo, UInt64.toNat_one, hlast, hpageNat] at hpreviousNat
  -- The list has no more pages than there are counts, so the number after a page is never cut down.
  have hcut : ∀ m, w.lastPage total.toNat ≤ m →
      min (max (min (w.page + 1) m) 1) (w.lastPage total.toNat)
        = min (w.page + 1) (w.lastPage total.toNat) := by
    omega
  rw [toNat_addUpTo, UInt64.toNat_one, hlast, hpageNat,
    hcut _ (lastPage_le_maxCount hlimit total)] at hnextNat
  simp only [PageInfo.count?, hpage, hcount, hprevious, hnext, Option.bind_eq_bind, Option.bind_some,
    Option.pure_def, PageInfo.ofWindow, Window.previous?, Window.next?, UInt64.lt_iff_toNat_lt,
    hpreviousNat, hnextNat, hpageNat, hcountNat, hlimit]

end Counts

/-! ### The links around a window -/

theorem Text.decimalText_inj {m n : Nat} : decimalText m = decimalText n ↔ m = n := by
  refine ⟨fun h => ?_, congrArg decimalText⟩
  have hdigits : decimal m = decimal n := String.ofList_inj.mp h
  rw [← Numeric.NumberText.natOf_decimal m, hdigits, Numeric.NumberText.natOf_decimal]

theorem FormEncoding.encode_inj {ps qs : List (String × String)} : encode ps = encode qs ↔ ps = qs := by
  refine ⟨fun h => ?_, congrArg encode⟩
  rw [← decode_encode ps, h, decode_encode]

/-- The links to two pages of a size differ. -/
theorem Links.page_inj {links : Links} {items m n : Nat} :
    links.page m items = links.page n items ↔ m = n := by
  refine ⟨fun h => ?_, fun h => h ▸ rfl⟩
  have hparams := FormEncoding.encode_inj.mp ((String.append_right_inj _).mp h)
  have hpage := (List.cons.inj (List.append_cancel_left hparams)).1
  exact Text.decimalText_inj.mp (Prod.mk.inj hpage).2

namespace Window

variable (w : Window)

/-- A window without rows is on the first page, as no row is divided among none. -/
theorem page_eq : w.page = w.offset / w.limit + 1 := by
  rw [page]
  split
  · rename_i hlimit
    rw [hlimit, Nat.div_zero]
  · rfl

theorem lastPage_eq_ceilDiv (total : Nat) : w.lastPage total = max 1 (total ⌈/⌉ w.limit) := by
  rw [lastPage, pageCount, Nat.ceilDiv_eq_add_pred_div]
  split
  · rename_i hlimit
    rw [hlimit, Nat.div_zero]
    rfl
  · rfl

end Window

/-- What the links around a page name, if the list goes from the first page to a last one. -/
structure PageInfo.Neighbours (i : PageInfo) (links : Links) (page last : Nat) : Prop where
  number : i.page = page
  current : i.current = links.page page i.items
  /-- From a page past the last one, the link back leads to the last one. -/
  previous : ∀ link, i.previous = some link ↔ 1 < page ∧ link = links.page (min (page - 1) last) i.items
  next : ∀ link, i.next = some link ↔ page < last ∧ link = links.page (page + 1) i.items
  inList : ∀ n, i.previous = some (links.page n i.items) ∨ i.next = some (links.page n i.items) →
    1 ≤ n ∧ n ≤ last
  previous_ne : i.previous ≠ some i.current
  next_ne : i.next ≠ some i.current

namespace PageInfo

variable {w : Window} {total : Nat} {links : Links}

theorem previous_ofWindow_eq_some_iff {link : String} :
    (ofWindow w total links).previous = some link
      ↔ 1 < w.page ∧ link = links.page (min (w.page - 1) (w.lastPage total)) w.limit := by
  rw [ofWindow, Option.map_eq_some_iff]
  constructor
  · rintro ⟨n, hn, rfl⟩
    obtain ⟨hpage, rfl⟩ := Window.previous?_eq_some_iff.mp hn
    exact ⟨hpage, rfl⟩
  · rintro ⟨hpage, rfl⟩
    exact ⟨_, Window.previous?_eq_some_iff.mpr ⟨hpage, rfl⟩, rfl⟩

theorem next_ofWindow_eq_some_iff {link : String} :
    (ofWindow w total links).next = some link
      ↔ w.page < w.lastPage total ∧ link = links.page (w.page + 1) w.limit := by
  rw [ofWindow, Option.map_eq_some_iff]
  constructor
  · rintro ⟨n, hn, rfl⟩
    obtain ⟨hpage, rfl⟩ := Window.next?_eq_some_iff.mp hn
    exact ⟨hpage, rfl⟩
  · rintro ⟨hpage, rfl⟩
    exact ⟨_, Window.next?_eq_some_iff.mpr ⟨hpage, rfl⟩, rfl⟩

theorem neighbours_ofWindow (w : Window) (total : Nat) (links : Links) :
    (ofWindow w total links).Neighbours links w.page (w.lastPage total) where
  number := rfl
  current := rfl
  previous _ := previous_ofWindow_eq_some_iff
  next _ := next_ofWindow_eq_some_iff
  inList n h := by
    have hlast := w.lastPage_pos total
    -- No other page has the same link, so the page is the one that is known.
    rcases h with h | h
    · obtain ⟨hpage, hlink⟩ := previous_ofWindow_eq_some_iff.mp h
      obtain rfl := Links.page_inj.mp hlink
      omega
    · obtain ⟨hpage, hlink⟩ := next_ofWindow_eq_some_iff.mp h
      obtain rfl := Links.page_inj.mp hlink
      omega
  previous_ne h := by
    obtain ⟨hpage, hlink⟩ := previous_ofWindow_eq_some_iff.mp h
    have hsame := Links.page_inj.mp hlink
    omega
  next_ne h := by
    obtain ⟨hpage, hlink⟩ := next_ofWindow_eq_some_iff.mp h
    have hsame := Links.page_inj.mp hlink
    omega

/-- The page that a window links to as the next one starts before the last row, and links back to the page
of the window. -/
theorem back_of_next {link : String} (h : (ofWindow w total links).next = some link) :
    let following : Window := ⟨w.page * w.limit, w.limit⟩
    following.offset < total ∧ following.page = w.page + 1
      ∧ (ofWindow following total links).current = link
      ∧ (ofWindow following total links).previous = some (ofWindow w total links).current := by
  intro following
  obtain ⟨hlast, rfl⟩ := next_ofWindow_eq_some_iff.mp h
  have hlimit : 1 ≤ w.limit := by
    refine Nat.pos_of_ne_zero fun hzero => ?_
    rw [w.lastPage_eq_ceilDiv, w.page_eq, hzero, Nat.div_zero, ceilDiv_zero] at hlast
    exact absurd hlast (by decide)
  have hpage : following.page = w.page + 1 := Window.page_of_aligned hlimit
  have hrows : following.offset < total :=
    Window.mul_lt_of_lt_lastPage hlimit (hlast.trans_eq (Window.lastPage_eq hlimit _)) w.page_pos
  refine ⟨hrows, hpage, congrArg (links.page · w.limit) hpage, ?_⟩
  rw [previous_ofWindow_eq_some_iff, hpage]
  have hmin : min (w.page + 1 - 1) (following.lastPage total) = w.page :=
    Nat.min_eq_left (Nat.le_of_lt hlast)
  rw [hmin]
  exact ⟨Nat.lt_add_of_pos_left w.page_pos, rfl⟩

end PageInfo

/-- The links around a window are worked out without fault in 64 bits, as long as its page has a number.
They lead to the page before, or back to the last one from past it, and to the page after, where the list
has these, and never to where the window is.  Where there is a next page, its window starts at a count and
links back to the page that it was reached from. -/
theorem neighbours_of_window {offset limit : UInt64}
    (hpage : offset.toNat / limit.toNat + 1 ≤ maxCount) (total : UInt64) (links : Links) :
    ∃ i, PageInfo.count? offset limit total links = some i
      ∧ i = .ofWindow ⟨offset.toNat, limit.toNat⟩ total.toNat links
      ∧ i.Neighbours links (offset.toNat / limit.toNat + 1) (max 1 (total.toNat ⌈/⌉ limit.toNat))
      ∧ ∀ link, i.next = some link →
          ∃ (start : UInt64) (i' : PageInfo), start.toNat = i.page * limit.toNat
            ∧ PageInfo.count? start limit total links = some i'
            ∧ i'.page = i.page + 1 ∧ i'.current = link ∧ i'.previous = some i.current := by
  let w : Window := ⟨offset.toNat, limit.toNat⟩
  have hcount : w.page ≤ maxCount := by
    rw [w.page_eq]
    exact hpage
  refine ⟨_, count?_eq rfl rfl hcount total links, rfl, ?_, fun link hlink => ?_⟩
  · have hneighbours := PageInfo.neighbours_ofWindow w total.toNat links
    rw [w.page_eq, w.lastPage_eq_ceilDiv] at hneighbours
    exact hneighbours
  · obtain ⟨hrows, hnext, hcurrent, hback⟩ := PageInfo.back_of_next hlink
    obtain ⟨start, hstart⟩ :=
      exists_toNat_eq (Nat.le_trans (Nat.le_of_lt hrows) (toNat_le_maxCount total))
    have hnumber : (Window.mk (w.page * w.limit) w.limit).page ≤ maxCount := by
      rw [hnext]
      exact Nat.le_trans (PageInfo.next_ofWindow_eq_some_iff.mp hlink).1 (lastPage_le_maxCount rfl total)
    exact ⟨start, _, hstart, count?_eq hstart rfl hnumber total links, hnext, hcurrent, hback⟩

/-- A window inside a page, and the window of the next page. -/
theorem neighbours_of_window_fifth_page :
    ∃ i i', PageInfo.count? 45 10 60 (.ofPath "/parts") = some i
      ∧ PageInfo.count? 50 10 60 (.ofPath "/parts") = some i'
      ∧ i.previous = some "/parts?page=4&items=10" ∧ i.next = some "/parts?page=6&items=10"
      ∧ i'.current = "/parts?page=6&items=10" ∧ i'.previous = some "/parts?page=5&items=10" := by
  have hpage : (45 : UInt64).toNat / (10 : UInt64).toNat + 1 ≤ maxCount := by decide
  obtain ⟨i, hi, rfl, hneighbours, hback⟩ := neighbours_of_window hpage 60 (.ofPath "/parts")
  have hlast : max 1 ((60 : UInt64).toNat ⌈/⌉ (10 : UInt64).toNat) = 6 := by
    rw [Nat.ceilDiv_eq_add_pred_div]
    rfl
  rw [hlast] at hneighbours
  have hprevious := (hneighbours.previous _).mpr ⟨by decide, rfl⟩
  have hnext := (hneighbours.next _).mpr ⟨by decide, rfl⟩
  obtain ⟨start, i', hstart, hi', -, hcurrent, hpage'⟩ := hback _ hnext
  obtain rfl : start = 50 := UInt64.toNat_inj.mp hstart
  exact ⟨_, i', hi, hi', hprevious.trans (by decide), hnext.trans (by decide), hcurrent.trans (by decide),
    hpage'.trans (by decide)⟩

end ListQuery
