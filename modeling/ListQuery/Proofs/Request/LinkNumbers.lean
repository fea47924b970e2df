/-
Numbers in links, read back.

A link ends in the number of a page and its size, which are counts of 64 bits, and the reader takes
integers of 64 bits with a sign for them.  So half of the counts are no numbers to it, and there are
requests with links among these counts: one row after the greatest offset, a usual page size that no
request could ask for, and a list that goes on past the greatest page.

* `Links.Reads` — whether the numbers that a link ends in are read, `reads_page_iff`;
* `page_fits_iff` and `limit_fits_iff` — which windows of requests have numbers that are read;
* `reads_of_resolve` — which of the links around the window of a request are read.
-/
import ListQuery.Proofs.Paging.Neighbours
import ListQuery.Proofs.Paging.Normalised
import ListQuery.Proofs.Request.Parameters

namespace ListQuery

open Numeric

/-! ### Links whose numbers are read -/

namespace Links

/-- Whether the number of the page and its size, which stand in a link after the parameters of the
request, can be set. -/
def Reads (links : Links) (link : String) : Prop :=
  ∃ query page items, link = links.basePath ++ "?" ++ query
    ∧ FormEncoding.decode query = links.params ++ [("page", page), ("items", items)]
    ∧ ∀ q : Request, (∃ q', q.set "page" page = .ok q') ∧ ∃ q', q.set "items" items = .ok q'

theorem reads_page_iff {links : Links} {n items : Nat} :
    links.Reads (links.page n items)
      ↔ (n : Int) ≤ Int64.maxValue.toInt ∧ (items : Int) ≤ Int64.maxValue.toInt := by
  constructor
  · rintro ⟨query, page, size, hlink, hquery, hset⟩
    obtain rfl := (String.append_right_inj _).mp hlink
    rw [FormEncoding.decode_encode] at hquery
    obtain ⟨rfl, rfl⟩ : Text.decimalText n = page ∧ Text.decimalText items = size := by
      simpa using List.append_cancel_left hquery
    obtain ⟨⟨q₁, h₁⟩, q₂, h₂⟩ := hset .empty
    exact ⟨isSome_integer?_decimalText_iff.mp (Request.set_eq_ok_iff.mp h₁).1,
      isSome_integer?_decimalText_iff.mp (Request.set_eq_ok_iff.mp h₂).1⟩
  · rintro ⟨hn, hitems⟩
    refine ⟨_, _, _, rfl, FormEncoding.decode_encode _, fun q => ⟨?_, ?_⟩⟩
    · exact ⟨_, Request.set_eq_ok_iff.mpr ⟨isSome_integer?_decimalText_iff.mpr hn, rfl⟩⟩
    · exact ⟨_, Request.set_eq_ok_iff.mpr ⟨isSome_integer?_decimalText_iff.mpr hitems, rfl⟩⟩

end Links

/-! ### Windows whose numbers are read -/

namespace PageRequest

variable {p : PageRequest} {r : Registry} {w : Window}

/-- Whether the size of a request's pages is a number that is read: it is asked for, or the usual one of
the registry is such a number. -/
def SizeReads (p : PageRequest) (r : Registry) : Prop :=
  p.size? = none → (r.defaultItems : Int) ≤ Int64.maxValue.toInt

/-- A size that is asked for is read again, as it is no greater than the request said. -/
theorem limit_fits_iff (h : p.Normalised r w) :
    (w.limit : Int) ≤ Int64.maxValue.toInt ↔ p.SizeReads r := by
  have hsize := h.size
  rw [SizeReads]
  cases hasked : p.size? with
  | none =>
    rw [hasked, Option.elim_none] at hsize
    rw [hsize]
    exact ⟨fun h _ => h, fun h => h rfl⟩
  | some n =>
    rw [hasked, Option.elim_some] at hsize
    have hle := Int64.toInt_le n
    have hpos : 1 ≤ Int64.maxValue.toInt := by decide
    exact iff_of_true (by omega) (fun h => nomatch h)

theorem number_le (p : PageRequest) : p.number ≤ Int64.maxValue.toInt := by
  have hpos : 1 ≤ Int64.maxValue.toInt := by decide
  rw [number]
  cases p.page with
  | none => exact max_le hpos hpos
  | some n => exact max_le (Int64.toInt_le n) hpos

/-- A page that is asked for starts no later than its number says. -/
theorem page_le_number (h : p.Normalised r w) (hoffset : p.usesOffset = false) :
    (w.page : Int) ≤ p.number := by
  have hstart := h.start hoffset
  have hpos : 1 ≤ p.number := le_max_right _ _
  obtain ⟨k, hk⟩ := Int.eq_ofNat_of_zero_le (Int.sub_nonneg_of_le hpos)
  have hle : w.offset ≤ w.limit * k := by
    rw [hk, ← Int.natCast_mul, Nat.mul_comm] at hstart
    omega
  have hpage := Window.page_sub_one h.limit.1
  have hdiv := Nat.div_le_of_le_mul hle
  omega

/-- A window from an offset on starts at a number that is read. -/
theorem offset_le (h : p.Normalised r w) (hoffset : p.usesOffset = true) :
    (w.offset : Int) ≤ Int64.maxValue.toInt := by
  have hpos : 0 ≤ Int64.maxValue.toInt := by decide
  rw [h.offset hoffset]
  cases p.offset with
  | none => exact max_le hpos hpos
  | some n => exact max_le (Int64.toInt_le n) hpos

theorem offset_eq_max_iff (h : p.Normalised r w) (hoffset : p.usesOffset = true) :
    (w.offset : Int) = Int64.maxValue.toInt ↔ p.offset = some Int64.maxValue := by
  have hpos : 1 ≤ Int64.maxValue.toInt := by decide
  rw [h.offset hoffset]
  cases p.offset with
  | none =>
    rw [Option.elim_none]
    exact iff_of_false (by omega) (fun h => nomatch h)
  | some n =>
    rw [Option.elim_some, Option.some.injEq, ← Int64.toInt_inj]
    omega

theorem page_fits_iff (h : p.Normalised r w) :
    (w.page : Int) ≤ Int64.maxValue.toInt ↔ ¬(p.offset = some Int64.maxValue ∧ w.limit = 1) := by
  cases hoffset : p.usesOffset with
  | false =>
    obtain ⟨hnone, -⟩ : p.offset = none ∧ p.limit = none := by simpa [usesOffset] using hoffset
    rw [hnone]
    exact iff_of_true (Int.le_trans (page_le_number h hoffset) p.number_le) (fun h => nomatch h.1)
  | true =>
    have hle := offset_le h hoffset
    rw [← offset_eq_max_iff h hoffset]
    have hmax : Int64.maxValue.toInt = (Int64.maxValue.toInt.toNat : Nat) := rfl
    rw [hmax, Int.ofNat_le] at hle
    rw [hmax, Int.ofNat_le, Int.ofNat_inj]
    exact Window.page_le_iff (by decide) hle

/-- The page before that of a window has a number that is read. -/
theorem page_sub_one_le (h : p.Normalised r w) : ((w.page - 1 : Nat) : Int) ≤ Int64.maxValue.toInt := by
  cases hoffset : p.usesOffset with
  | false =>
    have hle := Int.le_trans (page_le_number h hoffset) p.number_le
    omega
  | true =>
    have hdiv := Nat.div_le_self w.offset w.limit
    have hle := offset_le h hoffset
    rw [Window.page_sub_one h.limit.1]
    omega

end PageRequest

/-! ### The links around the window of a request -/

/-- Which links around the window of a request have numbers that are read.  The size is read if it was
asked for, and otherwise if the usual one of the registry is.  The page is read unless it lies past the
greatest number: the page of a window is one row after the greatest offset, the page before it never is, and
the page after it only in a list that has more rows than a number counts.  What is not read is refused as no
number. -/
theorem reads_of_resolve {r : Registry} (hr : r.Built) {p : PageRequest} {w : Window}
    (h : p.resolve r = .ok w) (total : Nat) (links : Links) :
    let i := PageInfo.ofWindow w total links
    (links.Reads i.current ↔ p.SizeReads r ∧ ¬(p.offset = some Int64.maxValue ∧ w.limit = 1))
      ∧ (∀ link, i.previous = some link → (links.Reads link ↔ p.SizeReads r))
      ∧ (∀ link, i.next = some link →
          (links.Reads link ↔ p.SizeReads r ∧ (w.page : Int) < Int64.maxValue.toInt)
            ∧ ((total : Int) ≤ Int64.maxValue.toInt → (w.page : Int) < Int64.maxValue.toInt))
      ∧ ∀ n : Nat, ¬(n : Int) ≤ Int64.maxValue.toInt → ∀ q : Request,
          q.set "page" (Text.decimalText n) = .error (.paging "page" (.notANumber (Text.decimalText n)))
            ∧ q.set "items" (Text.decimalText n)
              = .error (.paging "items" (.notANumber (Text.decimalText n))) := by
  intro i
  have hnormal := PageRequest.normalised_of_resolve (Registry.consistent_of_built hr) h
  have hlimit := PageRequest.limit_fits_iff hnormal
  refine ⟨?_, fun link hlink => ?_, fun link hlink => ?_, fun n hn q => ?_⟩
  · rw [← hlimit, ← PageRequest.page_fits_iff hnormal, and_comm]
    exact Links.reads_page_iff
  · obtain ⟨-, rfl⟩ := PageInfo.previous_ofWindow_eq_some_iff.mp hlink
    have hprevious := PageRequest.page_sub_one_le hnormal
    rw [Links.reads_page_iff, hlimit]
    exact and_iff_right (by omega)
  · obtain ⟨hlast, rfl⟩ := PageInfo.next_ofWindow_eq_some_iff.mp hlink
    refine ⟨?_, fun htotal => ?_⟩
    · rw [Links.reads_page_iff, hlimit, and_comm]
      exact and_congr_right fun _ => by omega
    · have hrows : w.page * w.limit < total := (PageInfo.back_of_next hlink).1
      have hle : w.page ≤ w.page * w.limit := Nat.le_mul_of_pos_right _ hnormal.limit.1
      omega
  · exact ⟨bind_eq_error_iff.mpr (Or.inl (readCount_decimalText_eq_error hn)),
      bind_eq_error_iff.mpr (Or.inl (readCount_decimalText_eq_error hn))⟩

/-- The link to a window of one row after the greatest offset is not read, and that to a second page is. -/
theorem reads_of_resolve_greatest_offset :
    let links := Links.ofPath "/parts"
    let p : PageRequest := ⟨none, none, some Int64.maxValue, some 1⟩
    let p' : PageRequest := ⟨some 2, some 10, none, none⟩
    ∃ w w', p.resolve .parts = .ok w ∧ p'.resolve .parts = .ok w'
      ∧ (PageInfo.ofWindow w 60 links).current = "/parts?page=9223372036854775808&items=1"
      ∧ ¬links.Reads (PageInfo.ofWindow w 60 links).current
      ∧ links.Reads (PageInfo.ofWindow w' 60 links).current := by
  intro links p p'
  have hw : p.resolve .parts = .ok ⟨9223372036854775807, 1⟩ := rfl
  have hw' : p'.resolve .parts = .ok ⟨10, 10⟩ := rfl
  obtain ⟨hcurrent, -⟩ := reads_of_resolve Registry.built_parts hw 60 links
  obtain ⟨hcurrent', -⟩ := reads_of_resolve Registry.built_parts hw' 60 links
  have hsize : p'.SizeReads .parts := fun h => absurd h (by decide)
  have hoffset : ¬p'.offset = some Int64.maxValue := by decide
  refine ⟨_, _, hw, hw', by decide, fun h => ?_, hcurrent'.mpr ⟨hsize, fun h => hoffset h.1⟩⟩
  exact (hcurrent.mp h).2 ⟨rfl, rfl⟩

end ListQuery
