/-
Browsing through all pages of a list.

A reader asks for the first page of some size and then, as long as a page links to a next one, for the
page of the next number and the same size.  The backend sorts the rows anew for every page, and may find
them in another arrangement each time.

* `Backend.Serves` — a backend that counts the rows of a predicate and cuts windows out of them in
  order;
* `Browsed` — the pages that a reader sees, one after the other;
* `run_page` and `browsed_page` — what one page shows, and what is seen from a page on;
* `browsed_all` — the pages together show each row once and in order, and there are no more of them than
  the rows need.

Design notes: what a backend does may depend on a state of its own, of which nothing is known; `Serves`
is about every state.  The pages of a reader are a relation and not a function, for nothing but the links
says when it ends; that it does end, and how, is what `browsed_all` states.
-/
import ListQuery.Proofs.Paging.LinkedPages
import ListQuery.Proofs.Plan.Parts
import ListQuery.Proofs.RowOrder
import Mathlib.Data.Nat.Basic

namespace ListQuery

variable {Row σ : Type} {V : String → Type} [∀ column, LinearOrder (V column)]

/-! ### Backends -/

/-- A backend of a table: it counts the rows that match a predicate, and gives the rows of a window out
of some arrangement of them in the order that is asked for. -/
structure Backend.Serves (b : Backend (StateM σ) Row) (cell : Row → (column : String) → V column)
    (matching : Option Predicate → List Row) : Prop where
  count : ∀ predicate s, ((b.count predicate).run s).1 = (matching predicate).length
  fetch : ∀ predicate (o : RowOrder) (w : Window) s,
    ∃ arranged, o.Arranged cell (matching predicate) arranged
      ∧ ((b.fetch predicate o w).run s).1 = (arranged.drop w.offset).take w.limit

/-- A backend that sorts what it finds; how the rows stand in the table changes from fetch to fetch. -/
def Backend.ofStandings (cell : Row → (column : String) → V column)
    (matching : Option Predicate → List Row) (standing : Nat → List Row → List Row) :
    Backend (StateM Nat) Row where
  count predicate := pure (matching predicate).length
  fetch predicate o w := do
    let n ← get
    set (n + 1)
    let sorted := (standing n (matching predicate)).mergeSort (o.inOrder cell)
    return (sorted.drop w.offset).take w.limit

theorem Backend.serves_ofStandings (cell : Row → (column : String) → V column)
    (matching : Option Predicate → List Row) {standing : Nat → List Row → List Row}
    (h : ∀ n rows, (standing n rows).Perm rows) :
    (Backend.ofStandings cell matching standing).Serves cell matching where
  count _ _ := rfl
  fetch _ o _ n := ⟨_, arranged_mergeSort o (h n _), rfl⟩

/-! ### Readers -/

/-- What a reader asks for after a page: the page of the next number, in the same size. -/
def PageInfo.following (i : PageInfo) : PageRequest :=
  ⟨some (.ofNat (i.page + 1)), some (.ofNat i.items), none, none⟩

/-- The pages that a reader sees from a plan on, the backend being in some state. -/
inductive Browsed (b : Backend (StateM σ) Row) (r : Registry) (path : String) (q : Request) :
    Plan → σ → List (Page Row) → Prop where
  /-- A page without a link to a next one is the last. -/
  | last {p : Plan} {s s' : σ} {page : Page Row} (hrun : (p.run b).run s = (page, s'))
      (hlink : page.metadata.paging.next = none) : Browsed b r path q p s [page]
  /-- After a page with a link to a next one comes what the plan for that one shows. -/
  | next {p p' : Plan} {s s' : σ} {page : Page Row} {pages : List (Page Row)} {link : String}
      (hrun : (p.run b).run s = (page, s')) (hlink : page.metadata.paging.next = some link)
      (hp : Plan.build (q.withPaging page.metadata.paging.following) r path = .ok p')
      (hrest : Browsed b r path q p' s' pages) : Browsed b r path q p s (page :: pages)

variable {b : Backend (StateM σ) Row} {r : Registry} {path : String} {q : Request}

theorem Browsed.unique {p : Plan} {s : σ} {pages pages' : List (Page Row)}
    (h : Browsed b r path q p s pages) (h' : Browsed b r path q p s pages') : pages' = pages := by
  induction h generalizing pages' with
  | last hrun hlink =>
    cases h' with
    | last hrun' _ =>
      obtain ⟨rfl, rfl⟩ := Prod.mk.inj (hrun.symm.trans hrun')
      rfl
    | next hrun' hlink' _ _ =>
      obtain ⟨rfl, rfl⟩ := Prod.mk.inj (hrun.symm.trans hrun')
      simp [hlink] at hlink'
  | next hrun hlink hp _ ih =>
    cases h' with
    | last hrun' hlink' =>
      obtain ⟨rfl, rfl⟩ := Prod.mk.inj (hrun.symm.trans hrun')
      simp [hlink] at hlink'
    | next hrun' _ hp' hrest' =>
      obtain ⟨rfl, rfl⟩ := Prod.mk.inj (hrun.symm.trans hrun')
      obtain rfl := Except.ok.inj (hp.symm.trans hp')
      rw [ih hrest']

/-! ### The windows of pages -/

namespace Window

variable {size k total : Nat}

theorem next?_of_aligned (hsize : 1 ≤ size) :
    (Window.mk (k * size) size).next? total
      = if k + 1 < max 1 ((total + size - 1) / size) then some (k + 2) else none := by
  rw [next?, page_of_aligned hsize, lastPage_eq hsize]
  by_cases hk : k + 1 < max 1 ((total + size - 1) / size)
  · have hmin : min (k + 1 + 1) (max 1 ((total + size - 1) / size)) = k + 2 := by omega
    simp only [hmin, if_pos hk]
    exact if_pos (by omega)
  · have hmin : ¬k + 1 < min (k + 1 + 1) (max 1 ((total + size - 1) / size)) := by omega
    simp only [if_neg hk]
    exact if_neg hmin

end Window

/-! ### One page, and the pages from it on -/

section Pages

variable {cell : Row → (column : String) → V column} {matching : Option Predicate → List Row}

/-- A page shows the rows of its window, out of the one arrangement that there is. -/
theorem run_eq (hb : b.Serves cell matching) {p : Plan} {arranged : List Row}
    (honly : ∀ l, p.order.Arranged cell (matching p.predicate) l → l = arranged) (s : σ) :
    ∃ s', (p.run b).run s
      = (⟨(arranged.drop p.window.offset).take p.window.limit,
          p.metadata (matching p.predicate).length⟩, s') := by
  obtain ⟨l, hl, hrows⟩ := hb.fetch p.predicate p.order p.window ((b.count p.predicate).run s).2
  obtain rfl := honly l hl
  refine ⟨((b.fetch p.predicate p.order p.window).run ((b.count p.predicate).run s).2).2, ?_⟩
  rw [← hrows, ← hb.count p.predicate s]
  rfl

/-- What a page of a list shows: its rows, a link to the next page unless it is the last one, and the
numbers that the next page is asked for by. -/
theorem run_page (hb : b.Serves cell matching) {p : Plan} {arranged : List Row} {size : Nat}
    (hsize : 1 ≤ size) (honly : ∀ l, p.order.Arranged cell (matching p.predicate) l → l = arranged)
    (k : Nat) (s : σ) :
    ∃ page s', (Plan.run { p with window := ⟨k * size, size⟩ } b).run s = (page, s')
      ∧ page.rows = (arranged.drop (k * size)).take size
      ∧ page.metadata.paging.next
        = (if k + 1 < max 1 (((matching p.predicate).length + size - 1) / size) then some (k + 2)
            else none).map (p.links.page · size)
      ∧ page.metadata.paging.following
        = ⟨some (.ofNat (k + 2)), some (.ofNat size), none, none⟩ := by
  obtain ⟨s', hrun⟩ := run_eq (p := { p with window := ⟨k * size, size⟩ }) hb honly s
  refine ⟨_, s', hrun, rfl, ?_, ?_⟩
  · show ((Window.mk (k * size) size).next? _).map _ = _
    rw [Window.next?_of_aligned hsize]
  · show PageInfo.following (.ofWindow ⟨k * size, size⟩ _ _) = _
    rw [PageInfo.following, PageInfo.ofWindow, Window.page_of_aligned hsize]

/-- The numbers of a page before which there are rows of the list give the window of that page. -/
theorem resolve_following {size k total : Nat} (hsize : 1 ≤ size) (hmax : size ≤ r.maxItems)
    (htotal : (total : Int) ≤ Int64.maxValue.toInt)
    (hk : k + 1 < max 1 ((total + size - 1) / size)) :
    PageRequest.resolve ⟨some (.ofNat (k + 2)), some (.ofNat size), none, none⟩ r
      = .ok ⟨(k + 1) * size, size⟩ := by
  have hlimit : Int64.maxValue.toInt = 2 ^ 63 - 1 := by decide
  have hmaxCount : maxCount = 2 ^ 64 - 1 := by decide
  -- The page starts before the last row, so its number and its size are below the number of rows.
  have hbefore : (k + 1) * size < total := Window.mul_lt_of_lt_lastPage hsize hk (by omega)
  have hnumber_le : k + 1 ≤ (k + 1) * size := Nat.le_mul_of_pos_right _ hsize
  have hsize_le : size ≤ (k + 1) * size := Nat.le_mul_of_pos_left _ (Nat.succ_pos k)
  have hstart : k * size ≤ maxCount := by
    have hle : k * size ≤ (k + 1) * size := Nat.mul_le_mul_right _ (Nat.le_succ k)
    omega
  have hfits : (Window.mk (k * size) size).Fits r := ⟨⟨hsize, hmax⟩, hstart⟩
  have hlinked : (Window.mk (k * size) size).Linked total (k + 2) := by
    refine Or.inr (Or.inr ?_)
    rw [Window.next?_of_aligned hsize, if_pos hk]
  have hnumber : (Int64.ofNat (k + 2)).toInt = (k + 2 : Nat) := Int64.toInt_ofNat_of_lt (by omega)
  have hitems : (Int64.ofNat size).toInt = size := Int64.toInt_ofNat_of_lt (by omega)
  exact Window.resolve_linked hfits (by omega) hlinked hnumber hitems

/-- From a page on, a reader sees the rows that are left, on as many pages as are left. -/
theorem browsed_page (hb : b.Serves cell matching) {paging : PageRequest} {p : Plan} {size : Nat}
    (hp : Plan.build (q.withPaging paging) r path = .ok p) (hsize : 1 ≤ size) (hmax : size ≤ r.maxItems)
    (htotal : ((matching p.predicate).length : Int) ≤ Int64.maxValue.toInt) {arranged : List Row}
    (hlength : arranged.length = (matching p.predicate).length)
    (honly : ∀ l, p.order.Arranged cell (matching p.predicate) l → l = arranged) (m k : Nat) (s : σ)
    (hk : k + m + 1 = max 1 (((matching p.predicate).length + size - 1) / size)) :
    ∃ pages, Browsed b r path q { p with window := ⟨k * size, size⟩ } s pages
      ∧ pages.length = m + 1 ∧ pages.flatMap (·.rows) = arranged.drop (k * size) := by
  induction m generalizing k s with
  | zero =>
    obtain ⟨page, s', hrun, hrows, hnext, -⟩ := run_page hb hsize honly k s
    -- No page comes after this one, so its window reaches up to the last row.
    rw [if_neg (by omega)] at hnext
    refine ⟨[page], .last hrun hnext, rfl, ?_⟩
    have hall : (matching p.predicate).length
        ≤ max 1 (((matching p.predicate).length + size - 1) / size) * size :=
      Window.le_lastPage_mul hsize
    rw [← hk, Nat.add_zero, Nat.succ_mul] at hall
    have hfew : (arranged.drop (k * size)).length ≤ size := by
      rw [List.length_drop]
      omega
    rw [List.flatMap_singleton, hrows, List.take_of_length_le hfew]
  | succ m ih =>
    obtain ⟨page, s', hrun, hrows, hnext, hfollowing⟩ := run_page hb hsize honly k s
    have hlt : k + 1 < max 1 (((matching p.predicate).length + size - 1) / size) := by omega
    rw [if_pos hlt] at hnext
    have hbuild := Plan.build_withPaging hp (resolve_following hsize hmax htotal hlt)
    rw [← hfollowing] at hbuild
    obtain ⟨pages, hpages, hcount, hrest⟩ := ih (k + 1) s' (by omega)
    refine ⟨page :: pages, .next hrun hnext hbuild hpages, ?_, ?_⟩
    · rw [List.length_cons, hcount]
    · rw [List.flatMap_cons, hrows, hrest, Nat.succ_mul, ← List.drop_drop, List.take_append_drop]

theorem resolve_first (size : Option Int64) :
    PageRequest.resolve ⟨some 1, size, none, none⟩ r = .ok ⟨0, r.pageSize size⟩ := by
  have hbefore : (Option.getD (some (1 : Int64)) 1).toInt.toNat - 1 = 0 := by decide
  show Except.ok (Window.mk (min (((Option.getD (some (1 : Int64)) 1).toInt.toNat - 1)
    * r.pageSize size) maxCount) (r.pageSize size)) = _
  rw [hbefore, Nat.zero_mul, Nat.zero_min]

/-- Browsing loses no row and repeats none.  Whatever order and page size a request names, the reader
who starts on the first page sees one sequence of pages, which ends after as many as the rows need and
at least one; together they show each matching row once, in order, even if the rows stand differently
in the table for every page. -/
theorem browsed_all (hr : r.Built) {key : Field} (hkey : r.primaryKey = some key)
    {size : Option Int64} {p : Plan}
    (hp : Plan.build (q.withPaging ⟨some 1, size, none, none⟩) r path = .ok p)
    (hb : b.Serves cell matching)
    (htotal : ((matching p.predicate).length : Int) ≤ Int64.maxValue.toInt)
    (hkeys : ((matching p.predicate).map (cell · key.column)).Nodup) (s : σ) :
    ∃ pages, Browsed b r path q p s pages
      ∧ (∀ pages', Browsed b r path q p s pages' → pages' = pages)
      ∧ pages.length
        = max 1 (((matching p.predicate).length + p.window.limit - 1) / p.window.limit)
      ∧ (pages.flatMap (·.rows)).Perm (matching p.predicate)
      ∧ (pages.flatMap (·.rows)).Pairwise (fun a c => p.order.inOrder cell a c = true)
      ∧ (pages.flatMap (·.rows)).Nodup := by
  have hconsistent := Registry.consistent_of_built hr
  obtain ⟨-, -, -, -, -, -, -, horder, hwindow, -⟩ := Plan.parts_of_build hp
  obtain ⟨term, hterm, hcolumn⟩ := exists_term_of_key hconsistent hkey horder
  rw [← hcolumn] at hkeys
  -- The key tells all rows apart, so every page is cut out of one and the same arrangement.
  let arranged := (matching p.predicate).mergeSort (p.order.inOrder cell)
  have harranged : p.order.Arranged cell (matching p.predicate) arranged :=
    arranged_mergeSort p.order (List.Perm.refl _)
  have honly : ∀ l, p.order.Arranged cell (matching p.predicate) l → l = arranged :=
    fun l hl => eq_of_arranged hterm hkeys hl harranged
  obtain ⟨hsize, hmax⟩ := (Window.fits_of_resolve hconsistent hwindow).limit
  have hfirst : p.window.offset = 0 := by
    rw [← Except.ok.inj ((resolve_first size).symm.trans hwindow)]
  have hplan : { p with window := ⟨0 * p.window.limit, p.window.limit⟩ } = p := by
    rw [Nat.zero_mul, ← hfirst]
  obtain ⟨m, hm⟩ : ∃ m,
      m + 1 = max 1 (((matching p.predicate).length + p.window.limit - 1) / p.window.limit) :=
    ⟨_, Nat.sub_add_cancel (Nat.le_max_left 1 _)⟩
  obtain ⟨pages, hpages, hcount, hrows⟩ := browsed_page hb hp hsize hmax htotal
    harranged.perm.length_eq honly m 0 s (by omega)
  rw [hplan] at hpages
  rw [Nat.zero_mul, List.drop_zero] at hrows
  have hnodup : (matching p.predicate).Nodup := hkeys.of_map
  refine ⟨pages, hpages, fun pages' h => hpages.unique h, hcount.trans hm, ?_⟩
  rw [hrows]
  exact ⟨harranged.perm, harranged.sorted, harranged.perm.nodup_iff.mpr hnodup⟩

end Pages

/-- Five parts of two kinds, ordered by kind alone and found in another arrangement every time, are seen
on three pages of two. -/
theorem browsed_all_parts :
    let rows : List (Nat × Nat) := [(1, 5), (2, 5), (3, 1), (4, 5), (5, 1)]
    let cell : Nat × Nat → String → Nat := fun row column => if column = "id" then row.1 else row.2
    let standing : Nat → List (Nat × Nat) → List (Nat × Nat) :=
      fun n found => if n % 2 = 0 then found else found.reverse
    let b := Backend.ofStandings cell (fun _ => rows) standing
    let q : Request := { Request.empty with order := ⟨some "kind", some "desc"⟩ }
    ∃ p pages, Plan.build (q.withPaging ⟨some 1, some 2, none, none⟩) .parts "/parts" = .ok p
      ∧ Browsed b .parts "/parts" q p 0 pages ∧ pages.length = 3
      ∧ (pages.flatMap (·.rows)).Perm rows := by
  intro rows cell standing b q
  obtain ⟨p, hp, hlimit⟩ : ∃ p,
      Plan.build (q.withPaging ⟨some 1, some 2, none, none⟩) .parts "/parts" = .ok p
        ∧ p.window.limit = 2 := ⟨_, rfl, rfl⟩
  have hstanding : ∀ n found, (standing n found).Perm found := by
    intro n found
    show (if n % 2 = 0 then found else found.reverse).Perm found
    split
    · exact List.Perm.refl _
    · exact List.reverse_perm found
  have hb : b.Serves cell fun _ => rows := Backend.serves_ofStandings cell _ hstanding
  have hkeys : (rows.map (cell · "id")).Nodup := by decide
  have htotal : ((rows.length : Nat) : Int) ≤ Int64.maxValue.toInt := by decide
  obtain ⟨pages, hpages, -, hcount, hrows, -⟩ :=
    browsed_all Registry.built_parts rfl hp hb htotal hkeys 0
  have hthree : max 1 ((rows.length + 2 - 1) / 2) = 3 := by decide
  rw [hlimit, hthree] at hcount
  exact ⟨p, pages, hp, hpages, hcount, hrows⟩

end ListQuery
