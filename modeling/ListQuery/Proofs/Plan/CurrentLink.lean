/-
The link to the current page.

A window may start anywhere in a list, but links name pages.  The current link of a plan names the page on
which its window starts, so following it shows this page from its first row on: the rows of the window
itself where the window starts with a page, and earlier ones where it does not.

* `Window.aligned` — the window of the page on which a window starts;
* `resolve_of_page_link` — what following a link to a page asks for;
* `window_of_current_link` — the window of the current link.
-/
import ListQuery.Proofs.Paging.Normalised
import ListQuery.Proofs.Plan.FollowedLinks

namespace ListQuery

/-! ### Pages of windows -/

namespace Window

variable {w : Window}

/-- The window of the same size that starts with the page on which a window starts. -/
def aligned (w : Window) : Window :=
  ⟨w.offset / w.limit * w.limit, w.limit⟩

theorem aligned_eq_self_iff : w.aligned = w ↔ w.limit ∣ w.offset := by
  obtain ⟨offset, limit⟩ := w
  rw [aligned, Window.mk.injEq]
  constructor
  · rintro ⟨hoffset, -⟩
    exact ⟨offset / limit, (Nat.mul_comm limit _).trans hoffset |>.symm⟩
  · exact fun hdvd => ⟨Nat.div_mul_cancel hdvd, rfl⟩

end Window

/-- The window of a page that starts at a count starts with a page. -/
theorem PageRequest.Normalised.dvd {p : PageRequest} {r : Registry} {w : Window}
    (h : p.Normalised r w) (hoffset : p.usesOffset = false)
    (hcount : (p.number - 1) * w.limit ≤ maxCount) : w.limit ∣ w.offset := by
  have hstart := h.start hoffset
  rw [Int.min_eq_left hcount] at hstart
  exact Int.natCast_dvd_natCast.mp ⟨p.number - 1, hstart.trans (Int.mul_comm _ _)⟩

/-! ### Following a link -/

/-- A link of a plan to a page, where it is read and planned again, asks for the page of this number and
size. -/
theorem resolve_of_page_link {r : Registry} (hr : r.Built) {q : Request} (hq : q.Received)
    {path : String} {p : Plan} (hp : Plan.build q r path = .ok p) {page items : Nat} {query : String}
    (hlink : p.links.page page items = path ++ "?" ++ query) {q' : Request}
    (hq' : Request.ofQueryString query = .ok q') {p' : Plan} (hp' : Plan.build q' r path = .ok p') :
    ∃ number size : Int64, number.toInt = page ∧ size.toInt = items
      ∧ PageRequest.resolve ⟨some number, some size, none, none⟩ r = .ok p'.window := by
  have hconsistent := Registry.consistent_of_built hr
  have hkept := Request.kept_of_received hq
  obtain ⟨filter, equalities, search, hfilter, hequalities, hsearch, -, horder, -, hlinks⟩ :=
    Plan.parts_of_build hp
  rw [Links.page, hlinks] at hlink
  obtain rfl := (String.append_right_inj (path ++ "?")).mp hlink
  rw [ofQueryString_encode] at hq'
  obtain ⟨number, size, hnumber, hsize, rfl⟩ := Request.ofPairs_pageParams hkept hq'
  obtain ⟨-, -, -, hwindow⟩ :=
    build_normal hconsistent hkept hfilter hequalities hsearch horder hp'
  exact ⟨number, size, hnumber, hsize, hwindow⟩

/-- Wherever the current link of a plan is read and planned again, the window is that of the page on which
the plan's window starts.  It is the plan's window itself exactly if this one starts with a page, as it
does where a page was asked for that starts at a count. -/
theorem window_of_current_link {r : Registry} (hr : r.Built) {q : Request} (hq : q.Received)
    {path : String} {p : Plan} (hp : Plan.build q r path = .ok p) {total : Nat} {query : String}
    (hlink : (p.metadata total).paging.current = path ++ "?" ++ query) {q' : Request}
    (hq' : Request.ofQueryString query = .ok q') {p' : Plan} (hp' : Plan.build q' r path = .ok p') :
    p'.window = ⟨p.window.offset / p.window.limit * p.window.limit, p.window.limit⟩
      ∧ (p'.window = p.window ↔ p.window.limit ∣ p.window.offset)
      ∧ (q.paging.usesOffset = false → (q.paging.number - 1) * p.window.limit ≤ maxCount
          → p'.window = p.window) := by
  have hconsistent := Registry.consistent_of_built hr
  obtain ⟨-, -, -, -, -, -, -, -, hresolve, -⟩ := Plan.parts_of_build hp
  have hfits := Window.fits_of_resolve hconsistent hresolve
  obtain ⟨number, size, hnumber, hsize, hwindow⟩ := resolve_of_page_link hr hq hp hlink hq' hp'
  -- The page of a window is one of those that its links name, so many rows there are.
  have hlinked : p.window.Linked 0 p.window.page := Or.inl rfl
  rw [Window.resolve_linked hfits (Nat.zero_le _) hlinked hnumber hsize,
    Window.page_sub_one hfits.limit.1] at hwindow
  have haligned : p'.window = p.window.aligned := (Except.ok.inj hwindow).symm
  refine ⟨haligned, ?_, ?_⟩
  · rw [haligned]
    exact Window.aligned_eq_self_iff
  · intro hoffset hcount
    rw [haligned, Window.aligned_eq_self_iff]
    exact (PageRequest.normalised_of_resolve hconsistent hresolve).dvd hoffset hcount

/-- The plan of a window of all parts. -/
def planOfParts (w : Window) : Plan :=
  ⟨none, none, ⟨"parts", ⟨"kind", "kind", .asc⟩, none⟩, w,
   ⟨"/parts", [("order_by", "kind"), ("direction", "asc")]⟩⟩

theorem window_of_current_link_fifth_page :
    let r := Registry.ofTextField "parts" "kind"
    let query := "order_by=kind&direction=asc&page=5&items=10"
    ∃ q q' p', Request.ofQueryString "offset=45&limit=10" = .ok q
      ∧ Request.ofQueryString query = .ok q' ∧ Plan.build q r "/parts" = .ok (planOfParts ⟨45, 10⟩)
      ∧ Plan.build q' r "/parts" = .ok p'
      ∧ ((planOfParts ⟨45, 10⟩).metadata 60).paging.current = "/parts" ++ "?" ++ query
      ∧ p'.window = ⟨40, 10⟩ := by
  intro r query
  have hq : Request.ofQueryString "offset=45&limit=10"
      = .ok { Request.empty with paging := ⟨none, none, some 45, some 10⟩ } := rfl
  have hquery : query = FormEncoding.encode
      [("order_by", "kind"), ("direction", "asc"), ("page", "5"), ("items", "10")] := by decide
  have hq' : Request.ofQueryString query
      = .ok ⟨none, ⟨some "kind", some "asc"⟩, ⟨some 5, some 10, none, none⟩, none, [], []⟩ := by
    rw [hquery, ofQueryString_encode]
    rfl
  have hp : Plan.build { Request.empty with paging := ⟨none, none, some 45, some 10⟩ } r "/parts"
      = .ok (planOfParts ⟨45, 10⟩) := rfl
  obtain ⟨p', hp'⟩ : ∃ p', Plan.build ⟨none, ⟨some "kind", some "asc"⟩,
      ⟨some 5, some 10, none, none⟩, none, [], []⟩ r "/parts" = .ok p' := ⟨_, rfl⟩
  have hlink : ((planOfParts ⟨45, 10⟩).metadata 60).paging.current = "/parts" ++ "?" ++ query := by
    decide
  have hwindow := window_of_current_link (Registry.built_ofTextField "parts" "kind")
    (.queryString hq) hp hlink hq' hp'
  exact ⟨_, _, p', hq, hq', hp, hp', hlink, hwindow.1⟩

/-- A window that starts inside a page is not the one of its current link. -/
theorem current_link_of_unaligned :
    let r := Registry.ofTextField "parts" "kind"
    let query := "order_by=kind&direction=asc&page=1&items=10"
    r.Built ∧ ∃ q q' p p', Request.ofQueryString "offset=5&limit=10" = .ok q
      ∧ Plan.build q r "/parts" = .ok p ∧ (p.metadata 60).paging.current = "/parts" ++ "?" ++ query
      ∧ Request.ofQueryString query = .ok q' ∧ Plan.build q' r "/parts" = .ok p'
      ∧ p.window = ⟨5, 10⟩ ∧ p'.window = ⟨0, 10⟩ := by
  intro r query
  have hq : Request.ofQueryString "offset=5&limit=10"
      = .ok { Request.empty with paging := ⟨none, none, some 5, some 10⟩ } := rfl
  have hquery : query = FormEncoding.encode
      [("order_by", "kind"), ("direction", "asc"), ("page", "1"), ("items", "10")] := by decide
  have hq' : Request.ofQueryString query
      = .ok ⟨none, ⟨some "kind", some "asc"⟩, ⟨some 1, some 10, none, none⟩, none, [], []⟩ := by
    rw [hquery, ofQueryString_encode]
    rfl
  have hp : Plan.build { Request.empty with paging := ⟨none, none, some 5, some 10⟩ } r "/parts"
      = .ok (planOfParts ⟨5, 10⟩) := rfl
  have hp' : Plan.build ⟨none, ⟨some "kind", some "asc"⟩, ⟨some 1, some 10, none, none⟩, none, [], []⟩
      r "/parts" = .ok (planOfParts ⟨0, 10⟩) := rfl
  have hlink : ((planOfParts ⟨5, 10⟩).metadata 60).paging.current = "/parts" ++ "?" ++ query := by
    decide
  exact ⟨Registry.built_ofTextField "parts" "kind", _, _, _, _, hq, hp, hlink, hq', hp', rfl, rfl⟩

end ListQuery
