/-
Paging of a body over that of a query string.

What a body says about paging stands, and what it leaves open comes from the query string.  A body that
asks in one style takes no values of the other one along, with one exception: a query string that asks in
both styles is taken as it is, and makes the request one that is refused.

* `PageRequest.Within`, `filled` and `inStyleOf` — values that are kept, filled in, and left out;
* `or_of_isPure` and `or_of_mixes` — a request of one style over one that does not mix the styles, and
  over one that does;
* `overlay_paging_style` — the same for all requests, and which bodies make a request that is refused.
-/
import ListQuery.Proofs.Outcome
import ListQuery.Proofs.Paging.Normalised
import ListQuery.Request.Basic

namespace ListQuery

namespace PageRequest

/-- Whether all that a request says is said by another one too. -/
structure Within (p q : PageRequest) : Prop where
  page : ∀ n, p.page = some n → q.page = some n
  items : ∀ n, p.items = some n → q.items = some n
  offset : ∀ n, p.offset = some n → q.offset = some n
  limit : ∀ n, p.limit = some n → q.limit = some n

/-- Whether a request asks in one style of paging and not in the other. -/
def IsPure (p : PageRequest) : Prop :=
  p.usesPage ≠ p.usesOffset

/-- What a request says, and what another one says where it is silent. -/
def filled (p fallback : PageRequest) : PageRequest :=
  ⟨p.page.or fallback.page, p.items.or fallback.items, p.offset.or fallback.offset,
   p.limit.or fallback.limit⟩

/-- What a request says in the styles in which another one asks. -/
def inStyleOf (p other : PageRequest) : PageRequest :=
  ⟨if other.usesPage then p.page else none, if other.usesPage then p.items else none,
   if other.usesOffset then p.offset else none, if other.usesOffset then p.limit else none⟩

variable {p fallback : PageRequest}

/-! ### Values -/

theorem Within.refl (p : PageRequest) : p.Within p where
  page _ h := h
  items _ h := h
  offset _ h := h
  limit _ h := h

theorem within_filled (p fallback : PageRequest) : p.Within (p.filled fallback) where
  page _ h := by simp [filled, h]
  items _ h := by simp [filled, h]
  offset _ h := by simp [filled, h]
  limit _ h := by simp [filled, h]

theorem filled_empty (p : PageRequest) : p.filled empty = p := by
  simp [filled, empty]

theorem empty_filled (fallback : PageRequest) : empty.filled fallback = fallback := by
  simp [filled, empty]

theorem eq_of_not_usesOffset (h : p.usesOffset = false) : p = ⟨p.page, p.items, none, none⟩ := by
  obtain ⟨page, items, offset, limit⟩ := p
  obtain ⟨hoffset, hlimit⟩ : offset = none ∧ limit = none := by simpa [usesOffset] using h
  rw [hoffset, hlimit]

theorem eq_of_not_usesPage (h : p.usesPage = false) : p = ⟨none, none, p.offset, p.limit⟩ := by
  obtain ⟨page, items, offset, limit⟩ := p
  obtain ⟨hpage, hitems⟩ : page = none ∧ items = none := by simpa [usesPage] using h
  rw [hpage, hitems]

theorem eq_empty_of_isEmpty (h : p.isEmpty = true) : p = empty := by
  obtain ⟨hpage, hoffset⟩ : p.usesPage = false ∧ p.usesOffset = false := by simpa [isEmpty] using h
  rw [eq_of_not_usesOffset hoffset, eq_of_not_usesPage hpage]
  rfl

/-! ### Styles -/

theorem usesPage_filled : (p.filled fallback).usesPage = (p.usesPage || fallback.usesPage) := by
  simp only [filled, usesPage, Option.isSome_or, Bool.or_assoc, Bool.or_left_comm]

theorem usesOffset_filled : (p.filled fallback).usesOffset = (p.usesOffset || fallback.usesOffset) := by
  simp only [filled, usesOffset, Option.isSome_or, Bool.or_assoc, Bool.or_left_comm]

theorem usesPage_inStyleOf (fallback p : PageRequest) :
    (fallback.inStyleOf p).usesPage = (p.usesPage && fallback.usesPage) := by
  rw [inStyleOf, usesPage]
  cases p.usesPage with
  | false => rfl
  | true => rfl

theorem usesOffset_inStyleOf (fallback p : PageRequest) :
    (fallback.inStyleOf p).usesOffset = (p.usesOffset && fallback.usesOffset) := by
  rw [inStyleOf, usesOffset]
  cases p.usesOffset with
  | false => rfl
  | true => rfl

/-- Values in the styles of a request give it no other style. -/
theorem style_filled (p fallback : PageRequest) :
    (p.filled (fallback.inStyleOf p)).usesPage = p.usesPage
      ∧ (p.filled (fallback.inStyleOf p)).usesOffset = p.usesOffset := by
  rw [usesPage_filled, usesOffset_filled, usesPage_inStyleOf, usesOffset_inStyleOf]
  cases p.usesPage <;> cases p.usesOffset <;> simp

/-! ### A request over another one -/

theorem or_eq (p fallback : PageRequest) :
    p.or fallback
      = if (p.usesOffset && !fallback.usesOffset) || (p.usesPage && !fallback.usesPage) then p
        else p.filled fallback :=
  rfl

theorem within_or (p fallback : PageRequest) : p.Within (p.or fallback) := by
  rw [or_eq]
  split
  · exact Within.refl p
  · exact within_filled p fallback

theorem or_of_isEmpty (h : p.isEmpty = true) : p.or fallback = fallback := by
  rw [eq_empty_of_isEmpty h]
  exact empty_filled fallback

theorem ite_none_eq_self {v : Option Int64} {b : Bool} (h : v.isSome = true → b = true) :
    (if b then v else none) = v := by
  cases v with
  | none => exact ite_self none
  | some n => rw [h rfl, if_pos rfl]

/-- Of a request in styles that another one asks in too, nothing is left out. -/
theorem inStyleOf_eq_self (hpage : fallback.usesPage = true → p.usesPage = true)
    (hoffset : fallback.usesOffset = true → p.usesOffset = true) : fallback.inStyleOf p = fallback := by
  rw [inStyleOf, ite_none_eq_self fun h => hpage (by simp [usesPage, h]),
    ite_none_eq_self fun h => hpage (by simp [usesPage, h]),
    ite_none_eq_self fun h => hoffset (by simp [usesOffset, h]),
    ite_none_eq_self fun h => hoffset (by simp [usesOffset, h])]

/-- A request in one style takes the values of this style along from one that does not mix the styles. -/
theorem or_of_isPure (hp : p.IsPure) (h : ¬fallback.Mixes) :
    p.or fallback = p.filled (fallback.inStyleOf p) := by
  have hpage := usesPage_inStyleOf fallback p
  have hoffset := usesOffset_inStyleOf fallback p
  rw [or_eq]
  by_cases hempty : (fallback.inStyleOf p).isEmpty = true
  · -- The two have no style in common.
    rw [eq_empty_of_isEmpty hempty, filled_empty, if_pos]
    grind [isEmpty, IsPure]
  · have hself : fallback.inStyleOf p = fallback := by
      refine inStyleOf_eq_self ?_ ?_ <;> grind [isEmpty, IsPure, Mixes]
    rw [hself, if_neg]
    grind [isEmpty, IsPure, Mixes]

/-- From a request that mixes the styles, the values of both are taken along. -/
theorem or_of_mixes (h : fallback.Mixes) : p.or fallback = p.filled fallback ∧ (p.or fallback).Mixes := by
  have hor : p.or fallback = p.filled fallback := by
    rw [or_eq, h.1, h.2]
    simp
  rw [hor, Mixes, usesPage_filled, usesOffset_filled, h.1, h.2]
  simp

/-- A request in one style over another one mixes the styles if that one does. -/
theorem mixes_or_iff (hp : p.IsPure) : (p.or fallback).Mixes ↔ fallback.Mixes := by
  by_cases h : fallback.Mixes
  · exact iff_of_true (or_of_mixes h).2 h
  · refine iff_of_false ?_ h
    obtain ⟨hpage, hoffset⟩ := style_filled p fallback
    rw [or_of_isPure hp h, Mixes, hpage, hoffset]
    rintro ⟨hoffset, hpage⟩
    exact hp (hpage.trans hoffset.symm)

end PageRequest

/-! ### Bodies -/

namespace Request

open PageRequest

variable {q q' : Request} {members : Json.Members}

/-- The paging of a request with a body laid over it is what the body says over what the request says. -/
theorem paging_of_overlay {said : PageRequest}
    (hsaid : PageRequest.ofJson (Json.presentOf? "paging" members) = .ok said)
    (h : q.overlay (.object members) = .ok q') : q'.paging = said.or q.paging := by
  obtain ⟨order, -, h⟩ := bind_eq_ok_iff.mp h
  obtain ⟨paging, hpaging, h⟩ := bind_eq_ok_iff.mp h
  obtain rfl := pure_eq_ok_iff.mp h
  obtain rfl := Except.ok.inj (hsaid.symm.trans hpaging)
  rfl

/-- What a request says stands over another one, and a request that says nothing leaves the other one.
A request in one style keeps to it and takes the values of this style along, over any request that does
not mix the styles; over one that does, it mixes them too.  So a body that asks in one style makes a
request that is refused exactly if the request it is laid over mixes the styles. -/
theorem overlay_paging_style (p fallback : PageRequest) :
    p.Within (p.or fallback)
    ∧ (p.isEmpty = true → p.or fallback = fallback)
    ∧ (p.IsPure → ¬fallback.Mixes → p.or fallback = p.filled (fallback.inStyleOf p)
        ∧ (p.or fallback).usesPage = p.usesPage ∧ (p.or fallback).usesOffset = p.usesOffset)
    ∧ (fallback.Mixes → p.or fallback = p.filled fallback ∧ (p.or fallback).Mixes)
    ∧ ∀ (q q' : Request) (members : Json.Members) (r : Registry),
        q.paging = fallback → PageRequest.ofJson (Json.presentOf? "paging" members) = .ok p → p.IsPure
          → q.overlay (.object members) = .ok q'
          → ((∃ e, q'.paging.resolve r = .error e) ↔ fallback.Mixes) := by
  refine ⟨within_or p fallback, or_of_isEmpty, fun hp h => ?_, or_of_mixes, ?_⟩
  · rw [or_of_isPure hp h]
    exact ⟨rfl, style_filled p fallback⟩
  · rintro q q' members r rfl hsaid hpure h
    rw [← mixes_or_iff hpure, ← paging_of_overlay hsaid h]
    constructor
    · rintro ⟨e, he⟩
      exact (resolve_eq_error_iff.mp he).1
    · exact fun hmixes => ⟨_, resolve_eq_error_iff.mpr ⟨hmixes, rfl⟩⟩

/-- A body that asks for a page, over a query string in both styles and over one in the other style. -/
theorem overlay_paging_style_page :
    let body : Json.Members := [("paging", .object [("page", .integer 2)])]
    ∃ q₁ q₂ q₁' q₂', ofQueryString "items=10&offset=5" = .ok q₁ ∧ q₁.overlay (.object body) = .ok q₁'
      ∧ ofQueryString "offset=5&limit=10" = .ok q₂ ∧ q₂.overlay (.object body) = .ok q₂'
      ∧ q₁'.paging = ⟨some 2, some 10, some 5, none⟩ ∧ q₂'.paging = ⟨some 2, none, none, none⟩
      ∧ (∃ e, q₁'.paging.resolve Registry.parts = .error e)
      ∧ ¬∃ e, q₂'.paging.resolve Registry.parts = .error e := by
  intro body
  let said : PageRequest := ⟨some 2, none, none, none⟩
  have hsaid : PageRequest.ofJson (Json.presentOf? "paging" body) = .ok said := rfl
  have hpure : said.usesPage ≠ said.usesOffset := by decide
  obtain ⟨-, -, -, -, hmixed⟩ := overlay_paging_style said ⟨none, some 10, some 5, none⟩
  obtain ⟨-, -, -, -, hother⟩ := overlay_paging_style said ⟨none, none, some 5, some 10⟩
  refine ⟨_, _, _, _, rfl, rfl, rfl, rfl, rfl, rfl, ?_, ?_⟩
  · exact (hmixed _ _ body _ rfl hsaid hpure rfl).mpr ⟨rfl, rfl⟩
  · exact fun h => absurd ((hother _ _ body _ rfl hsaid hpure rfl).mp h).2 (by decide)

end Request

end ListQuery
