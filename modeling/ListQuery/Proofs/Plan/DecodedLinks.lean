/-
A link decoded gives the parameters of its request.

The parameters of a link are a filter, equalities, a text, an order, what is carried along, and a page
with its size.  Each of them can be set again, unless the filter has more open brackets than are read
or the page does not fit 64 bits with a sign.  What they make is the request in normal form.

* `Request.exists_ofPairs_pageParams` — the parameters of a link can be set;
* `ofQueryString_link` — the request that a link of a plan decodes to.
-/
import ListQuery.Proofs.Plan.FollowedLinks
import ListQuery.Proofs.Plan.Meaning

namespace ListQuery

open Numeric

namespace Request

/-! ### The parameters of a link -/

theorem settable_of_mem_linkParams {q : Request} (hq : q.Kept) {filter : Option Condition}
    (hfilter : ∀ c, filter = some c → c.toJson.nesting ≤ Json.Reader.maxDepth) {searches : Bool}
    {order : RowOrder} : ∀ p ∈ q.linkParams filter searches order, Settable p.1 p.2 := by
  refine forall_mem_linkParams ?_ ?_ ?_ ?_ ?_ ?_
  · intro c hc
    show (Json.read? c.toJson.text).isSome
    rw [Json.read?_text c.isWellFormed_toJson, if_pos (hfilter c hc)]
    rfl
  · intro e he
    simp only [Settable, hq.equality e he]
  · exact fun _ => trivial
  · trivial
  · trivial
  · intro p hp
    simp only [Settable, hq.carried p hp]

/-- The parameters of a link can be set, so they make the normal form of the request. -/
theorem exists_ofPairs_pageParams {q : Request} (hq : q.Kept) {filter : Option Condition}
    (hfilter : ∀ c, filter = some c → c.toJson.nesting ≤ Json.Reader.maxDepth) (searches : Bool)
    (order : RowOrder) (path : String) {page items : Nat}
    (hpage : (page : Int) ≤ Int64.maxValue.toInt) (hitems : (items : Int) ≤ Int64.maxValue.toInt) :
    ∃ number size : Int64, number.toInt = page ∧ size.toInt = items
      ∧ ofPairs (Links.pageParams ⟨path, q.linkParams filter searches order⟩ page items)
        = .ok (q.normal filter searches order number size) := by
  have hall : ∀ p ∈ Links.pageParams ⟨path, q.linkParams filter searches order⟩ page items,
      Settable p.1 p.2 := by
    intro p hp
    rcases List.mem_append.mp hp with hp | hp
    · exact settable_of_mem_linkParams hq hfilter p hp
    · rcases List.mem_pair.mp hp with rfl | rfl
      · exact isSome_integer?_decimalText_iff.mpr hpage
      · exact isSome_integer?_decimalText_iff.mpr hitems
  have hset := (setAll_eq_ok_iff (q := empty)).mpr ⟨hall, rfl⟩
  obtain ⟨number, size, hnumber, hsize, hnormal⟩ := ofPairs_pageParams hq hset
  exact ⟨number, size, hnumber, hsize, hset.trans (congrArg Except.ok hnormal)⟩

end Request

/-! ### Links of a plan -/

/-- A link keeps the text of a request without the blanks around it, if anything is left. -/
theorem linkText_of_searchCondition {r : Registry} {q : Request} {search : Option Condition}
    (h : q.searchCondition r = .ok search) :
    (if search.isSome then q.text.map Text.trim else none)
      = (q.text.map Text.trim).filter fun text => text ≠ "" := by
  have hnone := searchCondition_eq_none_iff h
  cases htext : q.text with
  | none => simp
  | some text =>
    have hblank : Text.trim text = "" ↔ Text.isBlankText text = true := by
      rw [← Text.isEmpty_trim, String.isEmpty_iff]
    have hsearch : search = none ↔ Text.trim text = "" := by
      rw [hnone, hblank, htext]
      simp
    rw [Option.map_some, Option.filter_some]
    cases search with
    | none => simp [hsearch.mp rfl]
    | some c =>
      have hwanted : Text.trim text ≠ "" := by
        intro hempty
        simp [hempty] at hsearch
      simp [hwanted]

/-- The link of a plan to any page, read, gives the parameters of the plan's request one by one: the
filter as it is echoed, the equalities and what is carried along as they are and in order, the text
trimmed and left out where it is blank, the order of the plan, and the page with its size. -/
theorem ofQueryString_link {r : Registry} {q : Request} (hq : q.Received) {path : String} {p : Plan}
    (hp : Plan.build q r path = .ok p) {filter : Option Condition}
    (hfilter : q.filterCondition r = .ok filter)
    (hnesting : ∀ c, filter = some c → c.toJson.nesting ≤ Json.Reader.maxDepth) {page items : Nat}
    (hpage : (page : Int) ≤ Int64.maxValue.toInt) (hitems : (items : Int) ≤ Int64.maxValue.toInt) :
    ∃ (query : String) (number size : Int64), p.links.page page items = path ++ "?" ++ query
      ∧ number.toInt = page ∧ size.toInt = items
      ∧ Request.ofQueryString query = .ok
          { filter := filter.map Condition.toJson
            order := ⟨some p.order.primary.field, some p.order.primary.direction.name⟩
            paging := ⟨some number, some size, none, none⟩
            text := (q.text.map Text.trim).filter fun text => text ≠ ""
            equalities := q.equalities
            carried := q.carried } := by
  obtain ⟨filter', -, search, hfilter', -, hsearch, -, -, -, hlinks⟩ := Plan.parts_of_build hp
  obtain rfl := Except.ok.inj (hfilter.symm.trans hfilter')
  obtain ⟨number, size, hnumber, hsize, hread⟩ := Request.exists_ofPairs_pageParams
    (Request.kept_of_received hq) hnesting search.isSome p.order path hpage hitems
  refine ⟨FormEncoding.encode (p.links.pageParams page items), number, size, ?_, hnumber, hsize, ?_⟩
  · rw [Links.page, hlinks]
  · rw [ofQueryString_encode, hlinks, hread, Request.normal, linkText_of_searchCondition hsearch]

theorem ofQueryString_link_parts :
    let q : Request := ⟨some (.object [("id", .object [("gt", .integer 1)])]), .empty, .empty,
      some " b ", [("kind", "a&b"), ("id", "2")], [("tag", "x"), ("Filter", "")]⟩
    ∃ (p : Plan) (query : String) (number size : Int64), Plan.build q .parts "/parts" = .ok p
      ∧ p.links.page 7 10 = "/parts" ++ "?" ++ query ∧ number.toInt = 7 ∧ size.toInt = 10
      ∧ Request.ofQueryString query = .ok
          ⟨some (.object [("id", .object [("gt", .integer 1)])]), ⟨some "id", some "asc"⟩,
            ⟨some number, some size, none, none⟩, some "b", [("kind", "a&b"), ("id", "2")],
            [("tag", "x"), ("Filter", "")]⟩ := by
  intro q
  have hpairs : Request.ofPairs [("text", " b "), ("tag", "x"), ("filter_kind", "a&b"),
      ("Filter", ""), ("filter_id", "2")]
      = .ok { q with filter := none } := rfl
  -- The filter comes with the body of the request, the rest with its query string.
  have hbody : Request.overlay { q with filter := none }
      (.object [("filter", .object [("id", .object [("gt", .integer 1)])])]) = .ok q := rfl
  have hq : q.Received := .overlay (.pairs hpairs) (by decide) hbody
  obtain ⟨p, hp, hterm⟩ : ∃ p, Plan.build q .parts "/parts" = .ok p
      ∧ p.order.primary = ⟨"id", "id", .asc⟩ := ⟨_, rfl, rfl⟩
  have hfilter : q.filterCondition .parts = .ok (some (.leaf "id" (.compare .gt (.int 1)))) := rfl
  have hnesting : ∀ c, some (Condition.leaf "id" (.compare .gt (.int 1))) = some c →
      c.toJson.nesting ≤ Json.Reader.maxDepth := by
    rintro c ⟨⟩
    decide
  have hpage : ((7 : Nat) : Int) ≤ Int64.maxValue.toInt := by decide
  have hitems : ((10 : Nat) : Int) ≤ Int64.maxValue.toInt := by decide
  obtain ⟨query, number, size, hlink, hnumber, hsize, hread⟩ :=
    ofQueryString_link hq hp hfilter hnesting hpage hitems
  rw [hterm] at hread
  exact ⟨p, query, number, size, hp, hlink, hnumber, hsize, hread⟩

end ListQuery
