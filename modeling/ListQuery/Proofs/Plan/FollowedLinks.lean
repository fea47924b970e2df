/-
Following a link does not change the question.

The links of a plan carry its request in normal form.  Read back, they make a request of the same
filter, equalities, text and order, so its plan has the same condition, order and links, and shows the
rows of the page that the link names.

* `ofPairs_pageParams` — the request that the parameters of a link make;
* `build_followed` — the plan of that request;
* `build_of_followed_link` — what follows for the links of a plan's page.

Design notes: the reader may refuse a link, where a filter is nested too deep or a page is past 64 bits
with a sign, and the registry may refuse its order, where the usual one may not be asked for.  So the
second request and the second plan are given, and what they are follows.
-/
import ListQuery.Proofs.Condition.EchoReadsBack
import ListQuery.Proofs.FormEncodingReadsBack
import ListQuery.Proofs.Json.TextReadsBack
import ListQuery.Proofs.Paging.LinkedPages
import ListQuery.Proofs.Request.Parameters
import ListQuery.Proofs.Request.Received
import ListQuery.Proofs.RowOrder

namespace ListQuery

open Numeric

/-! ### The parameters of a link -/

namespace Request

theorem setAll_equalities (q : Request) {ps : Pairs}
    (h : ∀ p ∈ ps, Slot.ofName (equalityMark ++ p.1) = .equality p.1) :
    q.setAll (ps.map fun (name, value) => (equalityMark ++ name, value))
      = .ok { q with equalities := q.equalities.setAll ps } := by
  induction ps generalizing q with
  | nil => rfl
  | cons p ps ih =>
    obtain ⟨name, value⟩ := p
    obtain ⟨hname, hps⟩ := List.forall_mem_cons.mp h
    rw [List.map_cons, setAll_cons, set, hname]
    exact ih _ hps

theorem setAll_carried (q : Request) {ps : Pairs} (h : ∀ p ∈ ps, Slot.ofName p.1 = .carried) :
    q.setAll ps = .ok { q with carried := q.carried.setAll ps } := by
  induction ps generalizing q with
  | nil => rfl
  | cons p ps ih =>
    obtain ⟨name, value⟩ := p
    obtain ⟨hname, hps⟩ := List.forall_mem_cons.mp h
    rw [setAll_cons, set, hname]
    exact ih _ hps

/-- The echo of a condition, where it is read at all, is read as the condition's JSON value. -/
theorem setAll_filter {q q' : Request} {filter : Option Condition} (hq : q.filter = none)
    (h : q.setAll (filter.map fun c => ("filter", c.toJson.text)).toList = .ok q') :
    q' = { q with filter := filter.map Condition.toJson } := by
  cases filter with
  | none =>
    obtain rfl := pure_eq_ok_iff.mp h
    cases q
    cases hq
    rfl
  | some c =>
    rw [Option.map_some, Option.toList_some, setAll_cons] at h
    obtain ⟨next, hnext, h⟩ := bind_eq_ok_iff.mp h
    obtain rfl := pure_eq_ok_iff.mp h
    simp only [set, Slot.ofName] at hnext
    split at hnext
    · rename_i v hv
      obtain rfl := Except.ok.inj hnext
      rw [Json.eq_of_read?_text c.isWellFormed_toJson hv, Option.map_some]
    · simp at hnext

theorem setAll_page {q q' : Request} {page items : Nat}
    (h : q.setAll [("page", Text.decimalText page), ("items", Text.decimalText items)] = .ok q') :
    ∃ number size : Int64, number.toInt = page ∧ size.toInt = items
      ∧ q' = { q with paging := { q.paging with page := some number, items := some size } } := by
  rw [setAll_cons] at h
  obtain ⟨next, hnext, h⟩ := bind_eq_ok_iff.mp h
  rw [setAll_cons] at h
  obtain ⟨last, hlast, h⟩ := bind_eq_ok_iff.mp h
  obtain rfl := pure_eq_ok_iff.mp h
  obtain ⟨number, hnumber, hnext⟩ := bind_eq_ok_iff.mp hnext
  obtain rfl := pure_eq_ok_iff.mp hnext
  obtain ⟨size, hsize, hlast⟩ := bind_eq_ok_iff.mp hlast
  obtain rfl := pure_eq_ok_iff.mp hlast
  exact ⟨number, size, readCount_decimalText hnumber, readCount_decimalText hsize, rfl⟩

theorem setAll_text {q : Request} (hq : q.text = none) (searches : Bool) (text : Option String) :
    q.setAll (if searches then text.toList.map fun text => ("text", Text.trim text) else [])
      = .ok { q with text := if searches then text.map Text.trim else none } := by
  have hsame : q = { q with text := none } := by
    cases q
    cases hq
    rfl
  cases searches with
  | false => exact congrArg Except.ok hsame
  | true =>
    cases text with
    | none => exact congrArg Except.ok hsame
    | some text => rfl

/-- The normal form of a request, asking for a page by number and size. -/
def normal (q : Request) (filter : Option Condition) (searches : Bool) (order : RowOrder)
    (number size : Int64) : Request :=
  ⟨filter.map Condition.toJson, ⟨some order.primary.field, some order.primary.direction.name⟩,
   ⟨some number, some size, none, none⟩, if searches then q.text.map Text.trim else none,
   q.equalities, q.carried⟩

/-- The parameters of a link make the normal form of the request. -/
theorem ofPairs_pageParams {q q' : Request} (hq : q.Kept) {filter : Option Condition}
    {searches : Bool} {order : RowOrder} {path : String} {page items : Nat}
    (h : ofPairs (Links.pageParams ⟨path, q.linkParams filter searches order⟩ page items) = .ok q') :
    ∃ number size : Int64, number.toInt = page ∧ size.toInt = items
      ∧ q' = q.normal filter searches order number size := by
  have hequalities : Pairs.setAll [] q.equalities = q.equalities :=
    Pairs.setAll_eq_append hq.equalities
  have hcarried : Pairs.setAll [] q.carried = q.carried := Pairs.setAll_eq_append hq.carriedOnce
  -- The link is read part by part, in the order in which its parts are written.
  change empty.setAll _ = _ at h
  rw [Links.pageParams, linkParams, setAll_append] at h
  obtain ⟨q₅, h₅, h⟩ := bind_eq_ok_iff.mp h
  rw [setAll_append] at h₅
  obtain ⟨q₄, h₄, h₅⟩ := bind_eq_ok_iff.mp h₅
  rw [setAll_append] at h₄
  obtain ⟨q₃, h₃, h₄⟩ := bind_eq_ok_iff.mp h₄
  rw [setAll_append] at h₃
  obtain ⟨q₂, h₂, h₃⟩ := bind_eq_ok_iff.mp h₃
  rw [setAll_append] at h₂
  obtain ⟨q₁, h₁, h₂⟩ := bind_eq_ok_iff.mp h₂
  obtain rfl := setAll_filter rfl h₁
  rw [setAll_equalities _ hq.equality] at h₂
  obtain rfl := Except.ok.inj h₂
  rw [setAll_text rfl] at h₃
  obtain rfl := Except.ok.inj h₃
  obtain rfl := Except.ok.inj h₄
  rw [setAll_carried _ hq.carried] at h₅
  obtain rfl := Except.ok.inj h₅
  obtain ⟨number, size, hnumber, hsize, rfl⟩ := setAll_page h
  refine ⟨number, size, hnumber, hsize, ?_⟩
  simp only [normal, empty, hequalities, hcarried, OrderRequest.empty, PageRequest.empty]

end Request

/-! ### The plan of a normal form -/

/-- The filter of a link is read as the filter of the request, or refused for its depth alone. -/
theorem filterCondition_of_echo {r : Registry} (hr : r.Consistent) {q q' : Request} (hq : q.Kept)
    {filter : Option Condition} (h : q.filterCondition r = .ok filter)
    (hecho : q'.filter = filter.map Condition.toJson) :
    q'.filterCondition r = if (filter.elim 0 Condition.depth) ≤ Condition.maxDepth then .ok filter
      else .error (.filter (.tooDeep Condition.maxDepth)) := by
  rw [Request.filterCondition, hecho]
  cases filter with
  | none => rfl
  | some c =>
    have hsound := Condition.sound_of_filterCondition hr hq.filter h
    -- A field that is named like a combinator is never read as a field, so none is echoed.
    obtain ⟨raw, -, hraw⟩ := Request.read_of_filterCondition h
    have hkeys : ∀ name ∈ c.fields, Combinator.ofKey? name = none :=
      fun name => Condition.ofKey?_of_read hraw
    have hblank : c.toJson.isBlankFilter = false := by
      rw [Condition.toJson_eq]
      rfl
    simp only [Option.map_some, hblank, Bool.false_eq_true, if_false]
    rw [Condition.read_toJson hr hsound hkeys, Option.elim_some]
    split <;> rfl

theorem filterCondition_echo {r : Registry} (hr : r.Consistent) {q q' : Request} (hq : q.Kept)
    {filter filter' : Option Condition} (h : q.filterCondition r = .ok filter)
    (hecho : q'.filter = filter.map Condition.toJson) (h' : q'.filterCondition r = .ok filter') :
    filter' = filter := by
  rw [filterCondition_of_echo hr hq h hecho] at h'
  split at h'
  · exact (Except.ok.inj h').symm
  · simp at h'

theorem searchCondition_echo {r : Registry} {q q' : Request} {search : Option Condition}
    (h : q.searchCondition r = .ok search)
    (hecho : q'.text = if search.isSome then q.text.map Text.trim else none) :
    q'.searchCondition r = .ok search := by
  rw [Request.searchCondition, hecho]
  cases search with
  | none => rfl
  | some c =>
    rw [Request.searchCondition] at h
    cases htext : q.text with
    | none =>
      rw [htext] at h
      simp at h
    | some text =>
      rw [htext] at h
      simp only [Option.isSome_some, if_true, Option.map_some]
      -- The link has the text trimmed, and trimming it again changes nothing.
      simpa only [Registry.textCondition, Text.trim_trim] using h

theorem resolve_echo {r : Registry} (hr : r.Consistent) {o : OrderRequest} {order order' : RowOrder}
    (h : o.resolve r = .ok order) (h' : order.echo.resolve r = .ok order') : order' = order := by
  rw [resolve_echo_eq hr h] at h'
  split at h'
  · exact (Except.ok.inj h').symm
  · simp at h'

theorem linkParams_normal (q : Request) (filter : Option Condition) (searches : Bool)
    (order : RowOrder) (number size : Int64) :
    (q.normal filter searches order number size).linkParams filter searches order
      = q.linkParams filter searches order := by
  cases searches with
  | false => rfl
  | true =>
    cases htext : q.text with
    | none => simp only [Request.linkParams, Request.normal, htext, if_true, Option.map_none]
    | some text =>
      simp only [Request.linkParams, Request.normal, htext, if_true, Option.map_some,
        Option.toList_some, List.map_singleton, Text.trim_trim]

/-- The plan of a request's normal form has the condition, the order and the links of the request's
plan, and the window that is asked for. -/
theorem build_normal {r : Registry} (hr : r.Consistent) {q : Request} (hq : q.Kept)
    {filter equalities search : Option Condition} {path : String} {order : RowOrder}
    (hfilter : q.filterCondition r = .ok filter)
    (hequalities : r.equalityCondition q.equalities = .ok equalities)
    (hsearch : q.searchCondition r = .ok search) (horder : q.order.resolve r = .ok order)
    {number size : Int64} {p : Plan}
    (h : Plan.build (q.normal filter search.isSome order number size) r path = .ok p) :
    p.condition = Condition.all (filter.toList ++ equalities.toList ++ search.toList)
      ∧ p.order = order ∧ p.links = ⟨path, q.linkParams filter search.isSome order⟩
      ∧ PageRequest.resolve ⟨some number, some size, none, none⟩ r = .ok p.window := by
  obtain ⟨filter', equalities', search', hfilter', hequalities', hsearch', hcondition, horder',
    hwindow, hlinks⟩ := Plan.parts_of_build h
  -- Each part of the normal form gives what the part of the request gave.
  obtain rfl := filterCondition_echo hr hq hfilter rfl hfilter'
  obtain rfl := Except.ok.inj (hequalities.symm.trans hequalities')
  obtain rfl := Except.ok.inj ((searchCondition_echo hsearch rfl).symm.trans hsearch')
  have hsame := resolve_echo hr horder horder'
  rw [hsame, linkParams_normal] at hlinks
  exact ⟨hcondition, hsame, hlinks, hwindow⟩

/-! ### Links of a page -/

/-- Whether a link is one of those that are given with a page. -/
def PageInfo.Offers (i : PageInfo) (link : String) : Prop :=
  link = i.current ∨ i.previous = some link ∨ i.next = some link

theorem exists_linked_of_offers {w : Window} {total : Nat} {links : Links} {link : String}
    (h : (PageInfo.ofWindow w total links).Offers link) :
    ∃ page, w.Linked total page ∧ link = links.page page w.limit := by
  rcases h with rfl | h | h
  · exact ⟨w.page, Or.inl rfl, rfl⟩
  · obtain ⟨page, hpage, rfl⟩ := Option.map_eq_some_iff.mp h
    exact ⟨page, Or.inr (Or.inl hpage), rfl⟩
  · obtain ⟨page, hpage, rfl⟩ := Option.map_eq_some_iff.mp h
    exact ⟨page, Or.inr (Or.inr hpage), rfl⟩

theorem ofQueryString_encode (ps : List (String × String)) :
    Request.ofQueryString (FormEncoding.encode ps) = Request.ofPairs ps := by
  have hhead := FormEncoding.head?_encode ps
  simp only [Request.ofQueryString, if_neg hhead, String.ofList_toList, FormEncoding.decode_encode]

/-- What holds of the parameters of each kind holds of all parameters of a link. -/
theorem forall_mem_linkParams {P : String × String → Prop} {q : Request}
    {filter : Option Condition} {searches : Bool} {order : RowOrder}
    (hfilter : ∀ c, filter = some c → P ("filter", c.toJson.text))
    (hequality : ∀ e ∈ q.equalities, P (equalityMark ++ e.1, e.2))
    (htext : ∀ text, P ("text", text)) (horder : P ("order_by", order.primary.field))
    (hdirection : P ("direction", order.primary.direction.name)) (hcarried : ∀ p ∈ q.carried, P p) :
    ∀ p ∈ q.linkParams filter searches order, P p := by
  intro p hp
  simp only [Request.linkParams, List.mem_append, List.mem_map, Option.mem_toList,
    Option.map_eq_some_iff, List.mem_cons, List.not_mem_nil, or_false] at hp
  rcases hp with (((⟨c, hc, rfl⟩ | ⟨e, he, rfl⟩) | hmem) | rfl | rfl) | hmem
  · exact hfilter c hc
  · exact hequality e he
  · split at hmem
    · obtain ⟨text, -, rfl⟩ := List.mem_map.mp hmem
      exact htext (Text.trim text)
    · exact absurd hmem List.not_mem_nil
  · exact horder
  · exact hdirection
  · exact hcarried p hmem

theorem slot_of_mem_linkParams {q : Request} (hq : q.Kept) {filter : Option Condition}
    {searches : Bool} {order : RowOrder} {p : String × String}
    (h : p ∈ q.linkParams filter searches order) : Slot.ofName p.1 ≠ .page := by
  refine forall_mem_linkParams (P := fun p => Slot.ofName p.1 ≠ .page) ?_ ?_ ?_ ?_ ?_ ?_ p h
  · exact fun _ _ hslot => Slot.noConfusion hslot
  · intro e he
    rw [hq.equality e he]
    exact Slot.noConfusion
  · exact fun _ hslot => Slot.noConfusion hslot
  · exact fun hslot => Slot.noConfusion hslot
  · exact fun hslot => Slot.noConfusion hslot
  · intro p hp
    rw [hq.carried p hp]
    exact Slot.noConfusion

/-- No parameter of a link but that of the page is named `page`. -/
theorem lookup_page {q : Request} (hq : q.Kept) (filter : Option Condition) (searches : Bool)
    (order : RowOrder) (path : String) (page items : Nat) :
    List.lookup "page" (Links.pageParams ⟨path, q.linkParams filter searches order⟩ page items)
      = some (Text.decimalText page) := by
  have hnone : List.lookup "page" (q.linkParams filter searches order) = none := by
    rw [List.lookup_eq_none_iff]
    intro p hp
    rw [bne_iff_ne]
    intro hname
    exact slot_of_mem_linkParams hq hp (hname ▸ rfl)
  rw [Links.pageParams, List.lookup_append, hnone]
  rfl

/-- A followed link does not change the question: wherever a link of a plan's page is read and planned
again, condition, order, links and page size are those of the first plan, and the rows start where the
page that the link names does. -/
theorem build_of_followed_link {r : Registry} (hr : r.Built) {q : Request} (hq : q.Received)
    {path : String} {p : Plan} (hp : Plan.build q r path = .ok p) {total : Nat}
    (htotal : total ≤ maxCount) {query : String}
    (hlink : (p.metadata total).paging.Offers (path ++ "?" ++ query)) {q' : Request}
    (hq' : Request.ofQueryString query = .ok q') {p' : Plan} (hp' : Plan.build q' r path = .ok p') :
    p'.condition = p.condition ∧ p'.order = p.order ∧ p'.links = p.links
      ∧ p'.window.limit = p.window.limit
      ∧ ∃ page, 1 ≤ page
          ∧ (FormEncoding.decode query).lookup "page" = some (Text.decimalText page)
          ∧ p'.window.offset = (page - 1) * p.window.limit := by
  have hconsistent := Registry.consistent_of_built hr
  have hkept := Request.kept_of_received hq
  obtain ⟨filter, equalities, search, hfilter, hequalities, hsearch, hcondition, horder, hwindow,
    hlinks⟩ := Plan.parts_of_build hp
  -- What follows the path of a link is the request's parameters, and the page with its size.
  obtain ⟨page, hlinked, hpath⟩ := exists_linked_of_offers hlink
  rw [Links.page, hlinks] at hpath
  obtain rfl := (String.append_right_inj (path ++ "?")).mp hpath
  rw [ofQueryString_encode] at hq'
  obtain ⟨number, size, hnumber, hsize, rfl⟩ := Request.ofPairs_pageParams hkept hq'
  obtain ⟨hcondition', horder', hlinks', hwindow'⟩ :=
    build_normal hconsistent hkept hfilter hequalities hsearch horder hp'
  have hfits := Window.fits_of_resolve hconsistent hwindow
  rw [Window.resolve_linked hfits htotal hlinked hnumber hsize] at hwindow'
  have hw := Except.ok.inj hwindow'
  refine ⟨hcondition'.trans hcondition.symm, horder', hlinks'.trans hlinks.symm, ?_, page,
    Window.pos_of_linked hlinked, ?_, ?_⟩
  · rw [← hw]
  · rw [FormEncoding.decode_encode]
    exact lookup_page hkept _ _ _ _ _ _
  · rw [← hw]

theorem build_of_followed_link_second_page :
    let r := Registry.ofTextField "parts" "kind"
    let query := FormEncoding.encode [("filter_kind", "a"), ("order_by", "kind"),
      ("direction", "asc"), ("tag", "x"), ("page", "2"), ("items", "25")]
    ∃ q q' p p', Request.ofPairs [("tag", "x"), ("filter_kind", "a")] = .ok q
      ∧ Request.ofQueryString query = .ok q' ∧ Plan.build q r "/parts" = .ok p
      ∧ Plan.build q' r "/parts" = .ok p' ∧ (p.metadata 60).paging.next = some ("/parts?" ++ query)
      ∧ p'.condition = p.condition ∧ p'.links = p.links := by
  intro r query
  have hq : Request.ofPairs [("tag", "x"), ("filter_kind", "a")]
      = .ok { Request.empty with equalities := [("kind", "a")], carried := [("tag", "x")] } := rfl
  have hq' : Request.ofQueryString query = .ok ⟨none, ⟨some "kind", some "asc"⟩,
      ⟨some 2, some 25, none, none⟩, none, [("kind", "a")], [("tag", "x")]⟩ := by
    rw [ofQueryString_encode]
    rfl
  have hp : Plan.build
      { Request.empty with equalities := [("kind", "a")], carried := [("tag", "x")] } r "/parts"
      = .ok ⟨some (.leaf "kind" (.compare .eq (.text "a"))),
          some (.compare ⟨"parts", "kind"⟩ .eq (.text "a")), ⟨"parts", ⟨"kind", "kind", .asc⟩, none⟩,
          ⟨0, 25⟩, ⟨"/parts", [("filter_kind", "a"), ("order_by", "kind"), ("direction", "asc"),
            ("tag", "x")]⟩⟩ := rfl
  obtain ⟨p', hp'⟩ : ∃ p', Plan.build ⟨none, ⟨some "kind", some "asc"⟩,
      ⟨some 2, some 25, none, none⟩, none, [("kind", "a")], [("tag", "x")]⟩ r "/parts" = .ok p' :=
    ⟨_, rfl⟩
  have hlink : (PageInfo.ofWindow ⟨0, 25⟩ 60 ⟨"/parts", [("filter_kind", "a"),
      ("order_by", "kind"), ("direction", "asc"), ("tag", "x")]⟩).Offers ("/parts" ++ "?" ++ query) :=
    Or.inr (Or.inr rfl)
  have htotal : 60 ≤ maxCount := by decide
  have hsame := build_of_followed_link (Registry.built_ofTextField "parts" "kind")
    (.pairs hq) hp htotal hlink hq' hp'
  exact ⟨_, _, _, p', hq, hq', hp, hp', rfl, hsame.1, hsame.2.2.1⟩

end ListQuery
