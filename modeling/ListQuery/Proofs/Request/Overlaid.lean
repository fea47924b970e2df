/-
Requests with a body laid over them.

What a body says stands, and what it leaves open stays as the request has it: its filter, each part of the
order, and each value of the paging.  Everything else is as before, and laying the same body over the
request again changes nothing more.  Which bodies can be laid over a request does not depend on the
request.

* `Json.under?` — the value of a body under a path of names;
* `Json.IsBody` — the bodies that can be laid over a request;
* `Body.ofJson` and `overlay_eq` — what a body says, and a request with that over it;
* `PageRequest.or_or` — what is laid over paging a second time changes nothing;
* `overlay_of_body` — the laws of bodies.
-/
import ListQuery.Proofs.Request.PagingStyle
import ListQuery.Proofs.Request.Parameters

namespace ListQuery

open Numeric

/-! ### What stands in a body -/

namespace Json

/-- The value under a path of names in nested objects, where there is one that is not null. -/
def under? : List String → Json → Option Json
  | [], v => if v.isNull then none else some v
  | name :: path, .object members => (memberOf? name members).bind (under? path)
  | _ :: _, _ => none

/-- What a value says in words: a string what it holds, and anything else its JSON text. -/
def wording : Json → String
  | .string s => s
  | v => v.text

/-- Whether a value spells a count: an integer of 64 bits, or a string with the digits of one, with or
without blanks around them. -/
inductive SpellsCount : Json → Int64 → Prop where
  | integer (n : Int64) : SpellsCount (.integer n.toInt) n
  | string {s : String} {n : Int64} (h : integer? (Text.trimChars s.toList) = some n) :
      SpellsCount (.string s) n

/-- Whether a count is what a value spells that may be missing, and missing where the value is. -/
def SetsCount : Option Json → Option Int64 → Prop
  | none, count => count = none
  | some v, count => ∃ n, v.SpellsCount n ∧ count = some n

theorem under?_name (name : String) (members : Members) :
    (Json.object members).under? [name] = presentOf? name members := by
  rw [under?, presentOf?]
  cases memberOf? name members with
  | none => rfl
  | some v =>
    rw [Option.bind_some, under?, Option.filter_some]
    cases v.isNull <;> rfl

theorem under?_cons_cons (name next : String) (path : List String) (members : Members) :
    (Json.object members).under? (name :: next :: path)
      = (presentOf? name members).bind (under? (next :: path)) := by
  rw [under?, presentOf?]
  cases memberOf? name members with
  | none => rfl
  | some v =>
    rw [Option.bind_some, Option.filter_some]
    cases v <;> rfl

end Json

/-- The names of the values that paging is said by. -/
def pagingNames : List String :=
  ["page", "items", "offset", "limit"]

/-- The value of a name in a page request. -/
def PageRequest.value? (p : PageRequest) : String → Option Int64
  | "page" => p.page
  | "items" => p.items
  | "offset" => p.offset
  | "limit" => p.limit
  | _ => none

/-- Whether a page request is what a body says about paging. -/
def PageRequest.SaidBy (p : PageRequest) (body : Json) : Prop :=
  ∀ name ∈ pagingNames, Json.SetsCount (body.under? ["paging", name]) (p.value? name)

/-- The bodies that can be laid over a request. -/
structure Json.IsBody (body : Json) : Prop where
  object : body = .null ∨ ∃ members, body = .object members
  sorting : ∀ v, body.under? ["sorting"] = some v → ∃ members, v = .object members
  paging : ∀ v, body.under? ["paging"] = some v → ∃ members, v = .object members
  counts : ∀ name ∈ pagingNames, ∀ v, body.under? ["paging", name] = some v → ∃ n, v.SpellsCount n

/-! ### What a body says -/

/-- What a body says about a request. -/
structure Body where
  filter : Option Json
  order : OrderRequest
  paging : PageRequest

/-- What a JSON value says as a body. -/
def Body.ofJson : Json → Except QueryError Body
  | .null => .ok ⟨none, .empty, .empty⟩
  | .object members => do
    let order ← OrderRequest.ofJson (Json.presentOf? "sorting" members)
    let paging ← PageRequest.ofJson (Json.presentOf? "paging" members)
    return ⟨Json.presentOf? "filter" members, order, paging⟩
  | v => .error (.filter (.bodyShape v.typeName))

/-- A request with what a body says in place of what the request says. -/
def Request.withBody (q : Request) (b : Body) : Request :=
  { q with filter := b.filter.or q.filter, order := b.order.or q.order, paging := b.paging.or q.paging }

/-- What a body says, and whether it says anything wrong, does not depend on the request. -/
theorem Request.overlay_eq (q : Request) (body : Json) :
    q.overlay body = (Body.ofJson body).map q.withBody := by
  cases body with
  | null =>
    show Except.ok q = Except.ok (q.withBody ⟨none, .empty, .empty⟩)
    rw [withBody, PageRequest.or_of_isEmpty rfl]
    rfl
  | object members =>
    rw [overlay, Body.ofJson]
    cases OrderRequest.ofJson (Json.presentOf? "sorting" members) with
    | error e => rfl
    | ok order =>
      cases PageRequest.ofJson (Json.presentOf? "paging" members) with
      | error e => rfl
      | ok paging => rfl
  | bool | integer | float | string | array => rfl

theorem readJsonText_eq (v : Option Json) :
    readJsonText v = (v.filter (!·.isNull)).map Json.wording := by
  cases v with
  | none => rfl
  | some v => cases v <;> rfl

theorem Json.spellsCount_integer_iff {n : Int} {count : Int64} :
    (Json.integer n).SpellsCount count ↔ int64? n = some count := by
  constructor
  · rintro ⟨⟩
    exact int64?_toInt count
  · intro h
    obtain rfl := toInt_of_int64? h
    exact .integer count

theorem Json.spellsCount_string_iff {s : String} {count : Int64} :
    (Json.string s).SpellsCount count ↔ integer? (Text.trimChars s.toList) = some count := by
  constructor
  · rintro ⟨⟩
    assumption
  · exact .string

/-- A value of paging that is missing or null is not set, and any other one is the count that it spells. -/
theorem readJsonCount_eq_ok_iff {name : String} {v : Option Json} {x : Option Int64} :
    readJsonCount name v = .ok x ↔ Json.SetsCount (v.filter (!·.isNull)) x := by
  have hunset : (.ok none : Except QueryError (Option Int64)) = .ok x ↔ x = none := by
    rw [Except.ok.injEq, eq_comm]
  rcases v with _ | v
  · exact hunset
  cases v with
  | null => exact hunset
  | integer n =>
    show _ ↔ ∃ count, (Json.integer n).SpellsCount count ∧ x = some count
    simp only [Json.spellsCount_integer_iff, readJsonCount]
    cases int64? n <;> simp [eq_comm]
  | string s =>
    show _ ↔ ∃ count, (Json.string s).SpellsCount count ∧ x = some count
    simp only [Json.spellsCount_string_iff, readJsonCount, map_eq_ok_iff, readCount_eq_ok_iff,
      @eq_comm _ x]
  | bool | float | array | object => exact iff_of_false (fun h => nomatch h) (fun ⟨_, h, _⟩ => nomatch h)

/-- The parts of the order are the words in the body, read one by one. -/
theorem OrderRequest.ofJson_eq_ok_iff {members : Json.Members} {order : OrderRequest} :
    ofJson (Json.presentOf? "sorting" members) = .ok order
      ↔ (∀ v, (Json.object members).under? ["sorting"] = some v → ∃ ms, v = .object ms)
        ∧ order.orderBy = ((Json.object members).under? ["sorting", "order_by"]).map Json.wording
        ∧ order.direction = ((Json.object members).under? ["sorting", "direction"]).map Json.wording := by
  obtain ⟨orderBy, direction⟩ := order
  rw [Json.under?_name, Json.under?_cons_cons, Json.under?_cons_cons]
  rcases Json.presentOf? "sorting" members with _ | v
  · simp [ofJson, empty, eq_comm]
  cases v with
  | object ms =>
    simp only [ofJson, Option.bind_some, Json.under?_name, readJsonText_eq, Json.presentOf?]
    simp [eq_comm]
  | null | bool | integer | float | string | array =>
    exact iff_of_false (fun h => nomatch h) fun h => nomatch h.1 _ rfl

theorem PageRequest.eq_empty_iff {p : PageRequest} :
    p = empty ↔ ∀ name ∈ pagingNames, p.value? name = none := by
  obtain ⟨page, items, offset, limit⟩ := p
  simp [empty, pagingNames, value?]

/-- The values of paging are the counts in the body, read one by one. -/
theorem PageRequest.ofJson_eq_ok_iff {members : Json.Members} {p : PageRequest} :
    ofJson (Json.presentOf? "paging" members) = .ok p
      ↔ (∀ v, (Json.object members).under? ["paging"] = some v → ∃ ms, v = .object ms)
        ∧ p.SaidBy (.object members) := by
  simp only [SaidBy, Json.under?_name, Json.under?_cons_cons]
  rcases Json.presentOf? "paging" members with _ | v
  · have hempty : ofJson none = .ok p ↔ p = empty := by
      rw [ofJson, Except.ok.injEq, eq_comm]
    rw [hempty, eq_empty_iff]
    exact ⟨fun h => ⟨fun v hv => absurd hv (Option.some_ne_none v).symm, h⟩, fun h => h.2⟩
  cases v with
  | object ms =>
    obtain ⟨page, items, offset, limit⟩ := p
    simp only [ofJson, bind_eq_ok_iff, pure_eq_ok_iff, readJsonCount_eq_ok_iff, Option.bind_some,
      Json.under?_name, Json.presentOf?, mk.injEq]
    constructor
    · rintro ⟨page', hpage, items', hitems, offset', hoffset, limit', hlimit, rfl, rfl, rfl, rfl⟩
      refine ⟨fun v hv => ⟨ms, (Option.some.inj hv).symm⟩, ?_⟩
      simp only [pagingNames, List.forall_mem_cons, value?]
      exact ⟨hpage, hitems, hoffset, hlimit, fun _ h => absurd h List.not_mem_nil⟩
    · rintro ⟨-, hsaid⟩
      simp only [pagingNames, List.forall_mem_cons, value?] at hsaid
      obtain ⟨hpage, hitems, hoffset, hlimit, -⟩ := hsaid
      exact ⟨page, hpage, items, hitems, offset, hoffset, limit, hlimit, rfl, rfl, rfl, rfl⟩
  | null | bool | integer | float | string | array =>
    exact iff_of_false (fun h => nomatch h) fun h => nomatch h.1 _ rfl

/-- Whether a body is what a JSON value says. -/
structure Body.SaidBy (b : Body) (body : Json) : Prop where
  filter : b.filter = body.under? ["filter"]
  orderBy : b.order.orderBy = (body.under? ["sorting", "order_by"]).map Json.wording
  direction : b.order.direction = (body.under? ["sorting", "direction"]).map Json.wording
  paging : b.paging.SaidBy body

theorem Body.saidBy_of_ofJson {body : Json} {b : Body} (h : ofJson body = .ok b) : b.SaidBy body := by
  cases body with
  | null =>
    obtain rfl := Except.ok.inj h
    exact ⟨rfl, rfl, rfl, PageRequest.eq_empty_iff.mp rfl⟩
  | object members =>
    obtain ⟨order, horder, h⟩ := bind_eq_ok_iff.mp h
    obtain ⟨paging, hpaging, h⟩ := bind_eq_ok_iff.mp h
    obtain rfl := pure_eq_ok_iff.mp h
    obtain ⟨-, horderBy, hdirection⟩ := OrderRequest.ofJson_eq_ok_iff.mp horder
    exact ⟨(Json.under?_name _ _).symm, horderBy, hdirection, (PageRequest.ofJson_eq_ok_iff.mp hpaging).2⟩
  | bool | integer | float | string | array => exact nomatch h

theorem Json.exists_setsCount {v : Option Json} (h : ∀ u, v = some u → ∃ n, u.SpellsCount n) :
    ∃ count, SetsCount v count := by
  cases v with
  | none => exact ⟨none, rfl⟩
  | some u =>
    obtain ⟨n, hn⟩ := h u rfl
    exact ⟨some n, n, hn, rfl⟩

theorem Body.exists_ofJson_iff {body : Json} : (∃ b, ofJson body = .ok b) ↔ body.IsBody := by
  cases body with
  | null =>
    refine iff_of_true ⟨_, rfl⟩ ⟨.inl rfl, fun _ h => ?_, fun _ h => ?_, fun _ _ _ h => ?_⟩
    all_goals exact nomatch h
  | object members =>
    constructor
    · rintro ⟨b, h⟩
      obtain ⟨order, horder, h⟩ := bind_eq_ok_iff.mp h
      obtain ⟨paging, hpaging, h⟩ := bind_eq_ok_iff.mp h
      obtain ⟨hsorting, -⟩ := OrderRequest.ofJson_eq_ok_iff.mp horder
      obtain ⟨hobject, hsaid⟩ := PageRequest.ofJson_eq_ok_iff.mp hpaging
      refine ⟨.inr ⟨members, rfl⟩, hsorting, hobject, fun name hname v hv => ?_⟩
      have hcount := hsaid name hname
      rw [hv] at hcount
      obtain ⟨n, hn, -⟩ := hcount
      exact ⟨n, hn⟩
    · intro h
      -- Each value of paging is a count of its own, so together they are a page request.
      have hcount : ∀ name ∈ pagingNames,
          ∃ count, Json.SetsCount ((Json.object members).under? ["paging", name]) count :=
        fun name hname => Json.exists_setsCount (h.counts name hname)
      obtain ⟨page, hpage⟩ := hcount "page" (by decide)
      obtain ⟨items, hitems⟩ := hcount "items" (by decide)
      obtain ⟨offset, hoffset⟩ := hcount "offset" (by decide)
      obtain ⟨limit, hlimit⟩ := hcount "limit" (by decide)
      have hsaid : PageRequest.SaidBy ⟨page, items, offset, limit⟩ (.object members) := by
        simp only [PageRequest.SaidBy, pagingNames, List.forall_mem_cons]
        exact ⟨hpage, hitems, hoffset, hlimit, fun _ h => absurd h List.not_mem_nil⟩
      have horder : OrderRequest.ofJson (Json.presentOf? "sorting" members) = .ok ⟨_, _⟩ :=
        OrderRequest.ofJson_eq_ok_iff.mpr ⟨h.sorting, rfl, rfl⟩
      have hpaging := PageRequest.ofJson_eq_ok_iff.mpr ⟨h.paging, hsaid⟩
      exact ⟨_, bind_eq_ok_iff.mpr ⟨_, horder, bind_eq_ok_iff.mpr ⟨_, hpaging, rfl⟩⟩⟩
  | bool | integer | float | string | array =>
    refine iff_of_false (fun ⟨_, h⟩ => nomatch h) fun h => ?_
    obtain h | ⟨_, h⟩ := h.object
    · exact nomatch h
    · exact nomatch h

/-! ### A second time -/

namespace PageRequest

theorem filled_filled (p fallback : PageRequest) : p.filled (p.filled fallback) = p.filled fallback := by
  simp only [filled, ← Option.or_assoc, Option.or_self]

theorem or_self (p : PageRequest) : p.or p = p := by
  rw [or_eq, if_neg (by simp)]
  simp only [filled, Option.or_self]

/-- What is laid over paging a second time changes nothing: either it is left alone again, or it finds both
its own styles in use and its values taken. -/
theorem or_or (p fallback : PageRequest) : p.or (p.or fallback) = p.or fallback := by
  rw [or_eq p fallback]
  split
  · exact or_self p
  · rw [or_eq, usesOffset_filled, usesPage_filled, if_neg, filled_filled]
    cases p.usesOffset <;> cases p.usesPage <;> simp

theorem Within.value? {p q : PageRequest} (h : p.Within q) {name : String} {n : Int64}
    (hn : p.value? name = some n) : q.value? name = some n := by
  rw [PageRequest.value?.eq_def] at hn ⊢
  split at hn
  · exact h.page n hn
  · exact h.items n hn
  · exact h.offset n hn
  · exact h.limit n hn
  · exact nomatch hn

end PageRequest

theorem Request.withBody_withBody (q : Request) (b : Body) : (q.withBody b).withBody b = q.withBody b := by
  simp only [withBody, OrderRequest.or, PageRequest.or_or, ← Option.or_assoc, Option.or_self]

/-! ### The laws of bodies -/

/-- What a request is with a body laid over it. -/
structure Request.Overlaid (q q' : Request) (body : Json) : Prop where
  text : q'.text = q.text
  equalities : q'.equalities = q.equalities
  carried : q'.carried = q.carried
  filter : q'.filter = (body.under? ["filter"]).or q.filter
  orderBy : q'.order.orderBy
    = ((body.under? ["sorting", "order_by"]).map Json.wording).or q.order.orderBy
  direction : q'.order.direction
    = ((body.under? ["sorting", "direction"]).map Json.wording).or q.order.direction
  /-- The styles decide what paging the request adds to what the body says. -/
  paging : ∃ said : PageRequest, said.SaidBy body ∧ q'.paging = said.or q.paging
  /-- Whatever the styles, the values that the body sets stand. -/
  pagingValues : ∀ name ∈ pagingNames, ∀ v, body.under? ["paging", name] = some v →
    ∃ n, v.SpellsCount n ∧ q'.paging.value? name = some n

theorem Request.overlaid_withBody {q : Request} {body : Json} {b : Body} (h : b.SaidBy body) :
    q.Overlaid (q.withBody b) body where
  text := rfl
  equalities := rfl
  carried := rfl
  filter := congrArg (·.or q.filter) h.filter
  orderBy := congrArg (·.or q.order.orderBy) h.orderBy
  direction := congrArg (·.or q.order.direction) h.direction
  paging := ⟨b.paging, h.paging, rfl⟩
  pagingValues name hname v hv := by
    have hcount := h.paging name hname
    rw [hv] at hcount
    obtain ⟨n, hn, hvalue⟩ := hcount
    exact ⟨n, hn, (PageRequest.within_or b.paging q.paging).value? hvalue⟩

/-- A body is laid over every request, if it is one at all, and otherwise refused for the same fault by
every request.  What it says stands in the place of what the request says, and what it does not say is
left; laid over the request again, it changes nothing. -/
theorem overlay_of_body (body : Json) :
    (∀ q : Request, (∃ q', q.overlay body = .ok q') ↔ body.IsBody)
      ∧ (∀ (q other : Request) (e : QueryError), q.overlay body = .error e → other.overlay body = .error e)
      ∧ ∀ q q' : Request, q.overlay body = .ok q' → q.Overlaid q' body ∧ q'.overlay body = .ok q' := by
  refine ⟨fun q => ?_, fun q other e h => ?_, fun q q' h => ?_⟩
  · rw [← Body.exists_ofJson_iff]
    constructor
    · rintro ⟨q', h⟩
      rw [Request.overlay_eq, map_eq_ok_iff] at h
      obtain ⟨b, hb, -⟩ := h
      exact ⟨b, hb⟩
    · rintro ⟨b, hb⟩
      exact ⟨q.withBody b, (Request.overlay_eq q body).trans (congrArg (Except.map _) hb)⟩
  · rw [Request.overlay_eq, map_eq_error_iff] at h ⊢
    exact h
  · rw [Request.overlay_eq, map_eq_ok_iff] at h
    obtain ⟨b, hb, rfl⟩ := h
    refine ⟨Request.overlaid_withBody (Body.saidBy_of_ofJson hb), ?_⟩
    rw [Request.overlay_eq, hb]
    exact congrArg Except.ok (q.withBody_withBody b)

/-- A body with a null in place of its filter, an order by a number, and a page in words. -/
theorem overlay_of_body_third_column :
    let body : Json := .object [("filter", .null), ("paging", .object [("items", .null), ("page", .string " 4 ")]),
      ("sorting", .object [("order_by", .integer 3)])]
    let q : Request := ⟨some (.object []), ⟨some "id", some "asc"⟩, ⟨some 1, some 10, none, none⟩, some "a",
      [("kind", "b")], []⟩
    ∃ q', q.overlay body = .ok q' ∧ body.IsBody ∧ q'.filter = some (.object []) ∧ q'.text = some "a"
      ∧ q'.order = ⟨some "3", some "asc"⟩ ∧ q'.paging = ⟨some 4, some 10, none, none⟩
      ∧ q'.overlay body = .ok q' := by
  intro body q
  obtain ⟨hbody, -, hlaws⟩ := overlay_of_body body
  have h : q.overlay body
      = .ok { q with order := ⟨some "3", some "asc"⟩, paging := ⟨some 4, some 10, none, none⟩ } := rfl
  obtain ⟨hoverlaid, hagain⟩ := hlaws q _ h
  exact ⟨_, h, (hbody q).mp ⟨_, h⟩, hoverlaid.filter, hoverlaid.text, rfl, rfl, hagain⟩

end ListQuery
