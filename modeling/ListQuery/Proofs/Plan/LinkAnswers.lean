/-
What following a link is answered with.

A link of a plan decodes to the plan's request in normal form, and its parameters are let through one by
one, the order aside: a page shows the field that its rows are ordered by, the links ask for just that
field, and the usual one of a registry need not be one that may be asked for.

* `Condition.nesting_toJson_le` — the echo of a condition opens no more brackets than its levels ask for;
* `build_of_link` — following a link gives the plan again with other rows, or is refused for its order.

Design notes: a filter that is not too deep to be read again has a text that is not either, since each
level of a condition opens two brackets and a test three.
-/
import ListQuery.Proofs.Plan.DecodedLinks

namespace ListQuery

/-! ### The nesting of an echo -/

theorem nesting_of_takes {f : Field} {v : Literal} (h : f.Takes v) : v.toJson.nesting = 0 := by
  cases v with
  | list items =>
    have hholds := h.holds
    cases f.type <;> simp [FieldType.holds] at hholds
  | float x => cases x <;> rfl
  | null | bool | int | text => rfl

theorem nestingOf_toItems_of_takes {f : Field} {vs : List Literal} (h : ∀ v ∈ vs, f.Takes v) :
    Json.nestingOf (Literal.toItems vs) = 0 := by
  induction vs with
  | nil => rfl
  | cons v vs ih =>
    obtain ⟨hv, hvs⟩ := List.forall_mem_cons.mp h
    rw [Literal.toItems, Json.nestingOf, nesting_of_takes hv, ih hvs]
    rfl

theorem nesting_operand_le {f : Field} {test : Test} (h : f.Accepts test) :
    test.operand.nesting ≤ 1 := by
  cases test with
  | compare op v =>
    rcases h with ⟨rfl, -⟩ | hv
    · exact Nat.zero_le 1
    · have hvalue := nesting_of_takes hv
      show v.toJson.nesting ≤ 1
      omega
  | pattern kind s => exact Nat.zero_le 1
  | oneOf vs =>
    have hitems := nestingOf_toItems_of_takes h.2
    show 1 + Json.nestingOf (Literal.toItems vs) ≤ 1
    omega
  | range i =>
    rw [Test.operand]
    split
    · exact Nat.le_refl 1
    · simp [Json.nesting, Json.nestingOfMembers, nesting_of_takes h.1.lower,
        nesting_of_takes h.1.upper]

namespace Condition

theorem nestingOf_toItems_le {cs : List Condition}
    (h : ∀ c ∈ cs, c.toJson.nesting ≤ 2 * c.depth + 1) :
    Json.nestingOf (toItems cs) ≤ 2 * depthOf cs + 1 := by
  induction cs with
  | nil => exact Nat.zero_le 1
  | cons c cs ih =>
    obtain ⟨hc, hcs⟩ := List.forall_mem_cons.mp h
    have hrest := ih hcs
    rw [toItems, Json.nestingOf, depthOf]
    omega

/-- A group opens a brace and a bracket, and a leaf two braces and at most one of its operand. -/
theorem nesting_toJson_le {r : Registry} {c : Condition} (h : c.Sound r) :
    c.toJson.nesting ≤ 2 * c.depth + 1 := by
  induction h with
  | leaf h =>
    obtain ⟨f, -, -, haccepts⟩ := h
    have hoperand := nesting_operand_le haccepts
    simp only [toJson, Json.nesting, Json.nestingOfMembers, depth]
    omega
  | group arity h ih =>
    have hitems := nestingOf_toItems_le ih
    simp only [toJson, Json.nesting, Json.nestingOfMembers, depth]
    omega

end Condition

/-! ### Links of a plan -/

/-- A plan with no order is refused for its order, its conditions being let through. -/
theorem build_of_order_error {r : Registry} {q : Request} {path : String} {why : QueryError}
    {filter equalities search : Option Condition} {predicate : Option Predicate}
    (hfilter : q.filterCondition r = .ok filter)
    (hequalities : r.equalityCondition q.equalities = .ok equalities)
    (hsearch : q.searchCondition r = .ok search)
    (hpredicate : Condition.compile? (.ofRegistry r)
      (Condition.all (filter.toList ++ equalities.toList ++ search.toList)) = .ok predicate)
    (horder : q.order.resolve r = .error why) : Plan.build q r path = .error why := by
  simp only [Plan.build, hfilter, hequalities, hsearch, hpredicate, horder, bind, Except.bind]

/-- Following a link of a plan gives the plan again, showing the rows that the link names, or is refused
for the order that the plan itself has. -/
theorem build_of_link {r : Registry} (hr : r.Built) {q : Request} (hq : q.Received) {path : String}
    {p : Plan} (hp : Plan.build q r path = .ok p) {filter : Option Condition}
    (hfilter : q.filterCondition r = .ok filter)
    (hdepth : filter.elim 0 Condition.depth ≤ Condition.maxDepth) {page items : Nat}
    (hpage : (page : Int) ≤ Int64.maxValue.toInt) (hitems : (items : Int) ≤ Int64.maxValue.toInt) :
    ∃ (query : String) (q' : Request) (w : Window), p.links.page page items = path ++ "?" ++ query
      ∧ Request.ofQueryString query = .ok q' ∧ q'.paging.resolve r = .ok w
      ∧ Plan.build q' r path
        = if q.order.orderBy.isSome || r.defaultOrderBy.sortable then .ok { p with window := w }
          else .error (.field r.defaultOrderBy.name .notSortable) := by
  have hconsistent := Registry.consistent_of_built hr
  have hkept := Request.kept_of_received hq
  obtain ⟨filter', equalities, search, hfilter', hequalities, hsearch, hcondition, hpredicate,
    horder, -, hlinks⟩ := Plan.build_eq_ok_iff.mp hp
  obtain rfl := Except.ok.inj (hfilter.symm.trans hfilter')
  have hnesting : ∀ c, filter = some c → c.toJson.nesting ≤ Json.Reader.maxDepth := by
    rintro c rfl
    have hc := Condition.nesting_toJson_le
      (Condition.sound_of_filterCondition hconsistent hkept.filter hfilter)
    have hfits : 2 * Condition.maxDepth + 1 ≤ Json.Reader.maxDepth := by decide
    rw [Option.elim_some] at hdepth
    omega
  obtain ⟨number, size, -, -, hread⟩ := Request.exists_ofPairs_pageParams hkept hnesting
    search.isSome p.order path hpage hitems
  obtain ⟨w, hw⟩ : ∃ w, PageRequest.resolve ⟨some number, some size, none, none⟩ r = .ok w :=
    ⟨_, rfl⟩
  refine ⟨FormEncoding.encode (p.links.pageParams page items),
    q.normal filter search.isSome p.order number size, w, ?_, ?_, hw, ?_⟩
  · rw [Links.page, hlinks]
  · rw [ofQueryString_encode, hlinks, hread]
  -- The conditions of the normal form are those of the request, so all depends on the order.
  have hfilterEcho : (q.normal filter search.isSome p.order number size).filterCondition r
      = .ok filter := by
    rw [filterCondition_of_echo hconsistent hkept hfilter rfl, if_pos hdepth]
  have hsearchEcho : (q.normal filter search.isSome p.order number size).searchCondition r
      = .ok search := searchCondition_echo hsearch rfl
  have horderEcho : (q.normal filter search.isSome p.order number size).order.resolve r = _ :=
    resolve_echo_eq hconsistent horder
  split
  · rename_i hnamed
    rw [if_pos hnamed] at horderEcho
    refine Plan.build_eq_ok_iff.mpr ⟨filter, equalities, search, hfilterEcho, hequalities,
      hsearchEcho, hcondition, hpredicate, horderEcho, hw, ?_⟩
    rw [linkParams_normal]
    exact hlinks
  · rename_i hnamed
    rw [if_neg hnamed] at horderEcho
    rw [hcondition] at hpredicate
    exact build_of_order_error hfilterEcho hequalities hsearchEcho hpredicate horderEcho

end ListQuery
