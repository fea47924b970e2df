/-
The echo of a condition reads back.

A sound condition, none of whose fields is named like a combinator, is written as a filter that reads as
the very same tree, unless the tree is deeper than filters may be:

* `read_toJson` — the echo of a sound condition is read back, or refused for its depth alone;
* `Condition.Produced` — the conditions that come out of filters, equalities, texts and plans;
* `read_toJson_of_produced` — each of these is read back from its echo, if it is not too deep.

Design notes: every condition is written as an object of one member.  The induction is on the condition,
for all depths at once: at depth `d` the member of `c` is read as `[c]` exactly if `d + c.depth` levels
fit.
-/
import ListQuery.Proofs.Condition.Sound
import ListQuery.Proofs.Plan.Parts

namespace ListQuery

namespace Operator

theorem resolve?_of_ofTag? {tag : String} {op : Operator} (h : ofTag? tag = some op) :
    resolve? tag = some (op, false) := by
  rw [resolve?, h]

theorem resolve?_tag (op : Operator) : resolve? op.tag = some (op, false) :=
  resolve?_of_ofTag? (ofTag?_tag op)

end Operator

namespace Condition

/-- The one member of the filter that a condition is written as. -/
def member : Condition → String × Json
  | .leaf field test => (field, .object [(test.operator.tag, test.operand)])
  | .group kind children => (kind.key, .array (toItems children))

theorem toJson_eq (c : Condition) : c.toJson = .object [c.member] := by
  cases c <;> rfl

/-- Refused for its depth, or read as `cs`. -/
def ifFits (levels : Nat) (cs : List Condition) : Except QueryError (List Condition) :=
  if levels ≤ maxDepth + 1 then .ok cs else .error (.filter (.tooDeep maxDepth))

theorem depth_pos (c : Condition) : 1 ≤ c.depth := by
  cases c with
  | leaf => exact Nat.le_refl 1
  | group kind children => exact Nat.le_add_right 1 _

/-- A group that is a conjunction has children enough not to be replaced by its only child. -/
theorem all_singleton {P : String → Test → Prop} {c : Condition} (h : c.Every P) :
    all [c] = some c := by
  cases h with
  | leaf h => rfl
  | @group kind children arity h =>
    cases kind with
    | and =>
      rcases children with _ | ⟨d, _ | ⟨e, rest⟩⟩
      · exact absurd arity (by decide)
      · exact absurd arity (by simp [Combinator.minChildren])
      · rw [all, List.flatMap_singleton]
        rfl
    | or => rfl
    | not => rfl

theorem entryChildren_singleton {P : String → Test → Prop} {c : Condition} (h : c.Every P)
    (kind : Combinator) : entryChildren kind [c] = .ok [c] := by
  rw [entryChildren.eq_def, all_singleton h]
  cases kind <;> rfl

variable {r : Registry}

theorem readField_leaf (hr : r.Consistent) {field : String} {test : Test}
    (h : Suits r field test) :
    readField r field (.object [(test.operator.tag, test.operand)]) = .ok [.leaf field test] := by
  obtain ⟨f, hf, hallows, haccepts⟩ := h
  have hread : readOperation f test.operator.tag test.operand = .ok (.leaf field test) := by
    rw [readOperation_of_resolve? f test.operand (Operator.resolve?_tag test.operator), if_pos hallows,
      Test.read_operand (hr.operator_of_allows hf hallows) haccepts, Registry.name_of_filterable? hf]
    rfl
  rw [readField, Registry.filterField_eq_ok_iff.mpr hf]
  exact mapM_cons_eq_ok_iff.mpr ⟨_, [], hread, mapM_nil_eq_ok_iff.mpr rfl, rfl⟩

/-- Entries are read one after the other; if one is refused, it is for its depth. -/
theorem readEntries_toItems {kind : Combinator} {d : Nat} (hd : d ≤ maxDepth)
    {cs : List Condition} (hone : ∀ c ∈ cs, entryChildren kind [c] = .ok [c])
    (ih : ∀ c ∈ cs, ∀ d ≤ maxDepth, readMembers r d [c.member] = ifFits (d + c.depth) [c]) :
    readEntries r d kind (toItems cs) = ifFits (d + 1 + depthOf cs) cs := by
  induction cs with
  | nil => exact (if_pos (Nat.succ_le_succ hd)).symm
  | cons c cs ihcs =>
    obtain ⟨hc, hcs⟩ := List.forall_mem_cons.mp hone
    obtain ⟨ihc, ihrest⟩ := List.forall_mem_cons.mp ih
    have hpos := c.depth_pos
    rw [toItems, toJson_eq, readEntries, checkDepth, depthOf]
    -- The first entry may be too deep itself, or hold something that is, or leave this to the rest.
    by_cases hdepth : d + 1 ≤ maxDepth
    · rw [if_pos hdepth, ihc (d + 1) hdepth, ihcs hcs ihrest]
      simp only [ifFits]
      by_cases hfirst : d + 1 + c.depth ≤ maxDepth + 1
      · by_cases hrest : d + 1 + depthOf cs ≤ maxDepth + 1
        · rw [if_pos hfirst, if_pos hrest, if_pos (by omega)]
          simp only [bind, Except.bind, hc]
          rfl
        · rw [if_pos hfirst, if_neg hrest, if_neg (by omega)]
          simp only [bind, Except.bind, hc]
      · have hall : ¬d + 1 + max c.depth (depthOf cs) ≤ maxDepth + 1 := by omega
        rw [if_neg hfirst, if_neg hall]
        rfl
    · rw [if_neg hdepth, ifFits, if_neg (by omega)]
      rfl

theorem readMembers_member (hr : r.Consistent) {c : Condition} (hc : c.Sound r)
    (hkeys : ∀ name ∈ c.fields, Combinator.ofKey? name = none) {d : Nat} (hd : d ≤ maxDepth) :
    readMembers r d [c.member] = ifFits (d + c.depth) [c] := by
  induction hc generalizing d with
  | @leaf field test h =>
    have hkey := hkeys field List.mem_cons_self
    rw [member, readMembers_cons, readMember, hkey]
    simp only [readField_leaf hr h]
    exact (if_pos (Nat.succ_le_succ hd)).symm
  | @group kind children arity h ih =>
    have hentries := readEntries_toItems hd
      (fun c hc => entryChildren_singleton (h c hc) kind)
      (fun c hc d hd => ih c hc (fun name hname => hkeys name (mem_fieldsOf.mpr ⟨c, hc, hname⟩)) hd)
    have harity : checkArity kind children.length = .ok () := if_neg (Nat.not_lt.mpr arity)
    rw [member, readMembers_cons, readMember, Combinator.ofKey?_key]
    simp only [readGroup, hentries]
    -- The children stand one level below the group.
    have hlevels : d + 1 + depthOf children = d + (group kind children).depth := by
      rw [depth, Nat.add_assoc]
    rw [hlevels]
    simp only [ifFits]
    split
    · simp only [bind, Except.bind, join, harity]
      rfl
    · rfl

/-- The echo of a sound condition is read as the condition, or refused for its depth alone. -/
theorem read_toJson (hr : r.Consistent) {c : Condition} (hc : c.Sound r)
    (hkeys : ∀ name ∈ c.fields, Combinator.ofKey? name = none) :
    read r c.toJson = if c.depth ≤ maxDepth then .ok c else .error (.filter (.tooDeep maxDepth)) := by
  rw [toJson_eq, read, readMembers_member hr hc hkeys (by decide)]
  simp only [ifFits]
  by_cases hdepth : c.depth ≤ maxDepth
  · rw [if_pos hdepth, if_pos (by omega)]
    simp only [bind, Except.bind, all_singleton hc]
    rfl
  · rw [if_neg hdepth, if_neg (by omega)]
    rfl

/-! ### The echo as JSON -/

theorem isWellFormed_singleton {name : String} {v : Json} (h : v.isWellFormed = true) :
    (Json.object [(name, v)]).isWellFormed = true :=
  Json.isWellFormed_object.mpr ⟨List.pairwise_singleton _ _, List.forall_mem_singleton.mpr h⟩

theorem isWellFormed_operand (test : Test) : test.operand.isWellFormed = true := by
  cases test with
  | compare op v => exact v.isWellFormed_toJson
  | pattern kind s => rfl
  | oneOf vs => exact Literal.areWellFormed_toItems vs
  | range i =>
    rw [Test.operand]
    split
    · exact isWellFormed_singleton rfl
    · have hnames : "from" < "to" := by decide
      have hsorted : [("from", i.lower.toJson), ("to", i.upper.toJson)].Pairwise
          fun p q => p.1 < q.1 :=
        List.pairwise_pair.mpr hnames
      refine Json.isWellFormed_object.mpr ⟨hsorted, ?_⟩
      exact List.forall_mem_cons.mpr
        ⟨i.lower.isWellFormed_toJson, List.forall_mem_singleton.mpr i.upper.isWellFormed_toJson⟩

mutual

theorem isWellFormed_toJson : ∀ c : Condition, c.toJson.isWellFormed = true
  | .leaf _ test => isWellFormed_singleton (isWellFormed_singleton (isWellFormed_operand test))
  | .group _ children => isWellFormed_singleton (areWellFormed_toItems children)

theorem areWellFormed_toItems : ∀ cs : List Condition, Json.areWellFormed (toItems cs) = true
  | [] => rfl
  | c :: cs => by
    rw [toItems, Json.areWellFormed, isWellFormed_toJson c, areWellFormed_toItems cs]
    rfl

end

/-! ### Conditions that a registry produces -/

theorem sound_of_filterCondition (hr : r.Consistent) {q : Request} {c : Condition}
    (hw : ∀ raw, q.filter = some raw → raw.isWellFormed = true)
    (h : q.filterCondition r = .ok (some c)) : c.Sound r := by
  obtain ⟨raw, hraw, hread⟩ := Request.read_of_filterCondition h
  exact sound_of_read hr (hw raw hraw) hread

theorem sound_of_searchCondition (hr : r.Consistent) {q : Request} {c : Condition}
    (h : q.searchCondition r = .ok (some c)) : c.Sound r := by
  obtain ⟨text, -, htext⟩ := Request.text_of_searchCondition h
  exact sound_of_textCondition hr htext

theorem sound_of_build (hr : r.Consistent) {q : Request} {path : String} {p : Plan} {c : Condition}
    (hw : ∀ raw, q.filter = some raw → raw.isWellFormed = true)
    (h : Plan.build q r path = .ok p) (hc : p.condition = some c) : c.Sound r := by
  obtain ⟨filter, equalities, search, hfilter, hequalities, hsearch, hcondition, -⟩ :=
    Plan.parts_of_build h
  refine every_of_all (Plan.forall_mem_parts ?_ ?_ ?_) (hcondition.symm.trans hc)
  · rintro d rfl
    exact sound_of_filterCondition hr hw hfilter
  · rintro d rfl
    exact sound_of_equalityCondition hequalities
  · rintro d rfl
    exact sound_of_searchCondition hr hsearch

/-- The conditions that come out of a registry: those of filters, of equalities, of texts that are looked
for, and of whole plans. -/
inductive Produced (r : Registry) : Condition → Prop where
  | read {raw : Json} {c : Condition} (hw : raw.isWellFormed = true)
      (h : Condition.read r raw = .ok c) : Produced r c
  | equalities {equalities : Pairs} {c : Condition}
      (h : r.equalityCondition equalities = .ok (some c)) : Produced r c
  | search {text : String} {c : Condition}
      (h : r.textCondition text = .ok (some c)) : Produced r c
  | plan {q : Request} {path : String} {p : Plan} {c : Condition}
      (hw : ∀ raw, q.filter = some raw → raw.isWellFormed = true)
      (h : Plan.build q r path = .ok p) (hc : p.condition = some c) : Produced r c

theorem sound_of_produced (hr : r.Consistent) {c : Condition} (h : c.Produced r) : c.Sound r := by
  cases h with
  | read hw h => exact sound_of_read hr hw h
  | equalities h => exact sound_of_equalityCondition h
  | search h => exact sound_of_textCondition hr h
  | plan hw h hc => exact sound_of_build hr hw h hc

/-- What a built registry produces is read back from its echo as the very same tree, if it is not too
deep and no field is named like a combinator. -/
theorem read_toJson_of_produced {r : Registry} (hr : r.Built) {c : Condition} (hc : c.Produced r)
    (hdepth : c.depth ≤ maxDepth)
    (hkeys : ∀ name ∈ c.fields, Combinator.ofKey? name = none) : read r c.toJson = .ok c := by
  have hconsistent := Registry.consistent_of_built hr
  rw [read_toJson hconsistent (sound_of_produced hconsistent hc) hkeys, if_pos hdepth]

theorem read_toJson_of_produced_kind :
    let c := group .or [leaf "kind" (.range ⟨.text "a", .text "b", true⟩),
      negate (leaf "kind" (.oneOf [.text "a"]))]
    read (.ofTextField "parts" "kind") c.toJson = .ok c := by
  refine read_toJson_of_produced (Registry.built_ofTextField "parts" "kind") ?_ (by decide) ?_
  · have hread : read (.ofTextField "parts" "kind")
        (.object [("or", .array
          [.object [("kind", .object [("range", .object [("interval", .string "[a,b]")])])],
           .object [("kind", .object [("not_in", .array [.string "a"])])]])])
        = .ok (group .or [leaf "kind" (.range ⟨.text "a", .text "b", true⟩),
            negate (leaf "kind" (.oneOf [.text "a"]))]) := rfl
    exact .read (by decide) hread
  · decide

end Condition

end ListQuery
