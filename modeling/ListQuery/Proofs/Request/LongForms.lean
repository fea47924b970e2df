/-
The shorter forms of a request, written out.

Equalities and text search have readers of their own.  Each asks for what a filter says that names one
operator a field, so the two ways of asking agree, down to which error is reported.

* `Json.joined` — some filters joined by a combinator, a single one standing alone;
* `alike_read_joined` — conditions that are read one by one, and the filters that are joined;
* `shortForms_eq_filters` — equalities and text search agree with the filters that say the same.

Design notes: for both forms the members of a filter are compared with what the short form reads for the
same field, and the joining is done once, for any list of conditions that are leaves.
-/
import ListQuery.Proofs.Condition.Addressed
import ListQuery.Proofs.Condition.Compositional

namespace ListQuery

/-- The filter that joins some filters; a single one needs no joining. -/
def Json.joined (kind : Combinator) : List Json → Json
  | [item] => item
  | items => .object [(kind.key, .array items)]

namespace Condition

variable {r : Registry} {depth : Nat} {kind : Combinator}

/-- Whether a condition is a test of a field. -/
def IsLeaf (c : Condition) : Prop :=
  ∃ field test, c = .leaf field test

theorem conjuncts_of_isLeaf {c : Condition} (h : c.IsLeaf) : c.conjuncts = [c] := by
  obtain ⟨field, test, rfl⟩ := h
  rfl

theorem every_of_isLeaf {c : Condition} (h : c.IsLeaf) : c.Every fun _ _ => True := by
  obtain ⟨field, test, rfl⟩ := h
  exact .leaf trivial

theorem flatMap_conjuncts_of_isLeaf {cs : List Condition} (h : ∀ c ∈ cs, c.IsLeaf) :
    cs.flatMap conjuncts = cs := by
  induction cs with
  | nil => rfl
  | cons c cs ih =>
    obtain ⟨hc, hcs⟩ := List.forall_mem_cons.mp h
    rw [List.flatMap_cons, conjuncts_of_isLeaf hc, ih hcs]
    rfl

/-! ### Joining leaves -/

variable {α : Type} {E : QueryError → QueryError → Prop} {g : α → Except QueryError Condition}
  {members : α → Json.Members}

/-- A leaf that is read from the members of a filter is the one child that the filter adds to a group. -/
theorem alike_readEntry {a : α} (hdepth : depth + 1 ≤ maxDepth)
    (h : Alike E (fun c cs => cs = [c] ∧ c.IsLeaf) (g a) (readMembers r (depth + 1) (members a))) :
    Alike E (fun c cs => cs = [c] ∧ c.IsLeaf) (g a)
      (readEntry r depth kind (.object (members a))) := by
  have hfits : checkDepth (depth + 1) = .ok () := if_pos hdepth
  have hentry : readEntry r depth kind (.object (members a))
      = readMembers r (depth + 1) (members a) >>= entryChildren kind := by
    rw [readEntry, hfits]
    rfl
  rw [hentry, ← bind_pure (g a)]
  refine h.bind ?_
  rintro c _ - - ⟨rfl, hc⟩
  rw [entryChildren_singleton (every_of_isLeaf hc)]
  exact ⟨rfl, hc⟩

/-- Leaves that are read one by one and collapsed are what the joined filters are read as. -/
theorem alike_read_joined (kind : Combinator) (members : α → Json.Members) {as : List α} (hne : as ≠ [])
    (h : ∀ a ∈ as, ∀ depth ≤ maxDepth,
      Alike E (fun c cs => cs = [c] ∧ c.IsLeaf) (g a) (readMembers r depth (members a))) :
    Alike E (fun condition c => condition = some c) (do return collapse kind (← as.mapM g))
      (read r (.joined kind (as.map fun a => .object (members a)))) := by
  rcases as with _ | ⟨a, _ | ⟨b, rest⟩⟩
  · exact absurd rfl hne
  · have hsingle : (do return collapse kind (← [a].mapM g)) = (g a >>= fun c => pure (some c)) := by
      cases hg : g a <;> simp [hg, collapse]
    rw [hsingle, List.map_singleton, Json.joined, read]
    refine (h a List.mem_cons_self 1 (by decide)).bind ?_
    rintro c _ - - ⟨rfl, hc⟩
    rw [all_singleton (every_of_isLeaf hc)]
    rfl
  · have hlist : Alike E (fun cs c => c = .group kind cs) ((a :: b :: rest).mapM g)
        (read r (.object [(kind.key, .array ((a :: b :: rest).map fun a => .object (members a)))])) := by
      refine alike_read_list (P := fun _ _ => True) (Nat.le_add_left 2 rest.length) fun a ha => ?_
      refine (alike_readEntry (by decide) (h a ha 2 (by decide))).mono (fun _ _ he => he) ?_
      exact fun c cs hleaf => ⟨hleaf.1, every_of_isLeaf hleaf.2⟩
    rw [← bind_pure (read r _)]
    refine hlist.bind ?_
    rintro cs _ hcs - rfl
    have htwo : 2 ≤ cs.length := by
      rw [length_of_mapM hcs]
      exact Nat.le_add_left 2 rest.length
    rw [collapse_of_two_le htwo]
    rfl

/-! ### One field -/

/-- What a filter asks for with `eq` and a text. -/
theorem readOperation_eq (f : Field) (raw : String) :
    readOperation f "eq" (.string raw)
      = if f.allows (.comparison .eq) then
          match f.type.coerce (.text raw) with
          | .ok v => .ok (.leaf f.name (.compare .eq v))
          | .error why => .error (.value f.name "eq" (.misfit why))
        else .error (.operator f.name "eq" (.notPermitted f.type)) := by
  have hresolve : Operator.resolve? "eq" = some (.comparison .eq, false) :=
    Operator.resolve?_tag (.comparison .eq)
  rw [readOperation_of_resolve? f _ hresolve]
  simp only [Test.read, Field.readCompared, Field.readValue, Literal.ofJson?]
  cases f.type.coerce (.text raw) <;> rfl

/-- An equality of a field is read as the filter is that asks for it. -/
theorem alike_equality (depth : Nat) {name : String} (hkey : Combinator.ofKey? name = none) (raw : String) :
    Alike QueryError.SameReport (fun c cs => cs = [c] ∧ c.IsLeaf) (r.equality name raw)
      (readMembers r depth [(name, .object [("eq", .string raw)])]) := by
  rw [readMembers_operation hkey, Registry.equality]
  refine (Alike.refl QueryError.SameReport.refl (R := Eq) (fun _ => rfl) (r.filterField name)).bind ?_
  rintro f _ hf - rfl
  obtain rfl := Registry.name_of_filterable? (Registry.filterField_eq_ok_iff.mp hf)
  rw [readOperation_eq]
  cases f.allows (.comparison .eq) with
  | false => exact ⟨rfl, rfl, rfl⟩
  | true =>
    cases f.type.coerce (.text raw) with
    | error why => exact QueryError.SameReport.refl _
    | ok v => exact ⟨rfl, f.name, .compare .eq v, rfl⟩

/-- The filter that asks whether a searched field contains a text is read as that test. -/
theorem readMembers_contains (hr : r.Consistent) {f : Field} (hf : f ∈ r.textFields) {text : String}
    (htext : text ≠ "") (hkey : Combinator.ofKey? f.name = none) :
    readMembers r depth [(f.name, .object [("contains", .string text)])]
      = .ok [.leaf f.name (.pattern .contains text)] := by
  have hfield : readField r f.name (.object [("contains", .string text)])
      = .ok [.leaf f.name (.pattern .contains text)] :=
    readField_leaf hr (suits_of_mem_textFields hr hf htext)
  rw [readMembers_cons, readMember, hkey]
  simp only [hfield]
  rfl

/-! ### The short forms -/

/-- The filter that asks for an equality. -/
def equalityFilter (name raw : String) : Json :=
  .object [(name, .object [("eq", .string raw)])]

/-- The filter that asks whether a field contains a text. -/
def containsFilter (text name : String) : Json :=
  .object [(name, .object [("contains", .string text)])]

theorem alike_equalityCondition {equalities : Pairs} (hne : equalities ≠ [])
    (hkeys : ∀ e ∈ equalities, Combinator.ofKey? e.1 = none) :
    Alike QueryError.SameReport (fun condition c => condition = some c)
      (r.equalityCondition equalities)
      (read r (.joined .and (equalities.map fun e => equalityFilter e.1 e.2))) := by
  have hcollapse : r.equalityCondition equalities
      = (do return collapse .and (← equalities.mapM fun e => r.equality e.1 e.2)) := by
    show (do return all (← equalities.mapM fun (e : String × String) => r.equality e.1 e.2)) = _
    cases hcs : equalities.mapM fun e => r.equality e.1 e.2 with
    | error e => rfl
    | ok cs =>
      have hleaves : ∀ c ∈ cs, c.IsLeaf := by
        intro c hc
        obtain ⟨e, he, hread⟩ := exists_of_mem_mapM hcs hc
        obtain ⟨-, -, -, hleaf⟩ := (alike_equality 1 (hkeys e he) e.2).exists_of_ok hread
        exact hleaf
      show Except.ok (all cs) = .ok (collapse .and cs)
      rw [all, flatMap_conjuncts_of_isLeaf hleaves]
  rw [hcollapse]
  exact alike_read_joined .and (fun e => [(e.1, .object [("eq", .string e.2)])]) hne
    fun e he depth _ => alike_equality depth (hkeys e he) e.2

theorem textCondition_eq {text : String} (htext : Text.trim text ≠ "") (hne : r.textFields ≠ []) :
    r.textCondition text
      = .ok (any (r.textFields.map fun f => .leaf f.name (.pattern .contains (Text.trim text)))) := by
  have hempty : (Text.trim text).isEmpty = false := by simpa using htext
  rw [Registry.textCondition]
  simp only [hempty, Bool.false_eq_true, if_false]

theorem read_containsFilters (hr : r.Consistent) {text : String} (htext : Text.trim text ≠ "")
    (hne : r.textFields ≠ []) (hkeys : ∀ f ∈ r.textFields, Combinator.ofKey? f.name = none) :
    ∃ c, r.textCondition text = .ok (some c)
      ∧ read r (.joined .or (r.textFields.map fun f => containsFilter (Text.trim text) f.name)) = .ok c := by
  have halike := alike_read_joined (E := QueryError.SameReport)
    (g := fun f => .ok (.leaf f.name (.pattern .contains (Text.trim text))))
    .or (fun f => [(f.name, .object [("contains", .string (Text.trim text))])]) hne
    fun f hf depth _ => by
      rw [readMembers_contains hr hf htext (hkeys f hf)]
      exact ⟨rfl, _, _, rfl⟩
  rw [mapM_eq_ok_of_forall fun _ _ => rfl] at halike
  obtain ⟨c, hread, hc⟩ := halike.exists_of_ok rfl
  refine ⟨c, ?_, hread⟩
  rw [textCondition_eq htext hne, any, hc]

/-- Equalities, and text search, agree with the filters that ask for the same: they give one condition, or
they are refused with one code for one field and operator.  The filters that are joined stand in the
order of the equalities, or of the searched fields; a single one is not joined. -/
theorem shortForms_eq_filters {r : Registry} (hr : r.Built) :
    (∀ equalities : Pairs, equalities ≠ [] → (∀ e ∈ equalities, ∀ kind : Combinator, e.1 ≠ kind.key) →
        Alike QueryError.SameReport (fun condition c => condition = some c)
          (r.equalityCondition equalities)
          (read r (.joined .and (equalities.map fun e => equalityFilter e.1 e.2))))
      ∧ ∀ text, Text.trim text ≠ "" → r.textFields ≠ [] →
        (∀ f ∈ r.textFields, ∀ kind : Combinator, f.name ≠ kind.key) →
        ∃ c, r.textCondition text = .ok (some c)
          ∧ read r (.joined .or (r.textFields.map fun f => containsFilter (Text.trim text) f.name))
            = .ok c := by
  refine ⟨fun equalities hne hkeys => ?_, fun text htext hne hkeys => ?_⟩
  · exact alike_equalityCondition hne fun e he => Combinator.ofKey?_eq_none_iff.mpr (hkeys e he)
  · exact read_containsFilters (Registry.consistent_of_built hr) htext hne fun f hf =>
      Combinator.ofKey?_eq_none_iff.mpr (hkeys f hf)

/-- Two equalities and the search for a text among parts, and an equality with no number. -/
theorem shortForms_eq_filters_parts :
    read .parts (.object [("and", .array [.object [("kind", .object [("eq", .string "a")])],
        .object [("id", .object [("eq", .string "7")])]])])
      = .ok (.group .and [.leaf "kind" (.compare .eq (.text "a")), .leaf "id" (.compare .eq (.int 7))])
    ∧ (∃ e, read .parts (.object [("id", .object [("eq", .string "a")])]) = .error e
        ∧ e.code = .invalidValue ∧ e.field? = some "id" ∧ e.operator? = some "eq")
    ∧ read .parts (.object [("kind", .object [("contains", .string "b")])])
      = .ok (.leaf "kind" (.pattern .contains "b")) := by
  obtain ⟨hequalities, hsearch⟩ := shortForms_eq_filters Registry.built_parts
  have hkind : ∀ kind : Combinator, "kind" ≠ kind.key := by rintro ⟨⟩ <;> decide
  have hid : ∀ kind : Combinator, "id" ≠ kind.key := by rintro ⟨⟩ <;> decide
  refine ⟨?_, ?_, ?_⟩
  · obtain ⟨c, hread, hc⟩ := (hequalities [("kind", "a"), ("id", "7")] (List.cons_ne_nil _ _)
      (List.forall_mem_cons.mpr ⟨hkind, List.forall_mem_singleton.mpr hid⟩)).exists_of_ok rfl
    rw [← Option.some.inj hc] at hread
    exact hread
  · obtain ⟨e, hread, hcode, hfield, hoperator⟩ := (hequalities [("id", "a")] (List.cons_ne_nil _ _)
      (List.forall_mem_singleton.mpr hid)).exists_of_error rfl
    exact ⟨e, hread, hcode.symm, hfield.symm, hoperator.symm⟩
  · obtain ⟨c, hc, hread⟩ := hsearch " b " (by decide) (List.cons_ne_nil _ _)
      (List.forall_mem_singleton.mpr hkind)
    rw [← Option.some.inj (Except.ok.inj hc)] at hread
    exact hread

end Condition

end ListQuery
