/-
JSON values read back from their texts.

* `run_tokens` — the tokens of a value take the reader to the state with the value delivered, if there is
  room for the brackets that the value opens inside each other;
* `read?_text` — a well-formed value is read back from its text, or refused for its nesting alone.

Design notes: numbers with a point or an exponent come back because the reader gives the nearest binary64
number for every text.  With a reader that is inexact on some texts, what is said here holds of the values
whose numbers it reads exactly.
-/
import ListQuery.Json.Reader
import ListQuery.Proofs.Json.Tokens

namespace ListQuery.Json

mutual

/-- The most brackets of a value that are open at once. -/
def nesting : Json → Nat
  | .array items => 1 + nestingOf items
  | .object members => 1 + nestingOfMembers members
  | _ => 0

/-- The most brackets of some values that are open at once. -/
def nestingOf : List Json → Nat
  | [] => 0
  | v :: vs => max (nesting v) (nestingOf vs)

/-- The most brackets of the values of some members that are open at once. -/
def nestingOfMembers : List (String × Json) → Nat
  | [] => 0
  | (_, v) :: ms => max (nesting v) (nestingOfMembers ms)

end

/-! ### Members in order -/

theorem insert_last {name : String} {value : Json} {ms : Members} (h : ∀ p ∈ ms, p.1 < name) :
    Members.insert name value ms = ms ++ [(name, value)] := by
  induction ms with
  | nil => rfl
  | cons p ms ih =>
    obtain ⟨n, v⟩ := p
    obtain ⟨hn, hms⟩ := List.forall_mem_cons.mp h
    have hne : name ≠ n := fun he => String.lt_irrefl n (he ▸ hn)
    have hnot : ¬name < n := fun hlt => String.lt_irrefl n (String.lt_trans hn hlt)
    rw [Members.insert, if_neg hne, if_neg hnot, ih hms, List.cons_append]

theorem ofMembers_of_sorted {ms : Members} (h : ms.Pairwise fun p q => p.1 < q.1) :
    ofMembers ms = .object ms := by
  have hfold : ∀ (ms sorted : Members), (sorted ++ ms).Pairwise (fun p q => p.1 < q.1) →
      ms.foldl (fun acc p => Members.insert p.1 p.2 acc) sorted = sorted ++ ms := by
    -- The members so far are an argument: each new one goes after them.
    intro ms
    induction ms with
    | nil => exact fun sorted _ => (List.append_nil sorted).symm
    | cons p ms ih =>
      obtain ⟨n, v⟩ := p
      intro sorted hsorted
      have hlast : ∀ q ∈ sorted, q.1 < n := fun q hq =>
        (List.pairwise_append.mp hsorted).2.2 q hq (n, v) List.mem_cons_self
      have hsorted' : ((sorted ++ [(n, v)]) ++ ms).Pairwise fun p q => p.1 < q.1 := by
        rwa [List.append_assoc, List.singleton_append]
      rw [List.foldl_cons]
      simp only [insert_last hlast]
      rw [ih _ hsorted', List.append_assoc, List.singleton_append]
  rw [ofMembers, Members.ofList, hfold ms [] h, List.nil_append]

/-! ### The reader -/

/-- The tokens of a value start with none that ends an array. -/
theorem exists_tokens_eq_cons (v : Json) : ∃ t ts, v.tokens = t :: ts ∧ t ≠ .closeBracket := by
  cases v with
  | null | bool | integer | float | string => exact ⟨_, _, rfl, by simp⟩
  | array items => cases items <;> exact ⟨_, _, rfl, by simp⟩
  | object members => cases members <;> exact ⟨_, _, rfl, by simp⟩

theorem step_firstItem {stack : List Frame} {t : Token} (h : t ≠ .closeBracket) :
    Reader.step (.firstItem stack) t = Reader.step (.value (.items [] :: stack)) t := by
  cases t with
  | closeBracket => exact absurd rfl h
  | openBracket | openBrace | closeBrace | comma | colon | string | atom => rfl

/-- Where an item may come first, it is read like any other value. -/
theorem run_firstItem (v : Json) (stack : List Frame) (ts : List Token) :
    (v.tokens ++ ts).foldlM Reader.step (.firstItem stack)
      = (v.tokens ++ ts).foldlM Reader.step (.value (.items [] :: stack)) := by
  obtain ⟨t, rest, htokens, ht⟩ := exists_tokens_eq_cons v
  rw [htokens, List.cons_append, List.foldlM_cons, List.foldlM_cons, step_firstItem ht]

/-- The run over `ts` from a state, if so many brackets may be open at once. -/
def runIfFits (levels : Nat) (s : Reader) (ts : List Token) : Option Reader :=
  if levels ≤ Reader.maxDepth then ts.foldlM Reader.step s else none

/-- Two runs one after the other need the room that each of them needs. -/
theorem runIfFits_trans {a b : Nat} {s s' : Reader} {ts ts' : List Token}
    (h : ts.foldlM Reader.step s = runIfFits b s' ts') :
    runIfFits a s ts = runIfFits (max a b) s' ts' := by
  rw [runIfFits, h, runIfFits, runIfFits]
  by_cases ha : a ≤ Reader.maxDepth
  · rw [if_pos ha]
    by_cases hb : b ≤ Reader.maxDepth
    · rw [if_pos hb, if_pos (Nat.max_le.mpr ⟨ha, hb⟩)]
    · rw [if_neg hb, if_neg fun h => hb (Nat.max_le.mp h).2]
  · rw [if_neg ha, if_neg fun h => ha (Nat.max_le.mp h).1]

theorem run_cons {s s' : Reader} {t : Token} (h : s.step t = some s') (ts : List Token) :
    (t :: ts).foldlM Reader.step s = ts.foldlM Reader.step s' := by
  rw [List.foldlM_cons, h]
  rfl

theorem length_cons_le {stack : List Frame} (h : stack.length < Reader.maxDepth) (f : Frame) :
    (f :: stack).length ≤ Reader.maxDepth :=
  h

theorem step_openBracket {stack : List Frame} (h : stack.length < Reader.maxDepth) :
    Reader.step (.value stack) .openBracket = some (.firstItem stack) :=
  if_pos h

theorem step_openBrace {stack : List Frame} (h : stack.length < Reader.maxDepth) :
    Reader.step (.value stack) .openBrace = some (.firstName stack) :=
  if_pos h

/-- Without room for one more bracket, a value that opens one is refused. -/
theorem run_open {stack : List Frame} (h : ¬stack.length < Reader.maxDepth) {t : Token}
    (ht : t = .openBracket ∨ t = .openBrace) (ts ts' : List Token) (levels : Nat) (s : Reader) :
    (t :: ts).foldlM Reader.step (.value stack)
      = runIfFits (stack.length + (1 + levels)) s ts' := by
  -- The run stops at this bracket, whatever follows.
  have hstep : Reader.step (.value stack) t = none := by
    rcases ht with rfl | rfl
    · exact if_neg h
    · exact if_neg h
  rw [List.foldlM_cons, hstep, runIfFits, if_neg (by omega)]
  rfl

mutual

/-- The tokens of a value deliver the value, if its brackets fit into those that are open. -/
theorem run_tokens : ∀ {v : Json}, v.isWellFormed = true → ∀ {stack : List Frame} {ts : List Token},
    stack.length ≤ Reader.maxDepth →
    (v.tokens ++ ts).foldlM Reader.step (.value stack)
      = runIfFits (stack.length + v.nesting) (Reader.deliver v stack) ts
  | .null, _, stack, ts, hs | .bool _, _, stack, ts, hs | .integer _, _, stack, ts, hs
  | .float _, _, stack, ts, hs | .string _, _, stack, ts, hs => (if_pos hs).symm
  | .array [], _, stack, ts, hs => by
    by_cases hopen : stack.length < Reader.maxDepth
    · rw [tokens, List.cons_append, run_cons (step_openBracket hopen)]
      exact (if_pos hopen).symm
    · rw [tokens]
      -- The bracket alone is too deep, whatever stands behind it.
      exact run_open hopen (Or.inl rfl) _ _ 0 _
  | .object [], _, stack, ts, hs => by
    by_cases hopen : stack.length < Reader.maxDepth
    · rw [tokens, List.cons_append, run_cons (step_openBrace hopen)]
      exact (if_pos hopen).symm
    · rw [tokens]
      exact run_open hopen (Or.inr rfl) _ _ 0 _
  | .array (v :: vs), hw, stack, ts, hs => by
    obtain ⟨hv, hvs⟩ := Bool.and_eq_true_iff.mp hw
    rw [tokens, nesting]
    simp only [List.cons_append, List.append_assoc]
    by_cases hopen : stack.length < Reader.maxDepth
    -- The first item and the others stand one bracket deeper; the deepest of them decides.
    · have hlevels : max (stack.length + 1 + v.nesting) (stack.length + 1 + nestingOf vs)
          = stack.length + (1 + nestingOf (v :: vs)) := by
        rw [nestingOf]
        omega
      rw [run_cons (step_openBracket hopen), run_firstItem,
        run_tokens hv (length_cons_le hopen _), Reader.deliver,
        runIfFits_trans (run_itemTokens hvs hopen)]
      exact congrArg (runIfFits · _ ts) hlevels
    · exact run_open hopen (Or.inl rfl) _ _ _ _
  | .object ((n, v) :: ms), hw, stack, ts, hs => by
    obtain ⟨hsorted, -⟩ := isWellFormed_object.mp hw
    obtain ⟨hv, hms⟩ := Bool.and_eq_true_iff.mp (Bool.and_eq_true_iff.mp hw).2
    rw [tokens, nesting]
    simp only [List.cons_append, List.append_assoc]
    by_cases hopen : stack.length < Reader.maxDepth
    · have hlevels : max (stack.length + 1 + v.nesting) (stack.length + 1 + nestingOfMembers ms)
          = stack.length + (1 + nestingOfMembers ((n, v) :: ms)) := by
        rw [nestingOfMembers]
        omega
      -- After the brace come the name and the colon, and then the value like an item.
      rw [run_cons (step_openBrace hopen), run_cons rfl, run_cons rfl,
        run_tokens hv (length_cons_le hopen _), Reader.deliver,
        runIfFits_trans (run_memberTokens hms hopen), List.reverse_singleton, List.singleton_append,
        ofMembers_of_sorted hsorted]
      exact congrArg (runIfFits · _ ts) hlevels
    · exact run_open hopen (Or.inr rfl) _ _ _ _

theorem run_itemTokens : ∀ {vs : List Json}, areWellFormed vs = true →
    ∀ {before : List Json} {stack : List Frame} {ts : List Token},
    stack.length < Reader.maxDepth →
    (itemTokens vs ++ ts).foldlM Reader.step (.afterItem before stack)
      = runIfFits (stack.length + 1 + nestingOf vs)
          (Reader.deliver (.array (before.reverse ++ vs)) stack) ts
  | [], _, before, stack, ts, hs => by
    rw [List.append_nil]
    exact (if_pos hs).symm
  | v :: vs, hw, before, stack, ts, hs => by
    obtain ⟨hv, hvs⟩ := Bool.and_eq_true_iff.mp hw
    have hlevels : max (stack.length + 1 + v.nesting) (stack.length + 1 + nestingOf vs)
        = stack.length + 1 + nestingOf (v :: vs) := by
      rw [nestingOf]
      omega
    have hitems : (v :: before).reverse ++ vs = before.reverse ++ v :: vs := by simp
    rw [itemTokens]
    simp only [List.cons_append, List.append_assoc]
    rw [run_cons rfl, run_tokens hv (length_cons_le hs _), Reader.deliver,
      runIfFits_trans (run_itemTokens hvs hs), hitems]
    exact congrArg (runIfFits · _ ts) hlevels

theorem run_memberTokens : ∀ {ms : List (String × Json)}, membersWellFormed ms = true →
    ∀ {before : List (String × Json)} {stack : List Frame} {ts : List Token},
    stack.length < Reader.maxDepth →
    (memberTokens ms ++ ts).foldlM Reader.step (.afterMember before stack)
      = runIfFits (stack.length + 1 + nestingOfMembers ms)
          (Reader.deliver (ofMembers (before.reverse ++ ms)) stack) ts
  | [], _, before, stack, ts, hs => by
    rw [List.append_nil]
    exact (if_pos hs).symm
  | (n, v) :: ms, hw, before, stack, ts, hs => by
    obtain ⟨hv, hms⟩ := Bool.and_eq_true_iff.mp hw
    have hlevels : max (stack.length + 1 + v.nesting) (stack.length + 1 + nestingOfMembers ms)
        = stack.length + 1 + nestingOfMembers ((n, v) :: ms) := by
      rw [nestingOfMembers]
      omega
    have hmembers : ((n, v) :: before).reverse ++ ms = before.reverse ++ (n, v) :: ms := by simp
    rw [memberTokens]
    simp only [List.cons_append, List.append_assoc]
    rw [run_cons rfl, run_cons rfl, run_cons rfl, run_tokens hv (length_cons_le hs _), Reader.deliver,
      runIfFits_trans (run_memberTokens hms hs), hmembers]
    exact congrArg (runIfFits · _ ts) hlevels

end

/-- A well-formed value is read back from its text, or refused for its nesting alone. -/
theorem read?_text {v : Json} (h : v.isWellFormed = true) :
    read? v.text = if v.nesting ≤ Reader.maxDepth then some v else none := by
  have hends : EndsValue [] := fun c hc => by simp at hc
  have htokens : tokens? v.chars = some v.tokens := by
    have hchars := tokens?_chars h hends
    rwa [List.append_nil, tokens?, Option.map_some, List.append_nil] at hchars
  have hrun : (v.tokens ++ []).foldlM Reader.step (.value [])
      = runIfFits (0 + v.nesting) (Reader.deliver v []) [] := run_tokens h (Nat.zero_le _)
  rw [List.append_nil, Nat.zero_add, runIfFits] at hrun
  rw [read?, text, String.toList_ofList, readChars?, htokens]
  simp only [hrun]
  by_cases hfits : v.nesting ≤ Reader.maxDepth
  · rw [if_pos hfits, if_pos hfits]
    rfl
  · rw [if_neg hfits, if_neg hfits]

theorem eq_of_read?_text {v w : Json} (h : v.isWellFormed = true) (hw : read? v.text = some w) :
    w = v := by
  rw [read?_text h] at hw
  split at hw
  · exact (Option.some.inj hw).symm
  · simp at hw

end ListQuery.Json
