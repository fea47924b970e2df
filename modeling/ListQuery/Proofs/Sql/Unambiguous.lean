/-
No text is two conditions.

* `Derives.balanced` — the parentheses of a condition match;
* `eq_of_split` — tokens are split in one way at a connective outside parentheses with no other after it;
* `Derives.eq` — tokens derive at most one condition;
* `Derives.surplus_eq_zero` — a condition has two names for each dot.

Design notes: each connective is free in the conditions looser than it and not in tighter ones.  This is
all that is needed of precedence, so nothing is said here about how a reader would go about it.
-/
import ListQuery.Proofs.Sql.Grammar

namespace ListQuery.Sql

variable {ts us : List Token} {k : Keyword}

/-! ### Parentheses -/

/-- What a token adds to the number of open parentheses. -/
def Token.depth : Token → Int
  | .openParen => 1
  | .closeParen => -1
  | _ => 0

/-- The parentheses that some tokens leave open. -/
def net : List Token → Int
  | [] => 0
  | t :: ts => t.depth + net ts

@[simp] theorem net_nil : net [] = 0 :=
  rfl

@[simp] theorem net_cons (t : Token) (ts : List Token) : net (t :: ts) = t.depth + net ts :=
  rfl

@[simp] theorem net_append (ts us : List Token) : net (ts ++ us) = net ts + net us := by
  induction ts with
  | nil => rw [List.nil_append, net_nil, Int.zero_add]
  | cons t ts ih => rw [List.cons_append, net_cons, net_cons, ih, Int.add_assoc]

/-- Tokens whose parentheses match. -/
structure Balanced (ts : List Token) : Prop where
  /-- No parenthesis is closed before it is opened. -/
  sane : ∀ a b, ts = a ++ b → 0 ≤ net a
  /-- At the end none is open. -/
  settled : net ts = 0

/-- A token list without parentheses. -/
def Flat (ts : List Token) : Prop :=
  ∀ t ∈ ts, t.depth = 0

theorem Flat.net_eq_zero (h : Flat ts) : net ts = 0 := by
  induction ts with
  | nil => rfl
  | cons t ts ih =>
    obtain ⟨ht, hts⟩ := List.forall_mem_cons.mp h
    rw [net_cons, ht, ih hts, Int.zero_add]

theorem Flat.balanced (h : Flat ts) : Balanced ts where
  sane := by
    intro a b hab
    have ha : Flat a := fun t ht => h t (by simp [hab, ht])
    exact Int.le_of_eq ha.net_eq_zero.symm
  settled := h.net_eq_zero

theorem Balanced.append (h : Balanced ts) (h' : Balanced us) : Balanced (ts ++ us) where
  sane := by
    intro a b hab
    rcases List.append_eq_append_iff.mp hab with ⟨c, rfl, hc⟩ | ⟨c, hc, rfl⟩
    · rw [net_append, h.settled, Int.zero_add]
      exact h'.sane c b hc
    · exact h.sane a c hc
  settled := by
    rw [net_append, h.settled, h'.settled]
    rfl

/-- What stands before a place inside parentheses leaves one open. -/
theorem Balanced.net_pos_of_paren (h : Balanced ts) {a b : List Token} (ha : a ≠ []) (hb : b ≠ [])
    (hab : .openParen :: (ts ++ [.closeParen]) = a ++ b) : 0 < net a := by
  cases a with
  | nil => exact absurd rfl ha
  | cons t a =>
    obtain ⟨rfl, htail⟩ := List.cons.inj hab
    -- What is left of `a` ends inside the parentheses, as `b` holds the closing one.
    have hle : 0 ≤ net a := by
      rcases List.append_eq_append_iff.mp htail with ⟨c, rfl, hc⟩ | ⟨c, hc, -⟩
      · cases c with
        | nil => exact h.sane _ [] (by simp)
        | cons t c =>
          obtain ⟨-, hnil⟩ := List.cons.inj hc
          exact absurd (List.append_eq_nil_iff.mp hnil.symm).2 hb
      · exact h.sane a c hc
    rw [net_cons]
    show 0 < 1 + net a
    omega

theorem Balanced.paren (h : Balanced ts) : Balanced (.openParen :: (ts ++ [.closeParen])) where
  sane := by
    intro a b hab
    by_cases ha : a = []
    · obtain rfl := ha
      exact Int.le_refl 0
    · by_cases hb : b = []
      · rw [hb, List.append_nil] at hab
        rw [← hab]
        simp [h.settled, Token.depth]
      · exact Int.le_of_lt (h.net_pos_of_paren ha hb hab)
  settled := by
    simp [h.settled, Token.depth]

/-! ### Connectives outside parentheses -/

/-- Whether a keyword never stands outside parentheses. -/
def Free (k : Keyword) (ts : List Token) : Prop :=
  ∀ a b, ts = a ++ .keyword k :: b → net a ≠ 0

theorem free_of_not_mem (h : .keyword k ∉ ts) : Free k ts := by
  intro a b hab
  exact absurd (by simp [hab]) h

theorem Balanced.free_paren (h : Balanced ts) : Free k (.openParen :: (ts ++ [.closeParen])) := by
  intro a b hab
  have ha : a ≠ [] := by
    rintro rfl
    simp at hab
  have hpos := h.net_pos_of_paren ha (by simp) hab
  omega

theorem Free.cons {t : Token} (h : Free k ts) (ht : t ≠ .keyword k) (hdepth : t.depth = 0) :
    Free k (t :: ts) := by
  intro a b hab
  cases a with
  | nil => exact absurd (List.cons.inj hab).1 ht
  | cons t' a =>
    obtain ⟨rfl, htail⟩ := List.cons.inj hab
    rw [net_cons, hdepth, Int.zero_add]
    exact h a b htail

theorem Free.append (h : Free k ts) (hnet : net ts = 0) (h' : Free k us) : Free k (ts ++ us) := by
  intro a b hab
  rcases List.append_eq_append_iff.mp hab with ⟨c, rfl, hc⟩ | ⟨c, hc, hc'⟩
  · rw [net_append, hnet, Int.zero_add]
    exact h' c b hc
  · cases c with
    | nil => exact absurd rfl (h' [] b hc'.symm)
    | cons t c =>
      obtain ⟨rfl, -⟩ := List.cons.inj hc'
      exact h a c hc

/-- Tokens are split in one way at a keyword outside parentheses that has no other after it. -/
theorem eq_of_split {a b a' b' : List Token} (h : a ++ .keyword k :: b = a' ++ .keyword k :: b')
    (ha : net a = 0) (ha' : net a' = 0) (hb : Free k b) (hb' : Free k b') : a = a' ∧ b = b' := by
  -- If one side were longer, its keyword would stand in what follows the other's.
  rcases List.append_eq_append_iff.mp h with ⟨c, rfl, hc⟩ | ⟨c, rfl, hc⟩
  · cases c with
    | nil => simpa using hc
    | cons t c =>
      obtain ⟨rfl, hsplit⟩ := List.cons.inj hc
      refine absurd ?_ (hb c b' hsplit)
      simpa [ha, Token.depth] using ha'
  · cases c with
    | nil => simpa [eq_comm] using hc
    | cons t c =>
      obtain ⟨rfl, hsplit⟩ := List.cons.inj hc
      refine absurd ?_ (hb' c b hsplit)
      simpa [ha', Token.depth] using ha

/-! ### Conditions -/

theorem flat_operand (o : Operand) : Flat o.tokens := by
  intro t ht
  cases o with
  | column c =>
    simp only [Operand.tokens, List.mem_cons, List.not_mem_nil, or_false] at ht
    rcases ht with rfl | rfl | rfl <;> rfl
  | param number =>
    obtain rfl := List.mem_singleton.mp ht
    rfl

theorem keyword_not_mem_operand (o : Operand) : .keyword k ∉ o.tokens := by
  cases o <;> simp [Operand.tokens]

/-- A list is flat up to the parenthesis that ends it. -/
theorem exists_listTokens (os : List Operand) :
    ∃ inner, listTokens os = inner ++ [.closeParen] ∧ Flat inner ∧ ∀ k, .keyword k ∉ inner := by
  induction os with
  | nil => exact ⟨[], rfl, List.forall_mem_nil _, fun _ => List.not_mem_nil⟩
  | cons o os ih =>
    obtain ⟨inner, hinner, hflat, hkeyword⟩ := ih
    refine ⟨.comma :: (o.tokens ++ inner), ?_, ?_, ?_⟩
    · rw [listTokens, hinner, List.cons_append, List.append_assoc]
    · intro t ht
      rcases List.mem_cons.mp ht with rfl | ht
      · rfl
      · exact (List.mem_append.mp ht).elim (flat_operand o t) (hflat t)
    · intro k hk
      rcases List.mem_append.mp ((List.mem_cons.mp hk).resolve_left (by simp)) with hk | hk
      · exact keyword_not_mem_operand o hk
      · exact hkeyword k hk

theorem flat_cons {t : Token} (ht : t.depth = 0) (h : Flat ts) : Flat (t :: ts) :=
  List.forall_mem_cons.mpr ⟨ht, h⟩

theorem flat_append (h : Flat ts) (h' : Flat us) : Flat (ts ++ us) :=
  List.forall_mem_append.mpr ⟨h, h'⟩

theorem flat_nullTokens (negated : Bool) : Flat (nullTokens negated) := by
  cases negated <;> simp [nullTokens, Flat, Token.depth]

theorem flat_escapeTokens (escape? : Option String) : Flat (escapeTokens escape?) := by
  cases escape? <;> simp [escapeTokens, Flat, Token.depth]

theorem balanced_check (c : Check) : Balanced c.tokens := by
  cases c with
  | compare op right => exact (flat_cons rfl (flat_operand right)).balanced
  | null negated => exact (flat_cons rfl (flat_nullTokens negated)).balanced
  | like pattern escape? =>
    exact (flat_cons rfl (flat_append (flat_operand pattern) (flat_escapeTokens escape?))).balanced
  | oneOf first more =>
    obtain ⟨inner, hinner, hflat, -⟩ := exists_listTokens more
    have hin : Flat [.keyword .in] := by simp [Flat, Token.depth]
    have hlist := (flat_append (flat_operand first) hflat).balanced.paren
    rw [Check.tokens, hinner, ← List.append_assoc]
    exact hin.balanced.append hlist

/-- A check holds no connective of conditions. -/
theorem connective_not_mem_check (c : Check) (hk : k = .and ∨ k = .or) : .keyword k ∉ c.tokens := by
  have hother : k ≠ .is ∧ k ≠ .not ∧ k ≠ .null ∧ k ≠ .like ∧ k ≠ .escape ∧ k ≠ .in := by
    rcases hk with rfl | rfl <;> decide
  obtain ⟨his, hnot, hnull, hlike, hescape, hin⟩ := hother
  cases c with
  | compare op right => simp [Check.tokens, keyword_not_mem_operand]
  | null negated => cases negated <;> simp [Check.tokens, nullTokens, his, hnot, hnull]
  | like pattern escape? =>
    cases escape? <;>
      simp [Check.tokens, escapeTokens, keyword_not_mem_operand, hlike, hescape]
  | oneOf first more =>
    obtain ⟨inner, hinner, -, hkeyword⟩ := exists_listTokens more
    simp [Check.tokens, hinner, hkeyword, keyword_not_mem_operand, hin]

theorem Derives.balanced {l : Level} {e : Expr} (h : Derives l ts e) : Balanced ts := by
  induction h with
  | truth b => exact Flat.balanced (by simp [Flat, Token.depth])
  | test o c => exact (flat_operand o).balanced.append (balanced_check c)
  | paren h ih => exact ih.paren
  | primary h ih => exact ih
  | not h ih =>
    have hnot : Flat [.keyword .not] := by simp [Flat, Token.depth]
    exact hnot.balanced.append ih
  | factor h ih => exact ih
  | conjunction h ih => exact ih
  | and h h' ih ih' | or h h' ih ih' =>
    rw [← List.singleton_append, ← List.append_assoc]
    exact (ih.append (Flat.balanced (by simp [Flat, Token.depth]))).append ih'

/-- Whether the conditions of a level may hold a connective outside parentheses. -/
def Level.Holds : Level → Keyword → Prop
  | .disjunction, k => k = .and ∨ k = .or
  | .conjunction, k => k = .and
  | _, _ => False

/-- A connective outside parentheses is none of a looser level. -/
theorem Derives.free {l : Level} {e : Expr} (h : Derives l ts e) (hk : k = .and ∨ k = .or)
    (hl : ¬l.Holds k) : Free k ts := by
  induction h with
  | truth b =>
    rcases hk with rfl | rfl <;> cases b <;>
      exact free_of_not_mem (by simp [Keyword.ofBool])
  | test o c =>
    refine free_of_not_mem fun hmem => ?_
    rcases List.mem_append.mp hmem with hmem | hmem
    · exact keyword_not_mem_operand o hmem
    · exact connective_not_mem_check c hk hmem
  | paren h ih =>
    -- Whatever stands inside is enclosed, so it does not matter what is known of it.
    exact h.balanced.free_paren
  | primary h ih => exact ih hl
  | not h ih =>
    refine (ih hl).cons ?_ rfl
    rcases hk with rfl | rfl <;> simp
  | factor h ih => exact ih (fun h => h)
  | and h h' ih ih' =>
    refine (ih hl).append h.balanced.settled ((ih' fun h => h).cons ?_ rfl)
    rintro he
    exact hl (Token.keyword.inj he).symm
  | conjunction h ih => exact ih fun h => hl (Or.inl h)
  | or h h' ih ih' => exact absurd hk hl

/-! ### Tests -/

/-- An operand says itself where it ends. -/
theorem Operand.eq_of_append {o o' : Operand} (h : o.tokens ++ ts = o'.tokens ++ us) :
    o = o' ∧ ts = us := by
  cases o with
  | column c =>
    cases o' with
    | column c' =>
      obtain ⟨table, name⟩ := c
      obtain ⟨table', name'⟩ := c'
      simp only [tokens, List.cons_append, List.nil_append, List.cons.injEq, Token.name.injEq,
        true_and] at h
      obtain ⟨rfl, rfl, hrest⟩ := h
      exact ⟨rfl, hrest⟩
    | param number => simp [tokens] at h
  | param number =>
    cases o' with
    | column c' => simp [tokens] at h
    | param number' =>
      simp only [tokens, List.cons_append, List.nil_append, List.cons.injEq, Token.param.injEq] at h
      obtain ⟨rfl, hrest⟩ := h
      exact ⟨rfl, hrest⟩

theorem Operand.eq_of_tokens_eq {o o' : Operand} (h : o.tokens = o'.tokens) : o = o' :=
  (Operand.eq_of_append (congrArg (· ++ []) h)).1

theorem eq_of_listTokens_eq {os os' : List Operand} (h : listTokens os = listTokens os') :
    os = os' := by
  induction os generalizing os' with
  | nil =>
    cases os' with
    | nil => rfl
    | cons o' os' => simp [listTokens] at h
  | cons o os ih =>
    cases os' with
    | nil => simp [listTokens] at h
    | cons o' os' =>
      obtain ⟨rfl, htail⟩ := Operand.eq_of_append (List.cons.inj h).2
      rw [ih htail]

theorem Check.eq_of_tokens_eq {c c' : Check} (h : c.tokens = c'.tokens) : c = c' := by
  cases c <;> cases c' <;> simp only [tokens, List.cons.injEq, reduceCtorEq, Token.sign.injEq,
    Token.keyword.injEq, false_and, true_and] at h
  case compare.compare op right op' right' =>
    obtain ⟨rfl, hright⟩ := h
    rw [Operand.eq_of_tokens_eq hright]
  case null.null negated negated' =>
    cases negated <;> cases negated' <;> simp [nullTokens] at h ⊢
  case like.like pattern escape? pattern' escape?' =>
    obtain ⟨rfl, hescape⟩ := Operand.eq_of_append h
    cases escape? <;> cases escape?' <;> simp_all [escapeTokens]
  case oneOf.oneOf first more first' more' =>
    obtain ⟨rfl, hmore⟩ := Operand.eq_of_append h
    rw [eq_of_listTokens_eq hmore]

/-- An operand starts with no token that starts anything else. -/
theorem exists_operand_eq_cons (o : Operand) :
    ∃ t ts, o.tokens = t :: ts ∧ t ≠ .openParen ∧ ∀ k, t ≠ .keyword k := by
  cases o with
  | column c => exact ⟨_, _, rfl, by simp, by simp⟩
  | param number => exact ⟨_, _, rfl, by simp, by simp⟩

/-! ### One condition -/

theorem primary_cases {e : Expr} (h : Derives .primary ts e) :
    (∃ b, ts = [.keyword (.ofBool b)] ∧ e = .truth b)
      ∨ (∃ o c, ts = o.tokens ++ c.tokens ∧ e = .test o c)
      ∨ ∃ us, ts = .openParen :: (us ++ [.closeParen]) ∧ Derives .disjunction us e := by
  cases h with
  | truth b => exact Or.inl ⟨b, rfl, rfl⟩
  | test o c => exact Or.inr (Or.inl ⟨o, c, rfl, rfl⟩)
  | paren h => exact Or.inr (Or.inr ⟨_, rfl, h⟩)

theorem factor_cases {e : Expr} (h : Derives .factor ts e) :
    Derives .primary ts e
      ∨ ∃ us f, ts = .keyword .not :: us ∧ e = .not f ∧ Derives .factor us f := by
  cases h with
  | primary h => exact Or.inl h
  | not h => exact Or.inr ⟨_, _, rfl, rfl, h⟩

theorem conjunction_cases {e : Expr} (h : Derives .conjunction ts e) :
    Derives .factor ts e
      ∨ ∃ us vs f g, ts = us ++ .keyword .and :: vs ∧ e = .and f g
          ∧ Derives .conjunction us f ∧ Derives .factor vs g := by
  cases h with
  | factor h => exact Or.inl h
  | and h h' => exact Or.inr ⟨_, _, _, _, rfl, rfl, h, h'⟩

theorem disjunction_cases {e : Expr} (h : Derives .disjunction ts e) :
    Derives .conjunction ts e
      ∨ ∃ us vs f g, ts = us ++ .keyword .or :: vs ∧ e = .or f g
          ∧ Derives .disjunction us f ∧ Derives .conjunction vs g := by
  cases h with
  | conjunction h => exact Or.inl h
  | or h h' => exact Or.inr ⟨_, _, _, _, rfl, rfl, h, h'⟩

/-- No primary starts with `NOT`. -/
theorem not_primary_not {e : Expr} : ¬Derives .primary (.keyword .not :: ts) e := by
  intro h
  rcases primary_cases h with ⟨b, hb, -⟩ | ⟨o, c, hoc, -⟩ | ⟨us, hus, -⟩
  · cases b <;> simp [Keyword.ofBool] at hb
  · obtain ⟨t, us, ho, -, hkeyword⟩ := exists_operand_eq_cons o
    rw [ho] at hoc
    exact hkeyword .not (List.cons.inj hoc).1.symm
  · simp at hus

/-- Tokens derive at most one condition of a level. -/
theorem Derives.eq {l : Level} {e e' : Expr} (h : Derives l ts e) (h' : Derives l ts e') :
    e = e' := by
  induction h generalizing e' with
  | truth b =>
    rcases primary_cases h' with ⟨b', hb, rfl⟩ | ⟨o, c, hoc, -⟩ | ⟨us, hus, -⟩
    · cases b <;> cases b' <;> simp_all [Keyword.ofBool]
    · obtain ⟨t, us, ho, -, hkeyword⟩ := exists_operand_eq_cons o
      rw [ho] at hoc
      exact absurd (List.cons.inj hoc).1.symm (hkeyword _)
    · simp at hus
  | test o c =>
    obtain ⟨t, us, ho, hopen, hkeyword⟩ := exists_operand_eq_cons o
    rcases primary_cases h' with ⟨b', hb, rfl⟩ | ⟨o', c', hoc, rfl⟩ | ⟨us, hus, -⟩
    · rw [ho] at hb
      exact absurd (List.cons.inj hb).1 (hkeyword _)
    · obtain ⟨rfl, hc⟩ := Operand.eq_of_append hoc
      rw [Check.eq_of_tokens_eq hc]
    · rw [ho] at hus
      exact absurd (List.cons.inj hus).1 hopen
  | paren h ih =>
    rcases primary_cases h' with ⟨b', hb, rfl⟩ | ⟨o, c, hoc, -⟩ | ⟨us, hus, hd⟩
    · simp at hb
    · obtain ⟨t, us, ho, hopen, -⟩ := exists_operand_eq_cons o
      rw [ho] at hoc
      exact absurd (List.cons.inj hoc).1.symm hopen
    · obtain rfl := List.append_cancel_right (List.cons.inj hus).2
      exact ih hd
  | primary h ih =>
    rcases factor_cases h' with hp | ⟨us, f, rfl, rfl, hf⟩
    · exact ih hp
    · exact absurd h not_primary_not
  | not h ih =>
    rcases factor_cases h' with hp | ⟨us, f, hus, rfl, hf⟩
    · exact absurd hp not_primary_not
    · obtain rfl := (List.cons.inj hus).2
      rw [ih hf]
  | factor h ih =>
    rcases conjunction_cases h' with hf | ⟨us, vs, f, g, rfl, rfl, hf, hg⟩
    · exact ih hf
    · -- A factor holds no `AND` outside parentheses, and this one would.
      exact absurd hf.balanced.settled (h.free (Or.inl rfl) (fun h => h) us vs rfl)
  | and h₁ h₂ ih₁ ih₂ =>
    rcases conjunction_cases h' with hf | ⟨us, vs, f, g, hsplit, rfl, hf, hg⟩
    · exact absurd h₁.balanced.settled (hf.free (Or.inl rfl) (fun h => h) _ _ rfl)
    · obtain ⟨rfl, rfl⟩ := eq_of_split hsplit h₁.balanced.settled hf.balanced.settled
        (h₂.free (Or.inl rfl) fun h => h) (hg.free (Or.inl rfl) fun h => h)
      rw [ih₁ hf, ih₂ hg]
  | conjunction h ih =>
    rcases disjunction_cases h' with hc | ⟨us, vs, f, g, rfl, rfl, hf, hg⟩
    · exact ih hc
    · exact absurd hf.balanced.settled (h.free (Or.inr rfl) (by simp [Level.Holds]) us vs rfl)
  | or h₁ h₂ ih₁ ih₂ =>
    -- The right sides are conjunctions, so neither `OR` is followed by another one.
    rcases disjunction_cases h' with hc | ⟨us, vs, f, g, hsplit, rfl, hf, hg⟩
    · exact absurd h₁.balanced.settled (hc.free (Or.inr rfl) (by simp [Level.Holds]) _ _ rfl)
    · obtain ⟨rfl, rfl⟩ := eq_of_split hsplit h₁.balanced.settled hf.balanced.settled
        (h₂.free (Or.inr rfl) (by simp [Level.Holds])) (hg.free (Or.inr rfl) (by simp [Level.Holds]))
      rw [ih₁ hf, ih₂ hg]

/-! ### Names and dots -/

/-- A name is worth one, and a dot takes two. -/
def Token.surplus : Token → Int
  | .name _ => 1
  | .dot => -2
  | _ => 0

/-- How many names some tokens have more than twice their dots. -/
def surplus : List Token → Int
  | [] => 0
  | t :: ts => t.surplus + surplus ts

@[simp] theorem surplus_nil : surplus [] = 0 :=
  rfl

@[simp] theorem surplus_cons (t : Token) (ts : List Token) :
    surplus (t :: ts) = t.surplus + surplus ts :=
  rfl

@[simp] theorem surplus_append (ts us : List Token) :
    surplus (ts ++ us) = surplus ts + surplus us := by
  induction ts with
  | nil => rw [List.nil_append, surplus_nil, Int.zero_add]
  | cons t ts ih => rw [List.cons_append, surplus_cons, surplus_cons, ih, Int.add_assoc]

@[simp] theorem surplus_operand (o : Operand) : surplus o.tokens = 0 := by
  cases o <;> rfl

theorem surplus_listTokens (os : List Operand) : surplus (listTokens os) = 0 := by
  induction os with
  | nil => rfl
  | cons o os ih => simp [listTokens, ih, Token.surplus]

theorem surplus_check (c : Check) : surplus c.tokens = 0 := by
  cases c with
  | compare op right => simp [Check.tokens, Token.surplus]
  | null negated => cases negated <;> rfl
  | like pattern escape? => cases escape? <;> simp [Check.tokens, escapeTokens, Token.surplus]
  | oneOf first more => simp [Check.tokens, surplus_listTokens, Token.surplus]

/-- In a condition each dot stands between the two names of a column. -/
theorem Derives.surplus_eq_zero {l : Level} {e : Expr} (h : Derives l ts e) : surplus ts = 0 := by
  induction h with
  | truth b => simp [Token.surplus]
  | test o c => rw [surplus_append, surplus_operand, surplus_check]; rfl
  | paren h ih => simp [ih, Token.surplus]
  | primary h ih | factor h ih | conjunction h ih => exact ih
  | not h ih => simp [ih, Token.surplus]
  | and h h' ih ih' | or h h' ih ih' => simp [ih, ih', Token.surplus]

end ListQuery.Sql
