/-
Steps that may fail, taken one after the other.

A chain succeeds when each of its steps does, and fails as the first step that fails:

* `bind_eq_ok_iff`, `map_eq_ok_iff`, `bind_eq_error_iff` and `map_eq_error_iff` — two steps, the second
  one using what the first gave;
* `mapM_eq_ok_of_forall`, `exists_of_mem_mapM`, `exists_mapM_eq_ok_iff`, `mapM_eq_error`,
  `exists_of_mapM_eq_error`, `mapM_flatMap_eq_ok`, `length_of_mapM`, `map_of_mapM`, `forM_eq_ok_iff` and
  `exists_of_forM_eq_error` — one step for each member of a list;
* `Alike` — two chains that end in results or in errors which correspond to each other; `Alike.bind`,
  `Alike.mapM` and `Alike.mapM_middle` for chains whose steps do.
-/
namespace ListQuery

variable {ε α β : Type}

theorem bind_eq_ok_iff {x : Except ε α} {f : α → Except ε β} {b : β} :
    (x >>= f) = .ok b ↔ ∃ a, x = .ok a ∧ f a = .ok b := by
  cases x <;> simp [bind, Except.bind]

theorem map_eq_ok_iff {x : Except ε α} {f : α → β} {b : β} :
    x.map f = .ok b ↔ ∃ a, x = .ok a ∧ f a = b := by
  cases x <;> simp [Except.map]

theorem bind_eq_error_iff {x : Except ε α} {f : α → Except ε β} {e : ε} :
    (x >>= f) = .error e ↔ x = .error e ∨ ∃ a, x = .ok a ∧ f a = .error e := by
  cases x <;> simp [bind, Except.bind]

theorem map_eq_error_iff {x : Except ε α} {f : α → β} {e : ε} :
    x.map f = .error e ↔ x = .error e := by
  cases x <;> simp [Except.map]

theorem pure_eq_ok_iff {a b : α} : (pure a : Except ε α) = .ok b ↔ a = b := by
  simp [pure, Except.pure]

theorem mapM_cons_eq_ok_iff {f : α → Except ε β} {a : α} {as : List α} {bs : List β} :
    (a :: as).mapM f = .ok bs ↔ ∃ b rest, f a = .ok b ∧ as.mapM f = .ok rest ∧ bs = b :: rest := by
  rw [List.mapM_cons, bind_eq_ok_iff]
  constructor
  · rintro ⟨b, hb, h⟩
    obtain ⟨rest, hrest, h⟩ := bind_eq_ok_iff.mp h
    exact ⟨b, rest, hb, hrest, (pure_eq_ok_iff.mp h).symm⟩
  · rintro ⟨b, rest, hb, hrest, rfl⟩
    exact ⟨b, hb, bind_eq_ok_iff.mpr ⟨rest, hrest, rfl⟩⟩

theorem mapM_nil_eq_ok_iff {f : α → Except ε β} {bs : List β} :
    [].mapM f = .ok bs ↔ bs = [] := by
  rw [List.mapM_nil, pure_eq_ok_iff, eq_comm]

theorem mapM_eq_ok_of_forall {f : α → Except ε β} {g : α → β} {as : List α}
    (h : ∀ a ∈ as, f a = .ok (g a)) : as.mapM f = .ok (as.map g) := by
  induction as with
  | nil => rfl
  | cons a as ih =>
    obtain ⟨ha, has⟩ := List.forall_mem_cons.mp h
    exact mapM_cons_eq_ok_iff.mpr ⟨g a, as.map g, ha, ih has, rfl⟩

theorem exists_of_mem_mapM {f : α → Except ε β} {as : List α} {bs : List β}
    (h : as.mapM f = .ok bs) {b : β} (hb : b ∈ bs) : ∃ a ∈ as, f a = .ok b := by
  induction as generalizing bs with
  | nil =>
    rw [mapM_nil_eq_ok_iff.mp h] at hb
    exact absurd hb List.not_mem_nil
  | cons a as ih =>
    obtain ⟨c, rest, hc, hrest, rfl⟩ := mapM_cons_eq_ok_iff.mp h
    rcases List.mem_cons.mp hb with rfl | hb
    · exact ⟨a, List.mem_cons_self, hc⟩
    · obtain ⟨a', ha', hf⟩ := ih hrest hb
      exact ⟨a', List.mem_cons_of_mem _ ha', hf⟩

theorem exists_of_mapM_of_mem {f : α → Except ε β} {as : List α} {bs : List β}
    (h : as.mapM f = .ok bs) {a : α} (ha : a ∈ as) : ∃ b, f a = .ok b := by
  induction as generalizing bs with
  | nil => exact absurd ha List.not_mem_nil
  | cons c as ih =>
    obtain ⟨b, rest, hb, hrest, -⟩ := mapM_cons_eq_ok_iff.mp h
    rcases List.mem_cons.mp ha with rfl | ha
    · exact ⟨b, hb⟩
    · exact ih hrest ha

theorem exists_mapM_eq_ok_iff {f : α → Except ε β} {as : List α} :
    (∃ bs, as.mapM f = .ok bs) ↔ ∀ a ∈ as, ∃ b, f a = .ok b := by
  constructor
  · rintro ⟨bs, h⟩ a ha
    exact exists_of_mapM_of_mem h ha
  · intro h
    induction as with
    | nil => exact ⟨[], rfl⟩
    | cons a as ih =>
      obtain ⟨⟨b, hb⟩, has⟩ := List.forall_mem_cons.mp h
      obtain ⟨bs, hbs⟩ := ih has
      exact ⟨b :: bs, mapM_cons_eq_ok_iff.mpr ⟨b, bs, hb, hbs, rfl⟩⟩

/-- The first step that fails is how the chain fails. -/
theorem mapM_eq_error {f : α → Except ε β} {before : List α} {a : α} {e : ε}
    (hbefore : ∀ b ∈ before, ∃ c, f b = .ok c) (ha : f a = .error e) (after : List α) :
    (before ++ a :: after).mapM f = .error e := by
  induction before with
  | nil =>
    rw [List.nil_append, List.mapM_cons, ha]
    rfl
  | cons b before ih =>
    obtain ⟨⟨c, hc⟩, hrest⟩ := List.forall_mem_cons.mp hbefore
    rw [List.cons_append, List.mapM_cons, hc, ih hrest]
    rfl

theorem exists_of_mapM_eq_error {f : α → Except ε β} {as : List α} {e : ε}
    (h : as.mapM f = .error e) : ∃ a ∈ as, f a = .error e := by
  induction as with
  | nil => simp [pure, Except.pure] at h
  | cons a as ih =>
    rw [List.mapM_cons] at h
    rcases bind_eq_error_iff.mp h with ha | ⟨b, -, h⟩
    · exact ⟨a, List.mem_cons_self, ha⟩
    · rcases bind_eq_error_iff.mp h with hrest | ⟨bs, -, h⟩
      · obtain ⟨a', ha', hf⟩ := ih hrest
        exact ⟨a', List.mem_cons_of_mem _ ha', hf⟩
      · simp [pure, Except.pure] at h

theorem mapM_eq_ok_mono {f g : α → Except ε β} (hfg : ∀ a b, f a = .ok b → g a = .ok b) {as : List α}
    {bs : List β} (h : as.mapM f = .ok bs) : as.mapM g = .ok bs := by
  induction as generalizing bs with
  | nil => exact h
  | cons a as ih =>
    obtain ⟨b, rest, hb, hrest, rfl⟩ := mapM_cons_eq_ok_iff.mp h
    exact mapM_cons_eq_ok_iff.mpr ⟨b, rest, hfg a b hb, ih hrest, rfl⟩

theorem mapM_flatMap_eq_ok {γ : Type} {f : α → Except ε β} {g : γ → List α} {k : γ → List β}
    {cs : List γ} (h : ∀ c ∈ cs, (g c).mapM f = .ok (k c)) :
    (cs.flatMap g).mapM f = .ok (cs.flatMap k) := by
  induction cs with
  | nil => rfl
  | cons c cs ih =>
    obtain ⟨hc, hcs⟩ := List.forall_mem_cons.mp h
    rw [List.flatMap_cons, List.flatMap_cons, List.mapM_append, hc, ih hcs]
    rfl

theorem length_of_mapM {f : α → Except ε β} {as : List α} {bs : List β}
    (h : as.mapM f = .ok bs) : bs.length = as.length := by
  induction as generalizing bs with
  | nil =>
    obtain rfl := mapM_nil_eq_ok_iff.mp h
    rfl
  | cons a as ih =>
    obtain ⟨b, rest, -, hrest, rfl⟩ := mapM_cons_eq_ok_iff.mp h
    simp [ih hrest]

theorem map_of_mapM {γ : Type} {f : α → Except ε β} {g : β → γ} {k : α → γ}
    (hf : ∀ a b, f a = .ok b → g b = k a) {as : List α} {bs : List β} (h : as.mapM f = .ok bs) :
    bs.map g = as.map k := by
  induction as generalizing bs with
  | nil =>
    obtain rfl := mapM_nil_eq_ok_iff.mp h
    rfl
  | cons a as ih =>
    obtain ⟨b, rest, hb, hrest, rfl⟩ := mapM_cons_eq_ok_iff.mp h
    rw [List.map_cons, List.map_cons, hf a b hb, ih hrest]

theorem forM_eq_ok_iff {f : α → Except ε PUnit} {as : List α} :
    as.forM f = .ok () ↔ ∀ a ∈ as, f a = .ok () := by
  rw [List.forM_eq_forM]
  induction as with
  | nil => simp [pure, Except.pure]
  | cons a as ih =>
    rw [List.forM_cons, bind_eq_ok_iff, List.forall_mem_cons]
    constructor
    · rintro ⟨⟨⟩, ha, has⟩
      exact ⟨ha, ih.mp has⟩
    · rintro ⟨ha, has⟩
      exact ⟨⟨⟩, ha, ih.mpr has⟩

theorem exists_of_forM_eq_error {f : α → Except ε Unit} {as : List α} {e : ε}
    (h : as.forM f = .error e) : ∃ a ∈ as, f a = .error e := by
  rw [List.forM_eq_forM] at h
  induction as with
  | nil => simp [pure, Except.pure] at h
  | cons a as ih =>
    rw [List.forM_cons] at h
    rcases bind_eq_error_iff.mp h with ha | ⟨⟨⟩, -, has⟩
    · exact ⟨a, List.mem_cons_self, ha⟩
    · obtain ⟨a', ha', hf⟩ := ih has
      exact ⟨a', List.mem_cons_of_mem _ ha', hf⟩

/-! ### Chains that end alike -/

/-- Whether two chains end alike: in results that `R` relates, or both in errors, which `E` relates. -/
def Alike (E : ε → ε → Prop) (R : α → β → Prop) : Except ε α → Except ε β → Prop
  | .ok a, .ok b => R a b
  | .error e, .error e' => E e e'
  | _, _ => False

/-- Errors that are not told apart. -/
def AnyErrors (_ _ : ε) : Prop :=
  True

namespace Alike

variable {γ δ : Type} {E : ε → ε → Prop} {R : α → β → Prop}

theorem refl {R : α → α → Prop} (hE : ∀ e, E e e) (hR : ∀ a, R a a) (x : Except ε α) :
    Alike E R x x := by
  cases x with
  | error e => exact hE e
  | ok a => exact hR a

theorem same (x : Except ε α) : Alike AnyErrors Eq x x :=
  refl (fun _ => trivial) (fun _ => rfl) x

theorem trans {R : α → α → Prop} (hE : ∀ e e' e'', E e e' → E e' e'' → E e e'')
    (hR : ∀ a b c, R a b → R b c → R a c) {x y z : Except ε α} (hxy : Alike E R x y)
    (hyz : Alike E R y z) : Alike E R x z := by
  -- The middle chain ends as both of the others do.
  cases y with
  | error e' =>
    cases x with
    | error e =>
      cases z with
      | error e'' => exact hE e e' e'' hxy hyz
      | ok c => exact hyz.elim
    | ok a => exact hxy.elim
  | ok b =>
    cases x with
    | error e => exact hxy.elim
    | ok a =>
      cases z with
      | error e'' => exact hyz.elim
      | ok c => exact hR a b c hxy hyz

theorem mono {E' : ε → ε → Prop} {R' : α → β → Prop} (hE : ∀ e e', E e e' → E' e e')
    (hR : ∀ a b, R a b → R' a b) {x : Except ε α} {y : Except ε β} (h : Alike E R x y) :
    Alike E' R' x y := by
  cases x with
  | error e =>
    cases y with
    | error e' => exact hE e e' h
    | ok b => exact h.elim
  | ok a =>
    cases y with
    | error e' => exact h.elim
    | ok b => exact hR a b h

/-- Two chains that both end in errors are alike where errors are not told apart. -/
theorem of_errors {x : Except ε α} {y : Except ε β} (hx : ∀ a, x ≠ .ok a) (hy : ∀ b, y ≠ .ok b) :
    Alike AnyErrors R x y := by
  cases x with
  | error e =>
    cases y with
    | error e' => trivial
    | ok b => exact absurd rfl (hy b)
  | ok a => exact absurd rfl (hx a)

theorem exists_of_ok {x : Except ε α} {y : Except ε β} (h : Alike E R x y) {a : α} (hx : x = .ok a) :
    ∃ b, y = .ok b ∧ R a b := by
  subst hx
  cases y with
  | error e => exact h.elim
  | ok b => exact ⟨b, rfl, h⟩

theorem exists_of_error {x : Except ε α} {y : Except ε β} (h : Alike E R x y) {e : ε}
    (hx : x = .error e) : ∃ e', y = .error e' ∧ E e e' := by
  subst hx
  cases y with
  | error e' => exact ⟨e', rfl, h⟩
  | ok b => exact h.elim

/-- Of two chains that end alike, one has a result exactly if the other one has. -/
theorem exists_ok_iff {x : Except ε α} {y : Except ε β} (h : Alike E R x y) :
    (∃ a, x = .ok a) ↔ ∃ b, y = .ok b := by
  cases x with
  | error e =>
    cases y with
    | error e' => simp
    | ok b => exact h.elim
  | ok a =>
    cases y with
    | error e' => exact h.elim
    | ok b => simp

/-- Chains of steps that end alike end alike; the second steps may rely on what the first ones gave. -/
theorem bind {S : γ → δ → Prop} {x : Except ε α} {y : Except ε β} {f : α → Except ε γ}
    {g : β → Except ε δ} (h : Alike E R x y)
    (hfg : ∀ a b, x = .ok a → y = .ok b → R a b → Alike E S (f a) (g b)) :
    Alike E S (x >>= f) (y >>= g) := by
  cases x with
  | error e =>
    cases y with
    | error e' => exact h
    | ok b => exact h.elim
  | ok a =>
    cases y with
    | error e' => exact h.elim
    | ok b => exact hfg a b rfl rfl h

theorem map {S : γ → δ → Prop} {x : Except ε α} {y : Except ε β} {f : α → γ} {g : β → δ}
    (h : Alike E R x y) (hfg : ∀ a b, R a b → S (f a) (g b)) : Alike E S (x.map f) (y.map g) := by
  cases x with
  | error e =>
    cases y with
    | error e' => exact h
    | ok b => exact h.elim
  | ok a =>
    cases y with
    | error e' => exact h.elim
    | ok b => exact hfg a b h

/-- Two steps that end alike for each member of a list. -/
theorem mapM {f g : α → Except ε β} {as : List α} (h : ∀ a ∈ as, Alike E Eq (f a) (g a)) :
    Alike E Eq (as.mapM f) (as.mapM g) := by
  induction as with
  | nil => exact (rfl : ([] : List β) = [])
  | cons a as ih =>
    obtain ⟨ha, has⟩ := List.forall_mem_cons.mp h
    rw [List.mapM_cons, List.mapM_cons]
    refine ha.bind ?_
    rintro b _ - - rfl
    refine (ih has).bind ?_
    rintro bs _ - - rfl
    exact (rfl : b :: bs = b :: bs)

/-- Steps for the members of two lists that differ in one place. -/
theorem mapM_middle (hE : ∀ e, E e e) {f : α → Except ε β} (before after : List α) {a a' : α}
    (h : Alike E Eq (f a) (f a')) :
    Alike E Eq ((before ++ a :: after).mapM f) ((before ++ a' :: after).mapM f) := by
  have hsame : ∀ {γ : Type} (x : Except ε γ), Alike E Eq x x := refl hE fun _ => rfl
  induction before with
  | nil =>
    rw [List.nil_append, List.nil_append, List.mapM_cons, List.mapM_cons]
    refine h.bind ?_
    rintro b _ _ _ rfl
    exact hsame _
  | cons c before ih =>
    rw [List.cons_append, List.cons_append, List.mapM_cons, List.mapM_cons]
    refine (hsame (f c)).bind ?_
    rintro b _ _ _ rfl
    refine ih.bind ?_
    rintro bs _ _ _ rfl
    exact hsame _

end Alike

end ListQuery
