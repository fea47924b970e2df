/-
The levels of a filter and those of its echo.

The reader counts the filters in each other and refuses too many of them.  The echo of a condition has as
many as the condition has levels, which are not those of the filter that it was read from: several
members become a conjunction, and a negated operator the negation of a leaf.

* `levels` — the filters in each other, as the reader counts them;
* `Spans` — what the conditions that are read from a part of a filter keep of its levels;
* `spans_of_readMembers`, `spans_of_readGroup`, `spans_of_readEntries` — the parts of a filter keep it;
* `exists_read_depth_eq` — there are filters with conditions as deep as that allows;
* `read_toJson_of_read` — the condition of a filter has no fewer levels than the filter and at most one
  more than twice as many; its echo is read back exactly if these are not too many.

Design notes: a combinator adds one level to the filter and one to the condition, and an entry of several
members a second one to the condition alone.  So the bounds for the members of an object and for the
children of a group differ by one, and `Spans` takes the upper one as an index of its own.
-/
import ListQuery.Proofs.Condition.EchoReadsBack

namespace ListQuery

namespace Condition

/-! ### Levels -/

mutual

/-- The number of filters in each other. -/
def levels : Json → Nat
  | .object members => 1 + levelsBelow members
  | .array items => levelsOf items
  | _ => 0

/-- The number of filters in each other below the members of one. -/
def levelsBelow : List (String × Json) → Nat
  | [] => 0
  | (key, value) :: rest =>
    match Combinator.ofKey? key with
    | some _ => max (levels value) (levelsBelow rest)
    | none => levelsBelow rest

/-- The number of filters in each other in the deepest of some. -/
def levelsOf : List Json → Nat
  | [] => 0
  | v :: rest => max (levels v) (levelsOf rest)

end

theorem depthOf_le_iff {cs : List Condition} {n : Nat} : depthOf cs ≤ n ↔ ∀ c ∈ cs, c.depth ≤ n := by
  induction cs with
  | nil => simp [depthOf]
  | cons c cs ih => rw [depthOf, Nat.max_le, ih, List.forall_mem_cons]

theorem depth_le_depthOf {cs : List Condition} {c : Condition} (h : c ∈ cs) : c.depth ≤ depthOf cs :=
  depthOf_le_iff.mp (Nat.le_refl _) c h

theorem depthOf_append (cs ds : List Condition) :
    depthOf (cs ++ ds) = max (depthOf cs) (depthOf ds) := by
  induction cs with
  | nil => exact (Nat.zero_max _).symm
  | cons c cs ih => rw [List.cons_append, depthOf, ih, depthOf, Nat.max_assoc]

theorem depthOf_singleton (c : Condition) : depthOf [c] = c.depth := by
  rw [depthOf, depthOf, Nat.max_zero]

theorem depth_between_conjuncts (c : Condition) :
    c.depth ≤ 1 + depthOf c.conjuncts ∧ depthOf c.conjuncts ≤ c.depth := by
  rw [conjuncts.eq_def]
  split
  · rw [depth]
    omega
  · rw [depthOf_singleton]
    omega

variable {P : String → Test → Prop}

/-- A conjunction is as deep as what it joins, or one level deeper. -/
theorem depth_of_all {cs : List Condition} {c : Condition} (h : ∀ d ∈ cs, d.Every P)
    (hc : all cs = some c) : depthOf cs ≤ c.depth ∧ c.depth ≤ 1 + depthOf cs := by
  rcases cs with _ | ⟨d, _ | ⟨e, rest⟩⟩
  · simp [all, collapse] at hc
  · obtain rfl := Option.some.inj ((all_singleton (h d List.mem_cons_self)).symm.trans hc)
    rw [depthOf_singleton]
    omega
  · obtain rfl := Option.some.inj ((all_of_two h).symm.trans hc)
    rw [depth]
    constructor
    · refine depthOf_le_iff.mpr fun x hx => ?_
      have hconjuncts : depthOf x.conjuncts ≤ depthOf ((d :: e :: rest).flatMap conjuncts) :=
        depthOf_le_iff.mpr fun y hy => depth_le_depthOf (List.mem_flatMap.mpr ⟨x, hx, hy⟩)
      have hx := (depth_between_conjuncts x).1
      omega
    · refine Nat.add_le_add_left (depthOf_le_iff.mpr fun y hy => ?_) 1
      obtain ⟨x, hx, hy⟩ := List.mem_flatMap.mp hy
      exact Nat.le_trans (depth_le_depthOf hy)
        (Nat.le_trans (depth_between_conjuncts x).2 (depth_le_depthOf hx))

/-! ### What is read -/

/-- Conditions from a part of a filter at some depth: the levels of the part fit below the depth, the
conditions have as many levels or more, and `most` at the most. -/
structure Spans (depth levels most : Nat) (cs : List Condition) : Prop where
  fits : depth + levels ≤ maxDepth
  least : levels ≤ max 1 (depthOf cs)
  most : depthOf cs ≤ most

variable {d l m l' m' : Nat} {cs ds : List Condition} {c : Condition}

theorem Spans.weaken (h : Spans d l m cs) (hl : l = l') (hm : m ≤ m') : Spans d l' m' cs :=
  ⟨hl ▸ h.fits, hl ▸ h.least, Nat.le_trans h.most hm⟩

theorem Spans.append (h : Spans d l m cs) (h' : Spans d l' m' ds) :
    Spans d (max l l') (max m m') (cs ++ ds) := by
  obtain ⟨hfits, hleast, hmost⟩ := h
  obtain ⟨hfits', hleast', hmost'⟩ := h'
  refine ⟨by omega, ?_, ?_⟩
  · rw [depthOf_append]
    omega
  · rw [depthOf_append]
    omega

theorem Spans.all (h : Spans d l m cs) (hevery : ∀ d ∈ cs, d.Every P)
    (hc : Condition.all cs = some c) : Spans d l (1 + m) [c] := by
  obtain ⟨hfits, hleast, hmost⟩ := h
  obtain ⟨hle, hge⟩ := depth_of_all hevery hc
  refine ⟨hfits, ?_, ?_⟩
  · rw [depthOf_singleton]
    omega
  · rw [depthOf_singleton]
    omega

/-- A group adds a level to its children, of which it has one at least. -/
theorem Spans.join {kind : Combinator} (h : Spans (d + 1) l m cs)
    (hc : Condition.join kind cs = .ok c) : Spans d (1 + l) (1 + m) [c] := by
  obtain ⟨⟨⟩, harity, hc⟩ := bind_eq_ok_iff.mp hc
  obtain rfl := pure_eq_ok_iff.mp hc
  obtain ⟨hfits, hleast, hmost⟩ := h
  have hchild : 1 ≤ depthOf cs := by
    rcases cs with _ | ⟨e, rest⟩
    · cases kind <;> simp [checkArity, Combinator.minChildren] at harity
    · exact Nat.le_trans e.depth_pos (depth_le_depthOf List.mem_cons_self)
  refine ⟨by omega, ?_, ?_⟩
  · rw [depthOf_singleton, depth]
    omega
  · rw [depthOf_singleton, depth]
    omega

variable {r : Registry}

theorem depth_le_of_readOperation {f : Field} {tag : String} {operand : Json}
    (h : readOperation f tag operand = .ok c) : c.depth ≤ 2 := by
  rw [readOperation] at h
  split at h
  · simp at h
  · rename_i op negated _
    split at h
    · obtain ⟨t, -, h⟩ := bind_eq_ok_iff.mp h
      obtain rfl := pure_eq_ok_iff.mp h
      cases negated with
      | false => exact Nat.le_succ 1
      | true => exact Nat.le_refl 2
    · simp at h

theorem spans_of_readField (hd : d + 1 ≤ maxDepth) {name : String} {operations : Json}
    (h : readField r name operations = .ok cs) : Spans d 1 2 cs := by
  obtain ⟨f, -, h⟩ := bind_eq_ok_iff.mp h
  split at h
  · simp at h
  · refine ⟨hd, Nat.le_max_left _ _, depthOf_le_iff.mpr fun c hc => ?_⟩
    obtain ⟨⟨tag, operand⟩, -, hread⟩ := exists_of_mem_mapM h hc
    exact depth_le_of_readOperation hread
  · simp at h

theorem le_of_checkDepth (h : checkDepth d = .ok ()) : d ≤ maxDepth := by
  rw [checkDepth] at h
  split at h
  · assumption
  · simp at h

/-- The children that an entry adds are at most one level deeper than the conditions in it. -/
theorem spans_of_entryChildren {kind : Combinator} (h : Spans d l m cs)
    (hevery : ∀ d ∈ cs, d.Every P) (hds : entryChildren kind cs = .ok ds) : Spans d l (1 + m) ds := by
  rw [entryChildren.eq_def] at hds
  split at hds
  · obtain rfl := Except.ok.inj hds
    exact h.weaken rfl (Nat.le_add_left m 1)
  · split at hds
    · rename_i c hc
      obtain rfl := Except.ok.inj hds
      exact h.all hevery hc
    · simp at hds

mutual

/-- The members of an object keep the levels of the object, its own among them. -/
theorem spans_of_readMembers {d : Nat} (hd : d + 1 ≤ maxDepth) :
    ∀ {ms : List (String × Json)} {cs : List Condition}, readMembers r (d + 1) ms = .ok cs →
      Spans d (1 + levelsBelow ms) (2 * (1 + levelsBelow ms)) cs
  | [], cs, h => by
    obtain rfl := Except.ok.inj h
    exact ⟨hd, Nat.le_max_left _ _, Nat.zero_le _⟩
  | (key, value) :: rest, cs, h => by
    rw [readMembers_cons] at h
    obtain ⟨here, hhere, h⟩ := bind_eq_ok_iff.mp h
    obtain ⟨others, hothers, h⟩ := bind_eq_ok_iff.mp h
    obtain rfl := pure_eq_ok_iff.mp h
    have hrest := spans_of_readMembers hd hothers
    rw [readMember] at hhere
    split at hhere
    · rename_i kind hkey
      obtain ⟨children, hchildren, hhere⟩ := bind_eq_ok_iff.mp hhere
      obtain ⟨c, hc, hhere⟩ := bind_eq_ok_iff.mp hhere
      obtain rfl := pure_eq_ok_iff.mp hhere
      -- The group stands above its children as the object does above the filters in this member.
      have hgroup := (spans_of_readGroup hd hchildren).join hc
      simp only [levelsBelow, hkey]
      exact (hgroup.append hrest).weaken (by omega) (by omega)
    · rename_i hkey
      simp only [levelsBelow, hkey]
      exact ((spans_of_readField hd hhere).append hrest).weaken (by omega) (by omega)

theorem spans_of_readGroup {d : Nat} (hd : d ≤ maxDepth) {kind : Combinator} :
    ∀ {v : Json} {cs : List Condition}, readGroup r d kind v = .ok cs →
      Spans d (levels v) (1 + 2 * levels v) cs
  | .array items, cs, h => by
    rw [levels]
    exact spans_of_readEntries hd h
  | .object members, cs, h => by
    obtain ⟨⟨⟩, hdepth, h⟩ := bind_eq_ok_iff.mp h
    rw [levels]
    exact (spans_of_readMembers (le_of_checkDepth hdepth) h).weaken rfl (by omega)
  | .null, cs, h | .bool _, cs, h | .integer _, cs, h | .float _, cs, h | .string _, cs, h => by
    simp [readGroup] at h

theorem spans_of_readEntries {d : Nat} (hd : d ≤ maxDepth) {kind : Combinator} :
    ∀ {items : List Json} {cs : List Condition}, readEntries r d kind items = .ok cs →
      Spans d (levelsOf items) (1 + 2 * levelsOf items) cs
  | [], cs, h => by
    obtain rfl := Except.ok.inj h
    exact ⟨hd, Nat.zero_le _, Nat.zero_le _⟩
  | .object members :: rest, cs, h => by
    rw [readEntries] at h
    obtain ⟨⟨⟩, hdepth, h⟩ := bind_eq_ok_iff.mp h
    obtain ⟨conditions, hconditions, h⟩ := bind_eq_ok_iff.mp h
    obtain ⟨here, hhere, h⟩ := bind_eq_ok_iff.mp h
    obtain ⟨others, hothers, h⟩ := bind_eq_ok_iff.mp h
    obtain rfl := pure_eq_ok_iff.mp h
    have hmembers := spans_of_readMembers (le_of_checkDepth hdepth) hconditions
    have hfirst := spans_of_entryChildren hmembers (every_true_of_readMembers hconditions) hhere
    rw [levelsOf, levels]
    exact (hfirst.append (spans_of_readEntries hd hothers)).weaken rfl (by omega)
  | .null :: _, cs, h | .bool _ :: _, cs, h | .integer _ :: _, cs, h | .float _ :: _, cs, h
  | .string _ :: _, cs, h | .array _ :: _, cs, h => by
    simp [readEntries] at h

end

theorem spans_of_read {raw : Json} (h : read r raw = .ok c) :
    Spans 0 (levels raw) (1 + 2 * levels raw) [c] := by
  rw [read.eq_def] at h
  split at h
  · rename_i members
    obtain ⟨cs, hcs, h⟩ := bind_eq_ok_iff.mp h
    have hmembers := spans_of_readMembers (by decide) hcs
    split at h
    · rename_i d hd
      obtain rfl := pure_eq_ok_iff.mp h
      rw [levels]
      exact hmembers.all (every_true_of_readMembers hcs) hd
    · simp at h
  · simp at h

/-! ### Filters with the deepest conditions -/

/-- A member that is read as one leaf. -/
def plainMember : String × Json :=
  ("kind", .object [("eq", .string "a")])

/-- The leaf of the plain member. -/
def plainLeaf : Condition :=
  leaf "kind" (.compare .eq (.text "a"))

/-- The members of filters whose conditions are as deep as can be: in each filter a conjunction joins two
members, of which one is a group that holds the next filter. -/
def steepMembers : Nat → List (String × Json)
  | 0 => [("kind", .object [("eq", .string "a"), ("not_in", .array [.string "b"])])]
  | n + 1 => [plainMember, ("or", .array [.object [plainMember], .object (steepMembers n)])]

/-- The conditions of these members. -/
def steepConditions : Nat → List Condition
  | 0 => [plainLeaf, negate (leaf "kind" (.oneOf [.text "b"]))]
  | n + 1 => [plainLeaf, group .or [plainLeaf, group .and (steepConditions n)]]

theorem all_steepConditions (n : Nat) :
    all (steepConditions n) = some (group .and (steepConditions n)) := by
  cases n <;> rfl

theorem readMembers_steepMembers {n d : Nat} (h : d + n ≤ maxDepth) :
    readMembers (.ofTextField "parts" "kind") d (steepMembers n) = .ok (steepConditions n) := by
  induction n generalizing d with
  | zero => rfl
  | succ n ih =>
    have hplain : ∀ d, readMembers (.ofTextField "parts" "kind") d [plainMember] = .ok [plainLeaf] :=
      fun _ => rfl
    have hfirst : readMember (.ofTextField "parts" "kind") d plainMember.1 plainMember.2
        = .ok [plainLeaf] := rfl
    have hkey : Combinator.ofKey? "or" = some .or := rfl
    have hdepth : checkDepth (d + 1) = .ok () := if_pos (by omega)
    have hentries : readEntries (.ofTextField "parts" "kind") d .or
        [.object [plainMember], .object (steepMembers n)]
        = .ok [plainLeaf, group .and (steepConditions n)] := by
      simp only [readEntries, hdepth, hplain, ih (d := d + 1) (by omega)]
      simp only [bind, Except.bind, entryChildren, all_steepConditions]
      rfl
    have hor : readMembers (.ofTextField "parts" "kind") d
        [("or", .array [.object [plainMember], .object (steepMembers n)])]
        = .ok [group .or [plainLeaf, group .and (steepConditions n)]] := by
      rw [readMembers_cons, readMember, hkey]
      simp only [readGroup, hentries]
      rfl
    refine (readMembers_cons _ d plainMember.1 plainMember.2 _).trans ?_
    rw [hfirst, hor]
    rfl

theorem read_steepMembers {n : Nat} (h : n < maxDepth) :
    read (.ofTextField "parts" "kind") (.object (steepMembers n))
      = .ok (group .and (steepConditions n)) := by
  have hmembers := readMembers_steepMembers (n := n) (d := 1) (by omega)
  rw [read, hmembers]
  simp only [bind, Except.bind, all_steepConditions]
  rfl

theorem levels_steepMembers (n : Nat) : levels (.object (steepMembers n)) = n + 1 := by
  induction n with
  | zero => rfl
  | succ n ih =>
    have hbelow : levelsBelow (steepMembers (n + 1))
        = max (max 1 (max (levels (.object (steepMembers n))) 0)) 0 := rfl
    rw [levels, hbelow, ih]
    omega

theorem depth_steepConditions (n : Nat) : (group .and (steepConditions n)).depth = 2 * n + 3 := by
  induction n with
  | zero => rfl
  | succ n ih =>
    have hdepth : (group .and (steepConditions (n + 1))).depth
        = 1 + max 1 (max (1 + max 1 (max (group .and (steepConditions n)).depth 0)) 0) := rfl
    rw [hdepth, ih]
    omega

theorem isWellFormed_steepMembers (n : Nat) :
    (Json.object (steepMembers n)).isWellFormed = true := by
  induction n with
  | zero => decide
  | succ n ih =>
    have hplain : (Json.object [plainMember]).isWellFormed = true := by decide
    have hnames : plainMember.1 < "or" := by decide
    have hlist : (Json.array [.object [plainMember], .object (steepMembers n)]).isWellFormed = true :=
      Json.isWellFormed_array.mpr (List.forall_mem_cons.mpr ⟨hplain, List.forall_mem_singleton.mpr ih⟩)
    exact Json.isWellFormed_object.mpr ⟨List.pairwise_pair.mpr hnames, List.forall_mem_cons.mpr
      ⟨(Json.isWellFormed_object.mp hplain).2 _ List.mem_cons_self, List.forall_mem_singleton.mpr hlist⟩⟩

/-- The bound on the levels of a condition is attained for every number of levels that a filter may
have. -/
theorem exists_read_depth_eq {n : Nat} (hpos : 1 ≤ n) (hn : n ≤ maxDepth) :
    ∃ raw c, raw.isWellFormed = true ∧ levels raw = n
      ∧ read (.ofTextField "parts" "kind") raw = .ok c ∧ c.depth = 2 * n + 1 := by
  obtain ⟨k, rfl⟩ : ∃ k, n = k + 1 := ⟨n - 1, by omega⟩
  refine ⟨_, _, isWellFormed_steepMembers k, levels_steepMembers k, read_steepMembers hn, ?_⟩
  rw [depth_steepConditions]
  omega

/-! ### The echo of what is read -/

/-- The condition of a filter has no fewer levels than the filter, which has not too many, and at most one
more than twice as many.  Its echo is read back as the condition exactly if these are not too many, and
otherwise refused for its depth; so a filter of less than half the levels that are allowed always has an
echo that is read back, and a deeper one may have none. -/
theorem read_toJson_of_read {r : Registry} (hr : r.Built) {raw : Json} {c : Condition}
    (hw : raw.isWellFormed = true) (h : read r raw = .ok c) :
    levels raw ≤ maxDepth ∧ levels raw ≤ c.depth ∧ c.depth ≤ 2 * levels raw + 1
      ∧ read r c.toJson
        = if c.depth ≤ maxDepth then .ok c else .error (.filter (.tooDeep maxDepth)) := by
  have hconsistent := Registry.consistent_of_built hr
  obtain ⟨hfits, hleast, hmost⟩ := spans_of_read h
  rw [depthOf_singleton] at hleast hmost
  have hpos := c.depth_pos
  refine ⟨by omega, by omega, by omega, ?_⟩
  exact read_toJson hconsistent (sound_of_read hconsistent hw h) fun name hname => ofKey?_of_read h hname

/-- Half the levels that are allowed are enough for an echo that is refused. -/
theorem read_toJson_of_read_steep :
    let raw := Json.object (steepMembers 15)
    levels raw = 16 ∧ ∃ c, read (.ofTextField "parts" "kind") raw = .ok c ∧ c.depth = 33
      ∧ read (.ofTextField "parts" "kind") c.toJson = .error (.filter (.tooDeep 32)) := by
  intro raw
  have hread := read_steepMembers (n := 15) (by decide)
  obtain ⟨-, -, -, hecho⟩ := read_toJson_of_read (Registry.built_ofTextField "parts" "kind")
    (isWellFormed_steepMembers 15) hread
  rw [depth_steepConditions] at hecho
  exact ⟨levels_steepMembers 15, _, hread, depth_steepConditions 15, hecho⟩

end Condition

end ListQuery
