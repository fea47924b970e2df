/-
Trimming settles after one step.

A text without blanks at its ends is what trimming gives, and trimming leaves it alone:

* `takeWhile_append_stop` — where a run of characters ends;
* `trimChars_eq_self` — a text with no blank at either end is its own trim;
* `trimChars_trimChars` and `trim_trim` — trimming twice is trimming once;
* `mem_of_mem_trimChars` — trimming adds no character.
-/
import ListQuery.Text.Blank

namespace ListQuery.Text

/-- A run of characters ends where the rest of the text starts with none of them. -/
theorem takeWhile_append_stop {p : Char → Bool} {cs rest : List Char} (h : ∀ c ∈ cs, p c = true)
    (hrest : ∀ c, rest.head? = some c → p c = false) :
    (cs ++ rest).takeWhile p = cs ∧ (cs ++ rest).dropWhile p = rest := by
  rw [List.takeWhile_append_of_pos h, List.dropWhile_append_of_pos h]
  cases rest with
  | nil => simp
  | cons c rest => simp [hrest c rfl]

theorem dropBlank_eq_self {cs : List Char} (h : ∀ c, cs.head? = some c → isBlank c = false) :
    cs.dropWhile isBlank = cs :=
  (takeWhile_append_stop (List.forall_mem_nil _) h).2

theorem head?_dropBlank {cs : List Char} {c : Char} (h : (cs.dropWhile isBlank).head? = some c) :
    isBlank c = false := by
  have hd := List.head?_dropWhile_not isBlank cs
  rw [h] at hd
  exact hd

theorem trimEnd_eq_self {cs : List Char} (h : ∀ c, cs.getLast? = some c → isBlank c = false) :
    trimEnd cs = cs := by
  rw [trimEnd, dropBlank_eq_self, List.reverse_reverse]
  intro c hc
  rw [List.head?_reverse] at hc
  exact h c hc

theorem getLast?_trimEnd {cs : List Char} {c : Char} (h : (trimEnd cs).getLast? = some c) :
    isBlank c = false := by
  rw [trimEnd, List.getLast?_reverse] at h
  exact head?_dropBlank h

theorem trimEnd_prefix_self (cs : List Char) : trimEnd cs <+: cs := by
  have h : cs.reverse.dropWhile isBlank <:+ cs.reverse := List.dropWhile_suffix _
  rw [← List.reverse_prefix, List.reverse_reverse] at h
  exact h

theorem trimChars_eq_self {cs : List Char} (first : ∀ c, cs.head? = some c → isBlank c = false)
    (last : ∀ c, cs.getLast? = some c → isBlank c = false) : trimChars cs = cs := by
  rw [trimChars, dropBlank_eq_self first, trimEnd_eq_self last]

theorem trimChars_eq_self_of_forall {cs : List Char} (h : ∀ c ∈ cs, isBlank c = false) :
    trimChars cs = cs :=
  trimChars_eq_self (fun c hc => h c (List.mem_of_head? hc))
    (fun c hc => h c (List.mem_of_getLast? hc))

theorem head?_trimChars {cs : List Char} {c : Char} (h : (trimChars cs).head? = some c) :
    isBlank c = false := by
  obtain ⟨rest, hrest⟩ := trimEnd_prefix_self (cs.dropWhile isBlank)
  have hdrop : (cs.dropWhile isBlank).head? = some c := by
    rw [← hrest, List.head?_append, ← trimChars, h]
    rfl
  exact head?_dropBlank hdrop

theorem getLast?_trimChars {cs : List Char} {c : Char} (h : (trimChars cs).getLast? = some c) :
    isBlank c = false :=
  getLast?_trimEnd h

@[simp] theorem trimChars_trimChars (cs : List Char) : trimChars (trimChars cs) = trimChars cs :=
  trimChars_eq_self (fun _ => head?_trimChars) (fun _ => getLast?_trimChars)

theorem mem_of_mem_trimChars {cs : List Char} {c : Char} (h : c ∈ trimChars cs) : c ∈ cs :=
  (List.dropWhile_sublist isBlank).subset ((trimEnd_prefix_self _).sublist.subset h)

@[simp] theorem toList_trim (s : String) : (trim s).toList = trimChars s.toList := by
  simp [trim]

@[simp] theorem trim_trim (s : String) : trim (trim s) = trim s := by
  rw [trim, toList_trim, trimChars_trimChars, ← trim]

/-- Trimming leaves nothing of a text exactly where it holds blanks only. -/
theorem isEmpty_trim (s : String) : (trim s).isEmpty = isBlankText s := by
  rw [Bool.eq_iff_iff, String.isEmpty_iff, trim, isBlankText, List.all_eq_true,
    ← trimChars_eq_nil_iff]
  exact String.ofList_eq_empty_iff

theorem not_isDigit_of_isBlank {c : Char} (h : isBlank c = true) : c.isDigit = false := by
  simp only [isBlank, blankCodePoints, List.contains_eq_mem, List.mem_cons, List.not_mem_nil,
    or_false, decide_eq_true_eq] at h
  simp only [Char.isDigit, Bool.and_eq_false_iff, decide_eq_false_iff_not, UInt32.le_iff_toNat_le]
  have hv : c.val.toNat = c.toNat := rfl
  rw [hv]
  simp
  omega

end ListQuery.Text
