import TemporalPlanning.Identifier
/-!
Flat tables.

A table over pairs of positions is kept as one array. A pair whose second component is below a base
is written as one number, the first component in the upper and the second in the lower digit.
Division by the base and its remainder give the components back, and numbers are ordered as the pairs
are.

Searches and relations mark positions of such tables. A mark that has been set stays set, and the
number of positions without a mark decreases whenever a new one is set, which is what bounds the
searches.
-/
set_option autoImplicit false

namespace TemporalPlanning

/-! ## Pairs as numbers -/

section Codes

variable {base upper lower : Nat}

theorem div_of_code (h : lower < base) : (upper * base + lower) / base = upper := by
  have hpos : 0 < base := Nat.lt_of_le_of_lt (Nat.zero_le lower) h
  rw [Nat.mul_comm, Nat.mul_add_div hpos, Nat.div_eq_of_lt h, Nat.add_zero]

theorem mod_of_code (h : lower < base) : (upper * base + lower) % base = lower := by
  rw [Nat.mul_comm, Nat.mul_add_mod, Nat.mod_eq_of_lt h]

/-- Different pairs have different numbers. -/
theorem code_inj {upper' lower' : Nat} (h : lower < base) (h' : lower' < base)
    (heq : upper * base + lower = upper' * base + lower') : upper = upper' ∧ lower = lower' := by
  constructor
  · calc
      upper = (upper * base + lower) / base := (div_of_code h).symm
      _ = (upper' * base + lower') / base := by rw [heq]
      _ = upper' := div_of_code h'
  · calc
      lower = (upper * base + lower) % base := (mod_of_code h).symm
      _ = (upper' * base + lower') % base := by rw [heq]
      _ = lower' := mod_of_code h'

/-- With both digits below the base, a number has two digits. -/
theorem code_lt_mul (hupper : upper < base) (hlower : lower < base) :
    upper * base + lower < base * base := by
  have hle : (upper + 1) * base ≤ base * base := Nat.mul_le_mul_right base hupper
  rw [Nat.succ_mul] at hle
  omega

/-- The lower digit never makes up for a smaller upper one. -/
theorem code_lt_code {upper' : Nat} (lower' : Nat) (h : lower < base) (hupper : upper < upper') :
    upper * base + lower < upper' * base + lower' := by
  have hle : (upper + 1) * base ≤ upper' * base := Nat.mul_le_mul_right base hupper
  rw [Nat.succ_mul] at hle
  omega

/-- Numbers are ordered as the pairs that they stand for. -/
theorem compare_code {upper' lower' : Nat} (h : lower < base) (h' : lower' < base) :
    compare (upper * base + lower) (upper' * base + lower') =
      comparePairs (upper, lower) (upper', lower') := by
  have hpairs : comparePairs (upper, lower) (upper', lower') =
      (compare upper upper').then (compare lower lower') := rfl
  rw [hpairs]
  rcases Nat.lt_trichotomy upper upper' with hlt | heq | hgt
  · rw [Nat.compare_eq_lt.mpr hlt, Nat.compare_eq_lt.mpr (code_lt_code lower' h hlt)]
    rfl
  · -- the lower digits decide
    subst heq
    rw [Nat.compare_eq_eq.mpr rfl, Ordering.eq_then]
    rcases Nat.lt_trichotomy lower lower' with hlt | heq | hgt
    · rw [Nat.compare_eq_lt.mpr hlt, Nat.compare_eq_lt.mpr (Nat.add_lt_add_left hlt _)]
    · rw [Nat.compare_eq_eq.mpr heq, Nat.compare_eq_eq.mpr (congrArg _ heq)]
    · rw [Nat.compare_eq_gt.mpr hgt, Nat.compare_eq_gt.mpr (Nat.add_lt_add_left hgt _)]
  · rw [Nat.compare_eq_gt.mpr hgt, Nat.compare_eq_gt.mpr (code_lt_code lower h' hgt)]
    rfl

end Codes

/-! ## Marks -/

theorem getD_replicate {α : Type} (n i : Nat) (a : α) : (Array.replicate n a).getD i a = a := by
  rw [Array.getD_eq_getD_getElem?, Array.getElem?_replicate]
  split <;> rfl

variable {marks : Array Bool} {i j : Nat} {positions : List Nat}

/-- Setting a mark within the array adds one position to those that are marked. -/
theorem getD_set_true_iff : (marks.setIfInBounds i true).getD j false = true ↔
    marks.getD j false = true ∨ (i = j ∧ i < marks.size) := by
  simp only [Array.getD_eq_getD_getElem?, Array.getElem?_setIfInBounds]
  by_cases h : i = j
  · subst h
    by_cases hsize : i < marks.size <;> simp [hsize]
  · simp [h]

/-- A position that is marked for the first time is no longer counted among the others. -/
theorem count_false_set_lt (hi : i < marks.size) (hfree : marks[i] = false) :
    (marks.setIfInBounds i true).count false < marks.count false := by
  have hpos : 0 < marks.count false := by
    rw [Array.count_pos_iff, ← hfree]
    exact Array.getElem_mem hi
  rw [Array.setIfInBounds, dif_pos hi, Array.count_set hi, hfree]
  simp only [beq_self_eq_true, if_true]
  rw [if_neg (by decide)]
  omega

theorem count_false_set_lt_of_getD (h : ¬marks.getD i true = true) :
    (marks.setIfInBounds i true).count false < marks.count false := by
  have hlt : i < marks.size := by
    refine Nat.lt_of_not_le fun hle => h ?_
    rw [Array.getD_eq_getD_getElem?, Array.getElem?_eq_none hle, Option.getD_none]
  rw [Array.getD_eq_getD_getElem?, Array.getElem?_eq_getElem hlt, Option.getD_some] at h
  exact count_false_set_lt hlt (Bool.eq_false_iff.mpr h)

theorem size_foldl_set (positions : List Nat) (marks : Array Bool) :
    (positions.foldl (fun marks i => marks.setIfInBounds i true) marks).size = marks.size :=
  List.foldlRecOn positions _ (motive := fun marks' : Array Bool => marks'.size = marks.size) rfl
    fun _ hmarks _ _ => Array.size_setIfInBounds.trans hmarks

theorem getD_foldl_set_iff :
    (positions.foldl (fun marks i => marks.setIfInBounds i true) marks).getD j false = true ↔
      marks.getD j false = true ∨ (j ∈ positions ∧ j < marks.size) := by
  induction positions generalizing marks with
  | nil => simp
  | cons i rest ih =>
    rw [List.foldl_cons, ih, getD_set_true_iff, Array.size_setIfInBounds, List.mem_cons, or_assoc]
    grind

end TemporalPlanning
