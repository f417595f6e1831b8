import Mathlib.Data.List.Nodup
import TemporalPlanning.Registry
/-!
Entries of registries.

Keys tell entries apart, and adding an entry leaves the ones that are there at their positions.
-/
set_option autoImplicit false

namespace TemporalPlanning

namespace Registry

variable {κ : Type} [Ord κ] {β : Type} {key : β → κ}

/-- Entries with one key are at one position. -/
theorem position_unique (r : Registry κ β key) {i j : Nat} {v w : β} (hi : r.get? i = some v)
    (hj : r.get? j = some w) (h : key v = key w) : i = j := by
  have hi' := (r.find?_eq_some_iff (key v) i).mpr (by rw [hi]; rfl)
  have hj' := (r.find?_eq_some_iff (key v) j).mpr (by rw [hj, h]; rfl)
  rw [hi'] at hj'
  exact Option.some.inj hj'

/-- Names are entries that are their own keys, so none is there twice. -/
theorem nodup_entries {κ : Type} [Ord κ] (r : Registry κ κ id) : r.entries.toList.Nodup := by
  refine List.nodup_iff_getElem?_ne_getElem?.mpr fun i j hij hj heq => ?_
  rw [Array.getElem?_toList, Array.getElem?_toList] at heq
  rw [Array.length_toList] at hj
  have hentry := Array.getElem?_eq_getElem hj
  exact Nat.ne_of_lt hij (r.position_unique (heq.trans hentry) hentry rfl)

variable [Std.TransOrd κ] [Std.LawfulEqOrd κ]

theorem get?_push (r : Registry κ β key) (b : β) (fresh : r.find? (key b) = none) (j : Nat) :
    (r.push b fresh).get? j = if j = r.size then some b else r.get? j :=
  Array.getElem?_push

/-- An interned entry has the wanted key. -/
theorem get?_intern_fst (r : Registry κ β key) (b : β) :
    ((r.intern b).2.get? (r.intern b).1).map key = some (key b) := by
  unfold intern
  split
  next i h => exact (r.find?_eq_some_iff _ _).mp h
  next h => rw [get?_push, if_pos rfl, Option.map_some]

/-- Interning adds at most the entry in question, at the end. -/
theorem get?_intern_snd (r : Registry κ β key) (b : β) (j : Nat) :
    (r.intern b).2.get? j = r.get? j ∨
      (j = r.size ∧ r.get? j = none ∧ (r.intern b).2.get? j = some b) := by
  unfold intern
  split
  -- a known key adds nothing
  · exact Or.inl rfl
  · rw [get?_push]
    by_cases hj : j = r.size
    · refine Or.inr ⟨hj, ?_, if_pos hj⟩
      rw [hj]
      exact Array.getElem?_eq_none (Nat.le_refl _)
    · exact Or.inl (if_neg hj)

/-- Interning makes a table no smaller. -/
theorem size_le_size_intern (r : Registry κ β key) (b : β) : r.size ≤ (r.intern b).2.size := by
  unfold intern
  split
  · exact Nat.le_refl _
  · show r.entries.size ≤ (r.entries.push b).size
    rw [Array.size_push]
    exact Nat.le_succ _

/-- A key that is found is found at the same position after interning. -/
theorem find?_intern_of_eq_some (r : Registry κ β key) (b : β) {k : κ} {i : Nat}
    (h : r.find? k = some i) : (r.intern b).2.find? k = some i := by
  rw [find?_eq_some_iff] at h ⊢
  rcases r.get?_intern_snd b i with hsame | ⟨-, hnone, -⟩
  · rw [hsame, h]
  · rw [hnone] at h
    cases h

/-- The key of an interned entry is found at its position. -/
theorem find?_intern_self (r : Registry κ β key) (b : β) :
    (r.intern b).2.find? (key b) = some (r.intern b).1 :=
  (find?_eq_some_iff _ _ _).mpr (r.get?_intern_fst b)

/-- An entry with a new key is added at the end. -/
theorem intern_fst_of_eq_none (r : Registry κ β key) (b : β) (h : r.find? (key b) = none) :
    (r.intern b).1 = r.size := by
  unfold intern
  split
  next i hi =>
    rw [h] at hi
    cases hi
  · rfl

/-- Then there is one entry more. -/
theorem size_intern_of_eq_none (r : Registry κ β key) (b : β) (h : r.find? (key b) = none) :
    (r.intern b).2.size = r.size + 1 := by
  unfold intern
  split
  next i hi =>
    rw [h] at hi
    cases hi
  · exact Array.size_push b

end Registry

end TemporalPlanning
