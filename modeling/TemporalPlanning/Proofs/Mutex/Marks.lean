import TemporalPlanning.Mutex.Fixpoint
import TemporalPlanning.Proofs.Execution
import TemporalPlanning.Proofs.FlatTables
/-!
Marked variables.

Arrays of truth values mark variables by their positions. In a numbered task, the variables marked
by a fold over the table are the ones that satisfy its condition; in particular, the marked
propositions are the propositions.
-/
set_option autoImplicit false

namespace TemporalPlanning.Mutex

open Grounded

/-! ## Marks -/

theorem isMarked_set (marks : Array Bool) (v w : VarId) :
    isMarked (marks.setIfInBounds v.index true) w = true ↔
      isMarked marks w = true ∨ (v = w ∧ v.index < marks.size) := by
  rw [isMarked, isMarked, getD_set_true_iff]
  obtain ⟨v⟩ := v
  obtain ⟨w⟩ := w
  rw [VarId.mk.injEq]

theorem lt_size_of_isMarked {marks : Array Bool} {v : VarId} (h : isMarked marks v = true) :
    v.index < marks.size := by
  refine Nat.lt_of_not_le fun hge => ?_
  rw [isMarked, Array.getD_eq_getD_getElem?, Array.getElem?_eq_none hge] at h
  cases h

theorem mem_marked {marks : Array Bool} {v : VarId} :
    v ∈ marked marks ↔ isMarked marks v = true := by
  simp only [marked, List.mem_map, List.mem_filter, List.mem_range]
  constructor
  · rintro ⟨i, ⟨-, hi⟩, rfl⟩
    exact hi
  · intro h
    exact ⟨v.index, ⟨lt_size_of_isMarked h, h⟩, rfl⟩

/-- Marked variables are listed once. -/
theorem nodup_marked (marks : Array Bool) : (marked marks).Nodup :=
  List.Pairwise.map VarId.mk (fun _ _ hne h => hne (VarId.mk.inj h))
    (List.Pairwise.filter _ List.nodup_range)

/-! ## Marking variables of a table -/

/-- The variables that a fold over the table marks. -/
theorem isMarked_foldl {vars : List Variable} {marks : Array Bool} (p : Variable → Bool)
    (w : VarId) :
    isMarked (vars.foldl
      (fun m v => if p v then m.setIfInBounds v.index.index true else m) marks) w = true ↔
      isMarked marks w = true ∨ ∃ v ∈ vars, p v = true ∧ v.index = w ∧ w.index < marks.size := by
  induction vars generalizing marks with
  | nil => simp
  | cons v vars ih =>
    rw [List.foldl_cons]
    by_cases hp : p v = true
    · rw [if_pos hp, ih, isMarked_set, Array.size_setIfInBounds]
      simp only [List.mem_cons, exists_eq_or_imp, hp, true_and]
      constructor
      · rintro ((h | ⟨rfl, h⟩) | h)
        · exact Or.inl h
        · exact Or.inr (Or.inl ⟨rfl, h⟩)
        · exact Or.inr (Or.inr h)
      · rintro (h | ⟨rfl, h⟩ | h)
        · exact Or.inl (Or.inl h)
        · exact Or.inl (Or.inr ⟨rfl, h⟩)
        · exact Or.inr h
    · rw [if_neg hp, ih]
      simp only [List.mem_cons, exists_eq_or_imp, hp, Bool.false_eq_true, false_and, false_or]

variable {t : Task}

/-- A variable of a numbered table is found at its position. -/
theorem exists_mem_vars_iff (ht : t.IsNumbered) (p : Variable → Bool) (w : VarId) :
    (∃ v ∈ t.vars.toList, p v = true ∧ v.index = w ∧ w.index < t.vars.size) ↔
      ∃ v, t.vars[w.index]? = some v ∧ p v = true := by
  constructor
  · rintro ⟨v, hv, hp, rfl, -⟩
    obtain ⟨i, hi⟩ := List.mem_iff_getElem?.mp hv
    rw [Array.getElem?_toList] at hi
    refine ⟨v, ?_, hp⟩
    rw [ht i v hi]
    exact hi
  · rintro ⟨v, hv, hp⟩
    obtain ⟨hlt, hval⟩ := Array.getElem?_eq_some_iff.mp hv
    refine ⟨v, ?_, hp, ht _ _ hv, hlt⟩
    rw [← hval]
    exact Array.mem_toList_iff.mpr (Array.getElem_mem hlt)

theorem isMarked_propositions (ht : t.IsNumbered) (w : VarId) :
    isMarked (propositions t) w = true ↔ t.isProposition w = true := by
  rw [propositions, ← Array.foldl_toList, isMarked_foldl, isMarked, getD_replicate,
    Array.size_replicate, exists_mem_vars_iff ht, Task.isProposition]
  cases t.vars[w.index]? <;> simp

end TemporalPlanning.Mutex
