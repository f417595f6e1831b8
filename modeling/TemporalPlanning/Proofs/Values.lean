/-!
Values of keys, and how they change.

Lifted, grounded and finite-domain tasks differ in what has a value, but effects act on all of them
in the same way: one after the other, so that of several effects on one key the last one counts.
-/
set_option autoImplicit false

namespace TemporalPlanning

/-- The values of the keys that have one. -/
abbrev Values (κ ν : Type) := κ → Option ν

namespace Values

variable {κ ν : Type} [DecidableEq κ] (x : Values κ ν)

/-- A key receives a value. -/
def set (e : κ × ν) : Values κ ν := fun k => if k = e.1 then some e.2 else x k

/-- Keys receive values in the order of a list. -/
def assign (l : List (κ × ν)) : Values κ ν := l.foldl set x

@[simp] theorem assign_nil : x.assign [] = x := rfl

@[simp] theorem assign_cons (e : κ × ν) (l : List (κ × ν)) :
    x.assign (e :: l) = (x.set e).assign l := rfl

/-- A key that receives nothing keeps its value. -/
theorem assign_of_forall_ne {l : List (κ × ν)} {k : κ} (h : ∀ e ∈ l, e.1 ≠ k) :
    x.assign l k = x k := by
  induction l generalizing x with
  | nil => rfl
  | cons e l ih =>
    rw [assign_cons, ih _ fun d hd => h d (List.mem_cons_of_mem _ hd), set,
      if_neg (h e List.mem_cons_self).symm]

/-- A key that receives values has one of them afterwards. -/
theorem exists_mem_of_assign {l : List (κ × ν)} {k : κ} (h : ∃ e ∈ l, e.1 = k) :
    ∃ v, (k, v) ∈ l ∧ x.assign l k = some v := by
  induction l generalizing x with
  | nil =>
    obtain ⟨e, he, -⟩ := h
    cases he
  | cons d l ih =>
    by_cases htail : ∃ e ∈ l, e.1 = k
    · obtain ⟨v, hmem, hval⟩ := ih (x.set d) htail
      exact ⟨v, List.mem_cons_of_mem _ hmem, hval⟩
    · -- the key receives nothing later, so the first value decides
      have hd : d.1 = k := by
        obtain ⟨e, he, hkey⟩ := h
        rcases List.mem_cons.mp he with rfl | he
        · exact hkey
        · exact absurd ⟨e, he, hkey⟩ htail
      refine ⟨d.2, ?_, ?_⟩
      · rw [← hd]
        exact List.mem_cons_self
      · rw [assign_cons, assign_of_forall_ne _ fun e he hkey => htail ⟨e, he, hkey⟩, set,
          if_pos hd.symm]

/-- A value has been received, or has been there before and its key receives nothing. -/
theorem assign_eq_some {l : List (κ × ν)} {k : κ} {v : ν} (h : x.assign l k = some v) :
    (k, v) ∈ l ∨ ((∀ e ∈ l, e.1 ≠ k) ∧ x k = some v) := by
  by_cases hk : ∃ e ∈ l, e.1 = k
  · obtain ⟨w, hmem, hval⟩ := x.exists_mem_of_assign hk
    rw [hval] at h
    cases h
    exact Or.inl hmem
  · have hne : ∀ e ∈ l, e.1 ≠ k := fun e he hkey => hk ⟨e, he, hkey⟩
    rw [x.assign_of_forall_ne hne] at h
    exact Or.inr ⟨hne, h⟩

/-- A key that receives one value only has this value afterwards. -/
theorem assign_eq_of_unique {l : List (κ × ν)} {k : κ} {v : ν} (hmem : (k, v) ∈ l)
    (hunique : ∀ w, (k, w) ∈ l → w = v) : x.assign l k = some v := by
  obtain ⟨w, hw, hval⟩ := x.exists_mem_of_assign ⟨(k, v), hmem, rfl⟩
  rw [hval, hunique w hw]

end Values

end TemporalPlanning
