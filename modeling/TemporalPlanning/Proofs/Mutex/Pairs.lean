import TemporalPlanning.Mutex.Fixpoint
/-!
A mutex relation as a set of unordered pairs.

Whatever is inserted and erased, `contains` answers for the pair and not for the order in which it
is given, and only the pair at hand is affected. Insertion of a variable together with itself does
nothing, so a relation built from the empty one is irreflexive. An insertion or removal that does
not report a change returns the relation it was given, which is what lets a whole pass over the
actions be read as "nothing happened" from its counters alone.
-/
set_option autoImplicit false

namespace TemporalPlanning.Mutex.Relation

/-! ## Unordered pairs -/

/-- The order in which a pair is given does not matter. -/
theorem pair_comm (v w : VarId) : pair v w = pair w v := by
  simp only [pair, Nat.min_comm, Nat.max_comm]

/-- Two pairs are the same if they have the same members in one order or the other. -/
theorem pair_eq_iff {a b v w : VarId} :
    pair a b = pair v w ↔ (a = v ∧ b = w) ∨ (a = w ∧ b = v) := by
  obtain ⟨a⟩ := a
  obtain ⟨b⟩ := b
  obtain ⟨v⟩ := v
  obtain ⟨w⟩ := w
  simp only [pair, Prod.mk.injEq, VarId.mk.injEq]
  omega

variable (r : Relation)

theorem contains_comm (v w : VarId) : r.contains v w = r.contains w v := by
  rw [contains, contains, pair_comm]

@[simp] theorem contains_empty (v w : VarId) : empty.contains v w = false := by
  simp [contains, empty]

/-! ## Insertion and removal -/

/-- Insertion adds the pair, unless both variables are the same. -/
theorem contains_insert (v w a b : VarId) :
    (r.insert v w).1.contains a b = true ↔
      r.contains a b = true ∨ (v ≠ w ∧ pair a b = pair v w) := by
  unfold insert
  by_cases hvw : v = w
  · simp [hvw]
  · by_cases hr : r.contains v w = true
    · -- the pair is there already, so inserting it again adds nothing
      rw [if_pos (by simp [hr])]
      refine ⟨Or.inl, ?_⟩
      rintro (h | ⟨-, h⟩)
      · exact h
      · rw [contains, h]
        exact hr
    · have hpair : comparePairs (pair v w) (pair a b) = .eq ↔ pair a b = pair v w := by
        rw [Std.LawfulEqCmp.compare_eq_iff_eq]
        exact eq_comm
      rw [if_neg (by simp [hvw, hr])]
      simp only [contains, Std.TreeSet.contains_insert, Bool.or_eq_true, beq_iff_eq, hpair]
      exact ⟨fun h => h.elim (fun h => Or.inr ⟨hvw, h⟩) Or.inl,
        fun h => h.elim Or.inr fun h => Or.inl h.2⟩

/-- Removal takes away the pair and nothing else. -/
theorem contains_erase (v w a b : VarId) :
    (r.erase v w).1.contains a b = true ↔ r.contains a b = true ∧ pair a b ≠ pair v w := by
  unfold erase
  by_cases hr : r.contains v w = true
  · have hpair : comparePairs (pair v w) (pair a b) = .eq ↔ pair a b = pair v w := by
      rw [Std.LawfulEqCmp.compare_eq_iff_eq]
      exact eq_comm
    rw [if_pos hr]
    simp only [contains, Std.TreeSet.contains_erase, Bool.and_eq_true, bne_iff_ne, ne_eq, hpair]
    exact and_comm
  · -- the pair is not there, so no pair that is there is this one
    rw [if_neg hr]
    refine ⟨fun h => ⟨h, fun heq => hr ?_⟩, And.left⟩
    rw [contains, ← heq]
    exact h

/-- A pair that has been erased is gone. -/
theorem contains_erase_self (v w : VarId) : (r.erase v w).1.contains v w = false := by
  rw [← Bool.not_eq_true, contains_erase]
  simp

/-! ## Listed pairs -/

/-- Two variables are listed as a pair, in one of the two orders. -/
def Lists (v w : VarId) : Prop := (v, w) ∈ r.toList ∨ (w, v) ∈ r.toList

instance : Std.Symm r.Lists := ⟨fun _ _ => Or.symm⟩

/-! ## Changes that are not reported -/

/-- An insertion that reports no change has changed nothing. -/
theorem insert_eq_self (v w : VarId) (h : (r.insert v w).2 = false) : (r.insert v w).1 = r := by
  unfold insert at h ⊢
  split
  · rfl
  · rename_i hne
    rw [if_neg hne] at h
    cases h

/-- A removal that reports no change has changed nothing. -/
theorem erase_eq_self (v w : VarId) (h : (r.erase v w).2 = false) : (r.erase v w).1 = r := by
  unfold erase at h ⊢
  split
  · rename_i hr
    rw [if_pos hr] at h
    cases h
  · rfl

end TemporalPlanning.Mutex.Relation
