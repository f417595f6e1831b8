import TemporalPlanning.Proofs.Mutex.Closure
/-!
The members of mutex pairs.

A relation is a set of pairs of positions. Nothing in its type says that these are positions of
propositions, or that a pair is listed with the smaller one first. Both hold of the relation that
the computation leaves: pairs are inserted for additions, deletions and conditions of actions and
for the listed propositions, all of which are propositions, and are only removed otherwise.
-/
set_option autoImplicit false

namespace TemporalPlanning.Mutex

open Grounded

namespace Relation

/-! ## Relations over propositions -/

/-- Every pair of a relation is one of two different marked variables. -/
def IsOver (marks : Array Bool) (r : Relation) : Prop :=
  ∀ p ∈ r.pairs, ∃ v w, v ≠ w ∧ isMarked marks v = true ∧ isMarked marks w = true ∧ p = pair v w

theorem mem_toList {r : Relation} {v w : VarId} :
    (v, w) ∈ r.toList ↔ (v.index, w.index) ∈ r.pairs := by
  rw [toList, List.mem_map]
  constructor
  · rintro ⟨p, hp, heq⟩
    cases heq
    exact Std.TreeSet.mem_toList.mp hp
  · intro h
    exact ⟨_, Std.TreeSet.mem_toList.mpr h, rfl⟩

variable {marks : Array Bool} {r : Relation}

theorem isOver_empty : empty.IsOver marks := fun _ hp =>
  absurd hp Std.TreeSet.not_mem_emptyc

namespace IsOver

theorem insert (h : r.IsOver marks) {v w : VarId} (hv : isMarked marks v = true)
    (hw : isMarked marks w = true) : (r.insert v w).1.IsOver marks := by
  unfold Relation.insert
  split
  · exact h
  next hnew =>
    intro p hp
    rcases Std.TreeSet.mem_insert.mp hp with heq | hp
    · refine ⟨v, w, fun hvw => hnew ?_, hv, hw, ?_⟩
      · rw [decide_eq_true hvw, Bool.true_or]
      · exact (Std.LawfulEqCmp.eq_of_compare heq).symm
    · exact h p hp

theorem erase (h : r.IsOver marks) (v w : VarId) : (r.erase v w).1.IsOver marks := by
  unfold Relation.erase
  split
  · exact fun p hp => h p (Std.TreeSet.mem_of_mem_erase hp)
  · exact h

/-- The members of a pair are different propositions. -/
theorem of_contains (h : r.IsOver marks) {v w : VarId} (hvw : r.contains v w = true) :
    v ≠ w ∧ isMarked marks v = true ∧ isMarked marks w = true := by
  obtain ⟨a, b, hne, ha, hb, hpair⟩ := h _ (Std.TreeSet.contains_iff_mem.mp hvw)
  rcases pair_eq_iff.mp hpair with ⟨rfl, rfl⟩ | ⟨rfl, rfl⟩
  · exact ⟨hne, ha, hb⟩
  · exact ⟨hne.symm, hb, ha⟩

/-- The pairs of a relation are the ones that are listed. -/
theorem contains_iff (h : r.IsOver marks) (v w : VarId) :
    r.contains v w = true ↔ r.Lists v w := by
  have hlisted : ∀ {v w : VarId}, (v, w) ∈ r.toList → r.contains v w = true := by
    intro v w hvw
    have hmem := mem_toList.mp hvw
    obtain ⟨a, b, -, -, -, hpair⟩ := h _ hmem
    -- the first component of a listed pair is the smaller one
    have hle : v.index ≤ w.index := by
      obtain ⟨hv, hw⟩ := Prod.mk.inj hpair
      omega
    refine Std.TreeSet.contains_iff_mem.mpr ?_
    rwa [pair, Nat.min_eq_left hle, Nat.max_eq_right hle]
  constructor
  · intro hvw
    have hmem : pair v w ∈ r.pairs := Std.TreeSet.contains_iff_mem.mp hvw
    rw [Lists, mem_toList, mem_toList]
    rcases Nat.le_total v.index w.index with hle | hle
    · rw [pair, Nat.min_eq_left hle, Nat.max_eq_right hle] at hmem
      exact Or.inl hmem
    · rw [pair, Nat.min_eq_right hle, Nat.max_eq_left hle] at hmem
      exact Or.inr hmem
  · rintro (hvw | hwv)
    · exact hlisted hvw
    · rw [contains_comm]
      exact hlisted hwv

/-- No proposition is listed with itself. -/
theorem irrefl_lists (h : r.IsOver marks) : Std.Irrefl r.Lists :=
  ⟨fun v hvv => (h.of_contains ((h.contains_iff v v).mpr hvv)).1 rfl⟩

end IsOver

end Relation

/-! ## Applying an action -/

section Application

variable {marks : Array Bool} {p : Profile} {s : State}

/-- Removing the pairs of a variable with those of a list. -/
theorem foldl_deleteMutex_isOver (h : s.mutex.IsOver marks) (v : VarId) (l : List VarId) :
    (l.foldl (fun s w => s.deleteMutex v w) s).mutex.IsOver marks :=
  List.foldlRecOn l _ (motive := fun s : State => s.mutex.IsOver marks) h
    fun _ hs w _ => hs.erase v w

theorem excludeNew_isOver (h : s.mutex.IsOver marks) {deletes : List VarId}
    (hdeletes : ∀ d ∈ deletes, isMarked marks d = true) (conditions : List VarId) {new : VarId}
    (hnew : isMarked marks new = true) :
    (excludeNew (marked marks) p deletes conditions s new).mutex.IsOver marks := by
  refine List.foldlRecOn conditions _ (motive := fun s : State => s.mutex.IsOver marks) ?_
    fun s hs c _ => ?_
  · refine List.foldlRecOn deletes _ (motive := fun s : State => s.mutex.IsOver marks) h
      fun s hs d hd => ?_
    split
    · exact hs.insert hnew (hdeletes d hd)
    · exact hs
  · refine List.foldlRecOn _ _ (motive := fun s : State => s.mutex.IsOver marks) hs
      fun s hs q hq => ?_
    split
    · exact hs.insert hnew (mem_marked.mp hq)
    · exact hs

theorem allowTogether_isOver (h : s.mutex.IsOver marks) (l : List VarId) :
    (allowTogether s l).mutex.IsOver marks := by
  induction l generalizing s with
  | nil => exact h
  | cons v rest ih => exact ih (foldl_deleteMutex_isOver h v rest)

theorem allowAdds_isOver (h : s.mutex.IsOver marks) (l : List VarId) :
    (allowAdds p s l).mutex.IsOver marks := by
  induction l generalizing s with
  | nil => exact allowTogether_isOver h p.endAdds
  | cons v rest ih =>
    refine ih ?_
    split
    · exact foldl_deleteMutex_isOver h v rest
    · exact foldl_deleteMutex_isOver (foldl_deleteMutex_isOver h v rest) v p.endAdds

theorem allowOld_isOver (h : s.mutex.IsOver marks) (propositions : List VarId) (old : VarId) :
    (allowOld propositions p s old).mutex.IsOver marks := by
  refine List.foldlRecOn propositions _ (motive := fun s : State => s.mutex.IsOver marks) h
    fun s hs q _ => ?_
  split
  · exact hs.erase old q
  · exact hs

theorem applyAction_isOver (h : s.mutex.IsOver marks)
    (hadds : ∀ v ∈ p.adds, isMarked marks v = true)
    (hdeletes : ∀ v ∈ p.deletes, isMarked marks v = true) (index : Nat) :
    (applyAction (marked marks) index p s).mutex.IsOver marks := by
  -- only the first stage inserts pairs, of additions that are new
  have hexcluded : (excluded (marked marks) p s).mutex.IsOver marks := by
    refine List.foldlRecOn _ _ (motive := fun s : State => s.mutex.IsOver marks) ?_
      fun s hs v hv => ?_
    · refine List.foldlRecOn _ _ (motive := fun s : State => s.mutex.IsOver marks) h
        fun s hs v hv => ?_
      refine excludeNew_isOver hs (fun d hd => hdeletes d (List.mem_append_left _ hd)) _ ?_
      exact hadds v (List.mem_append_left _ (List.mem_filter.mp hv).1)
    · refine excludeNew_isOver hs hdeletes _ ?_
      exact hadds v (List.mem_append_right _ (List.mem_filter.mp hv).1)
  have hallowed : (allowed (marked marks) index p s).mutex.IsOver marks := by
    unfold allowed
    split
    · exact hexcluded
    · exact allowAdds_isOver hexcluded p.startAdds
  have hrelaxed : (relaxed (marked marks) index p s).mutex.IsOver marks :=
    List.foldlRecOn _ _ (motive := fun s : State => s.mutex.IsOver marks) hallowed
      fun s hs v _ => allowOld_isOver hs _ v
  rw [applyAction_eq]
  show ((newAdds p s).foldl State.reach _).mutex.IsOver marks
  rw [mutex_foldl_reach]
  exact hrelaxed

end Application

/-! ## The whole computation -/

variable (t : Task)

/-- Deletions are marked as propositions. -/
theorem isMarked_of_mem_deletes {a : Action} {v : VarId} (hv : v ∈ (profile t a).deletes) :
    isMarked (propositions t) v = true := by
  have hdeleted : ∀ {es : List Condition}, v ∈ deleted (propositions t) es →
      isMarked (propositions t) v = true := by
    intro es h
    obtain ⟨e, he, rfl⟩ := List.mem_map.mp h
    exact (Bool.and_eq_true_iff.mp (List.mem_filter.mp he).2).1
  rcases List.mem_append.mp hv with h | h
  · exact hdeleted h
  · exact hdeleted h

/-- **Only propositions are mutex** in the relation that the computation leaves. -/
theorem isOver_fixpoint (limit : Nat) :
    (fixpoint t limit).mutex.IsOver (propositions t) := by
  refine run_induction t (P := fun s => s.mutex.IsOver (propositions t)) (fun s hs => ?_) limit
    Relation.isOver_empty
  refine List.foldlRecOn _ _ (motive := fun s : State => s.mutex.IsOver (propositions t)) hs
    fun s hs action _ => ?_
  show (checkAction (propositions t) (marked (propositions t)) s action).mutex.IsOver _
  unfold checkAction
  dsimp only
  split
  · exact applyAction_isOver hs (fun _ hv => isMarked_of_mem_adds t (a := action.1) hv)
      (fun _ hv => isMarked_of_mem_deletes t (a := action.1) hv) action.2
  · exact hs

end TemporalPlanning.Mutex
