import TemporalPlanning.Proofs.Mutex.Progress
/-!
The effect of applying one action, from its stages.

`applyAction` excludes what the new propositions cannot hold with, allows what the action adds
together on its first application, allows what old additions can hold with, and reaches the new
propositions. The lemmas below put the stages together: the state advances, the additions are
reached, a first application leaves them `Together`, and an application that counts nothing finds
every remaining pair of an addition supported by a deletion or a condition.
-/
set_option autoImplicit false

namespace TemporalPlanning.Mutex

open State

/-! ## Stages -/

/-- The additions of one time point that have not been reached. -/
def fresh (s : State) (adds : List VarId) : List VarId :=
  adds.filter fun v => !isMarked s.reached v

/-- The additions that have not been reached. -/
def newAdds (p : Profile) (s : State) : List VarId := fresh s p.startAdds ++ fresh s p.endAdds

theorem mem_newAdds {p : Profile} {s : State} {v : VarId} :
    v ∈ newAdds p s ↔ v ∈ p.adds ∧ isMarked s.reached v = false := by
  rw [newAdds, fresh, fresh, ← List.filter_append, List.mem_filter, Bool.not_eq_true']
  rfl

/-- The additions that have been reached. -/
def oldAdds (p : Profile) (s : State) : List VarId :=
  p.adds.filter fun v => !(newAdds p s).contains v

/-- The state after the pairs of new propositions. -/
def excluded (propositions : List VarId) (p : Profile) (s : State) : State :=
  (fresh s p.endAdds).foldl (excludeNew propositions p p.deletes p.conditions)
    ((fresh s p.startAdds).foldl (excludeNew propositions p p.startDeletes p.before) s)

/-- The state after the additions are allowed to hold together, which happens once. -/
def allowed (propositions : List VarId) (index : Nat) (p : Profile) (s : State) : State :=
  if s.fired.getD index false then excluded propositions p s
  else allowAdds p (excluded propositions p s) p.startAdds

/-- The state after the pairs of old additions. -/
def relaxed (propositions : List VarId) (index : Nat) (p : Profile) (s : State) : State :=
  (oldAdds p s).foldl (allowOld propositions p) (allowed propositions index p s)

theorem excluded_adjusts (propositions : List VarId) (p : Profile) (s : State) :
    Adjusts s (excluded propositions p s) := by
  have hfresh : ∀ {adds : List VarId} {s' : State}, s'.reached = s.reached → ∀ v ∈ fresh s adds,
      isMarked s'.reached v = false := by
    intro adds s' hs' v hv
    rw [hs', ← Bool.not_eq_true']
    exact (List.mem_filter.mp hv).2
  have hstart : Adjusts s
      ((fresh s p.startAdds).foldl (excludeNew propositions p p.startDeletes p.before) s) :=
    Adjusts.foldl fun s' hs' v hv => excludeNew_adjusts _ _ _ _ (hfresh hs' v hv)
  refine hstart.trans (Adjusts.foldl fun s' hs' v hv => ?_)
  exact excludeNew_adjusts _ _ _ _ (hfresh (hs'.trans hstart.reached) v hv)

theorem allowed_advances (propositions : List VarId) (index : Nat) (p : Profile) (s : State) :
    Advances s (allowed propositions index p s) := by
  have hexcluded := (excluded_adjusts propositions p s).advances
  unfold allowed
  split
  · exact hexcluded
  · exact hexcluded.trans (allowAdds_spec p p.startAdds _).1

/-- The pairs of old additions are only removed, in any state. -/
theorem foldl_allowOld (propositions : List VarId) (p : Profile) (l : List VarId) (s : State) :
    Advances s (l.foldl (allowOld propositions p) s) ∧
      Relaxes s (l.foldl (allowOld propositions p) s) :=
  ⟨Advances.foldl fun s' v _ => (allowOld_advances propositions p s' v).1,
    Relaxes.foldl fun s' v _ => (allowOld_advances propositions p s' v).2⟩

theorem relaxed_advances (propositions : List VarId) (index : Nat) (p : Profile) (s : State) :
    Advances (allowed propositions index p s) (relaxed propositions index p s) :=
  (foldl_allowOld propositions p (oldAdds p s) _).1

theorem foldl_reach_advances (l : List VarId) (s : State) :
    Advances s (l.foldl State.reach s) :=
  Advances.foldl fun s' v _ => s'.reach_advances v

theorem mutex_foldl_reach (l : List VarId) (s : State) :
    (l.foldl State.reach s).mutex = s.mutex := by
  induction l generalizing s with
  | nil => rfl
  | cons v l ih =>
    rw [List.foldl_cons, ih, State.reach]
    split <;> rfl

theorem isMarked_foldl_reach {l : List VarId} {s : State} {v : VarId} (hv : v ∈ l)
    (hsize : v.index < s.reached.size) : isMarked (l.foldl State.reach s).reached v = true := by
  obtain ⟨s', hbefore, hafter⟩ :=
    exists_step_of_mem Advances.refl Advances.trans (s := s)
      (fun s' w _ => s'.reach_advances w) hv
  refine hafter.reached v ?_
  unfold State.reach
  split
  · assumption
  · exact (isMarked_set _ _ _).mpr (Or.inr ⟨rfl, by rw [hbefore.size]; exact hsize⟩)

/-- Reaching propositions counts, unless all of them have been reached. -/
theorem isMarked_of_foldl_reach {l : List VarId} {s : State}
    (hw : (l.foldl State.reach s).work ≤ s.work) {v : VarId} (hv : v ∈ l) :
    isMarked s.reached v = true := by
  obtain ⟨s', hreached, -, hidle⟩ :=
    Advances.exists_idle_step (fun s' w _ => s'.reach_advances w) hw hv
  by_contra hnot
  rw [Bool.not_eq_true, ← hreached] at hnot
  have hlt := s'.work_lt_reach hnot
  omega

/-- Pairs of old additions that are left without anything being counted have a reason. -/
theorem mayExclude_of_foldl_allowOld {propositions : List VarId} {p : Profile} {l : List VarId}
    {s : State} (hw : (l.foldl (allowOld propositions p) s).work ≤ s.work) {v q : VarId}
    (hv : v ∈ l) (hq : q ∈ propositions) (hvq : s.mutex.contains v q = true) :
    MayExclude p s.mutex q := by
  obtain ⟨s', -, hmutex, hidle⟩ :=
    Advances.exists_idle_step (fun s' w _ => (allowOld_advances propositions p s' w).1) hw hv
  rw [← hmutex] at hvq ⊢
  exact mayExclude_of_allowOld hidle hq hvq

/-! ## The whole application -/

theorem applyAction_eq (propositions : List VarId) (index : Nat) (p : Profile) (s : State) :
    applyAction propositions index p s =
      { (newAdds p s).foldl State.reach (relaxed propositions index p s) with
        fired := s.fired.setIfInBounds index true } := by
  have hexcluded : (excluded propositions p s).fired = s.fired :=
    (excluded_adjusts propositions p s).advances.fired
  have hall : ((newAdds p s).foldl State.reach (relaxed propositions index p s)).fired = s.fired :=
    (((allowed_advances propositions index p s).trans
      (relaxed_advances propositions index p s)).trans (foldl_reach_advances _ _)).fired
  rw [← hall]
  unfold relaxed allowed
  rw [← hexcluded]
  rfl

/-- The state before the application is recorded. -/
theorem unrecorded_advances (propositions : List VarId) (index : Nat) (p : Profile) (s : State) :
    Advances s ((newAdds p s).foldl State.reach (relaxed propositions index p s)) :=
  ((allowed_advances propositions index p s).trans
    (relaxed_advances propositions index p s)).trans (foldl_reach_advances _ _)

theorem applyAction_continues (propositions : List VarId) (index : Nat) (p : Profile) (s : State) :
    Continues s (applyAction propositions index p s) := by
  rw [applyAction_eq]
  have h := (unrecorded_advances propositions index p s).toContinues
  exact ⟨h.reached, h.apart, h.reachedBefore, h.size, h.counted⟩

/-- After an application all additions are reached. -/
theorem isMarked_applyAction {propositions : List VarId} {index : Nat} {p : Profile} {s : State}
    {v : VarId} (hv : v ∈ p.adds) (hsize : v.index < s.reached.size) :
    isMarked (applyAction propositions index p s).reached v = true := by
  by_cases hmarked : isMarked s.reached v = true
  · exact (applyAction_continues propositions index p s).reached v hmarked
  · rw [Bool.not_eq_true] at hmarked
    rw [applyAction_eq]
    refine isMarked_foldl_reach (mem_newAdds.mpr ⟨hv, hmarked⟩) ?_
    rw [((allowed_advances propositions index p s).trans
      (relaxed_advances propositions index p s)).size]
    exact hsize

/-- The first application leaves the additions together. -/
theorem together_applyAction {propositions : List VarId} {index : Nat} {p : Profile} {s : State}
    (hfirst : s.fired.getD index false = false) :
    Together p (applyAction propositions index p s).mutex := by
  have hfired : (excluded propositions p s).fired = s.fired :=
    (excluded_adjusts propositions p s).advances.fired
  obtain ⟨-, -, hstart, hacross, hend⟩ :=
    allowAdds_spec p p.startAdds (excluded propositions p s)
  have hkeep := (foldl_allowOld propositions p (oldAdds p s)
    (allowAdds p (excluded propositions p s) p.startAdds)).2
  have heq : (applyAction propositions index p s).mutex
      = ((oldAdds p s).foldl (allowOld propositions p)
          (allowAdds p (excluded propositions p s) p.startAdds)).mutex := by
    rw [applyAction_eq]
    show ((newAdds p s).foldl State.reach _).mutex = _
    rw [mutex_foldl_reach, relaxed, allowed, hfirst]
    rfl
  rw [heq]
  -- the later stages only take pairs away
  refine ⟨hstart.imp (hkeep.mutex _ _), fun v hv hkept w hw => ?_, hend.imp (hkeep.mutex _ _)⟩
  exact hkeep.mutex _ _ (hacross v hv hkept w hw)

/-- When an application counts nothing, all additions have been reached, and whatever is mutex
with one of them is deleted or mutex with a condition. -/
theorem settled_of_applyAction {propositions : List VarId} {index : Nat} {p : Profile} {s : State}
    (hw : (applyAction propositions index p s).work ≤ s.work) {v : VarId} (hv : v ∈ p.adds) :
    isMarked s.reached v = true ∧
      ∀ q ∈ propositions, s.mutex.contains v q = true → MayExclude p s.mutex q := by
  have hallowed := allowed_advances propositions index p s
  have hrelaxed := relaxed_advances propositions index p s
  rw [applyAction_eq] at hw
  change ((newAdds p s).foldl State.reach (relaxed propositions index p s)).work ≤ s.work at hw
  -- no stage counts anything, so each of them sees the propositions and pairs of `s`
  have hle := hallowed.work_le
  have hle' := hrelaxed.work_le
  have hle'' := (foldl_reach_advances (newAdds p s) (relaxed propositions index p s)).work_le
  obtain ⟨-, hmutex⟩ := hallowed.eq_of_work_le (by omega)
  obtain ⟨hreached, -⟩ := (hallowed.trans hrelaxed).eq_of_work_le (by omega)
  have hmarked : isMarked s.reached v = true := by
    by_contra hnot
    rw [Bool.not_eq_true] at hnot
    have hnew := isMarked_of_foldl_reach (s := relaxed propositions index p s) (by omega)
      (mem_newAdds.mpr ⟨hv, hnot⟩)
    rw [hreached, hnot] at hnew
    cases hnew
  refine ⟨hmarked, fun q hq hvq => ?_⟩
  have hold : v ∈ oldAdds p s := by
    refine List.mem_filter.mpr ⟨hv, ?_⟩
    rw [Bool.not_eq_true', List.contains_eq_mem, decide_eq_false_iff_not, mem_newAdds, hmarked]
    exact fun h => Bool.noConfusion h.2
  rw [← hmutex] at hvq ⊢
  refine mayExclude_of_foldl_allowOld ?_ hold hq hvq
  change (relaxed propositions index p s).work ≤ _
  omega

end TemporalPlanning.Mutex
