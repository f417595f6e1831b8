import Mathlib.Tactic.ByContra
import TemporalPlanning.Proofs.Mutex.Marks
import TemporalPlanning.Proofs.Mutex.Pairs
/-!
What applying an action can do to the state of the mutex computation.

The relation grows and shrinks while the passes run, so nothing monotone can be said about all of
its pairs. What is monotone is `State.Advances`: reachable propositions stay reachable, and two
reachable propositions that are not mutex never become mutex, because a pair is only ever made
mutex together with a proposition that has not been reached before. Every step also either leaves
propositions and pairs exactly as they are or is counted, which is `State.Advances.counted`.

The second half says what an action leaves behind. `Together` holds of the relation once an action
has been applied for the first time, and `Supported` holds when applying it again counts nothing.
-/
set_option autoImplicit false

namespace TemporalPlanning.Mutex

/-! ## Folds whose steps are related -/

section Folds

variable {σ α : Type} {R : σ → σ → Prop} (hrefl : ∀ s, R s s)
  (htrans : ∀ {s s' s''}, R s s' → R s' s'' → R s s'') {f : σ → α → σ} {l : List α} {s : σ}
include hrefl htrans

/-- A fold is related to its start if its steps are. -/
theorem foldl_rel (h : ∀ s', R s s' → ∀ a ∈ l, R s' (f s' a)) : R s (l.foldl f s) :=
  List.foldlRecOn l f (hrefl s) fun s' hs' a ha => htrans hs' (h s' hs' a ha)

/-- Every step of a fold happens somewhere between its start and its end. -/
theorem exists_step_of_mem (h : ∀ s' a, a ∈ l → R s' (f s' a)) {a : α} (ha : a ∈ l) :
    ∃ s', R s s' ∧ R (f s' a) (l.foldl f s) := by
  obtain ⟨before, after, rfl⟩ := List.append_of_mem ha
  refine ⟨before.foldl f s, foldl_rel hrefl htrans fun s' _ b hb => h s' b (by simp [hb]), ?_⟩
  rw [List.foldl_append, List.foldl_cons]
  exact foldl_rel hrefl htrans fun s' _ b hb => h s' b (by simp [hb])

end Folds

namespace State

/-! ## Steps that only go forward -/

/-- All that has been counted in the current pass. -/
def work (s : State) : Nat := s.newPropositions + s.changes

/-- One state comes from another by applying actions. -/
structure Continues (s s' : State) : Prop where
  reached : ∀ v, isMarked s.reached v = true → isMarked s'.reached v = true
  /-- Reachable propositions do not become mutex, and no proposition is mutex with itself. -/
  apart : ∀ v w, (v = w ∨ (isMarked s.reached v = true ∧ isMarked s.reached w = true)) →
    s.mutex.contains v w = false → s'.mutex.contains v w = false
  reachedBefore : s'.reachedBefore = s.reachedBefore
  size : s'.reached.size = s.reached.size
  /-- What is not counted leaves propositions and pairs as they are. -/
  counted : (s'.reached = s.reached ∧ s'.mutex = s.mutex ∧ s'.work = s.work) ∨ s.work < s'.work

namespace Continues

theorem refl (s : State) : Continues s s :=
  ⟨fun _ h => h, fun _ _ _ h => h, rfl, rfl, Or.inl ⟨rfl, rfl, rfl⟩⟩

theorem work_le {s s' : State} (h : Continues s s') : s.work ≤ s'.work := by
  rcases h.counted with ⟨-, -, hw⟩ | hw <;> omega

theorem trans {s s' s'' : State} (h : Continues s s') (h' : Continues s' s'') :
    Continues s s'' where
  reached v hv := h'.reached v (h.reached v hv)
  apart v w hvw hopen :=
    h'.apart v w (hvw.imp_right fun ⟨hv, hw⟩ => ⟨h.reached v hv, h.reached w hw⟩)
      (h.apart v w hvw hopen)
  reachedBefore := h'.reachedBefore.trans h.reachedBefore
  size := h'.size.trans h.size
  counted := by
    rcases h.counted with ⟨hr, hm, hw⟩ | hw
    · rcases h'.counted with ⟨hr', hm', hw'⟩ | hw'
      · exact Or.inl ⟨hr'.trans hr, hm'.trans hm, hw'.trans hw⟩
      · exact Or.inr (by omega)
    · -- what has been counted once stays counted
      have hle := h'.work_le
      exact Or.inr (by omega)

/-- Steps along which nothing is counted change neither propositions nor pairs. -/
theorem eq_of_work_le {s s' : State} (h : Continues s s') (hw : s'.work ≤ s.work) :
    s'.reached = s.reached ∧ s'.mutex = s.mutex := by
  rcases h.counted with ⟨hr, hm, -⟩ | hlt
  · exact ⟨hr, hm⟩
  · omega

/-- If a fold of such steps counts nothing, then each of its steps has been taken from the
propositions and pairs of the start, and has counted nothing itself. -/
theorem exists_idle_step {α : Type} {R : State → State → Prop} (hrefl : ∀ s, R s s)
    (htrans : ∀ {s s' s''}, R s s' → R s' s'' → R s s'')
    (hcontinues : ∀ {s s'}, R s s' → Continues s s') {f : State → α → State} {l : List α}
    {s : State} (h : ∀ s' a, a ∈ l → R s' (f s' a)) (hw : (l.foldl f s).work ≤ s.work) {a : α}
    (ha : a ∈ l) :
    ∃ s', R s s' ∧ R (f s' a) (l.foldl f s) ∧ s'.reached = s.reached ∧ s'.mutex = s.mutex ∧
      (f s' a).work ≤ s'.work := by
  obtain ⟨s', hbefore, hafter⟩ := exists_step_of_mem hrefl htrans (s := s) h ha
  -- `work` never sinks, so between two equal values it has not moved
  have hle := (hcontinues hbefore).work_le
  have hle' := (hcontinues (h s' a ha)).work_le
  have hle'' := (hcontinues hafter).work_le
  obtain ⟨hreached, hmutex⟩ := (hcontinues hbefore).eq_of_work_le (by omega)
  exact ⟨s', hbefore, hafter, hreached, hmutex, by omega⟩

end Continues

/-- One state comes from another within the application of an action, which is recorded last. -/
structure Advances (s s' : State) : Prop extends Continues s s' where
  fired : s'.fired = s.fired

namespace Advances

theorem refl (s : State) : Advances s s := ⟨Continues.refl s, rfl⟩

theorem trans {s s' s'' : State} (h : Advances s s') (h' : Advances s' s'') : Advances s s'' :=
  ⟨h.toContinues.trans h'.toContinues, h'.fired.trans h.fired⟩

theorem foldl {α : Type} {f : State → α → State} {l : List α} {s : State}
    (h : ∀ s' a, a ∈ l → Advances s' (f s' a)) : Advances s (l.foldl f s) :=
  foldl_rel refl trans fun s' _ => h s'

/-- The steps of a fold that counts nothing. -/
theorem exists_idle_step {α : Type} {f : State → α → State} {l : List α} {s : State}
    (h : ∀ s' a, a ∈ l → Advances s' (f s' a)) (hw : (l.foldl f s).work ≤ s.work) {a : α}
    (ha : a ∈ l) :
    ∃ s' : State, s'.reached = s.reached ∧ s'.mutex = s.mutex ∧ (f s' a).work ≤ s'.work := by
  obtain ⟨s', -, -, hreached, hmutex, hidle⟩ :=
    Continues.exists_idle_step refl trans Advances.toContinues h hw ha
  exact ⟨s', hreached, hmutex, hidle⟩

end Advances

/-! ## Single changes -/

theorem addMutex_advances (s : State) {v : VarId} (hv : isMarked s.reached v = false)
    (w : VarId) : Advances s (s.addMutex v w) where
  reached _ h := h
  apart a b hab hopen := by
    rw [← Bool.not_eq_true] at hopen ⊢
    show ¬(s.mutex.insert v w).1.contains a b = true
    rw [Relation.contains_insert]
    rintro (h | ⟨hne, heq⟩)
    · exact hopen h
    · -- one of `a`, `b` is the proposition that has not been reached
      rcases Relation.pair_eq_iff.mp heq with ⟨rfl, rfl⟩ | ⟨rfl, rfl⟩
      · rcases hab with h | ⟨h, -⟩
        · exact hne h
        · rw [hv] at h; cases h
      · rcases hab with h | ⟨-, h⟩
        · exact hne h.symm
        · rw [hv] at h; cases h
  reachedBefore := rfl
  size := rfl
  fired := rfl
  counted := by
    cases hc : (s.mutex.insert v w).2 with
    | false => exact Or.inl ⟨rfl, Relation.insert_eq_self _ _ _ hc, by simp [work, addMutex, hc]⟩
    | true => exact Or.inr (by simp only [work, addMutex, hc, Bool.toNat_true]; omega)

/-- A pair that was mutex and no longer is counts. -/
theorem work_lt_deleteMutex (s : State) {v w : VarId} (h : s.mutex.contains v w = true) :
    s.work < (s.deleteMutex v w).work := by
  have hc : (s.mutex.erase v w).2 = true := by rw [Relation.erase, if_pos h]
  simp only [work, deleteMutex, hc, Bool.toNat_true]
  omega

theorem deleteMutex_advances (s : State) (v w : VarId) : Advances s (s.deleteMutex v w) where
  reached _ h := h
  apart a b _ hopen := by
    rw [← Bool.not_eq_true] at hopen ⊢
    exact fun h => hopen ((Relation.contains_erase _ _ _ _ _).mp h).1
  reachedBefore := rfl
  size := rfl
  fired := rfl
  counted := by
    cases hc : (s.mutex.erase v w).2 with
    | false => exact Or.inl ⟨rfl, Relation.erase_eq_self _ _ _ hc, by simp [work, deleteMutex, hc]⟩
    | true => exact Or.inr (by simp only [work, deleteMutex, hc, Bool.toNat_true]; omega)

/-- A proposition that becomes reachable counts. -/
theorem work_lt_reach (s : State) {v : VarId} (h : isMarked s.reached v = false) :
    s.work < (s.reach v).work := by
  simp only [reach, h, work, Bool.false_eq_true, if_false]
  omega

theorem reach_advances (s : State) (v : VarId) : Advances s (s.reach v) := by
  by_cases hv : isMarked s.reached v = true
  · rw [reach, if_pos hv]
    exact Advances.refl s
  · rw [Bool.not_eq_true] at hv
    refine ⟨⟨fun w hw => ?_, fun _ _ _ h => ?_, ?_, ?_, Or.inr (s.work_lt_reach hv)⟩, ?_⟩ <;>
      simp only [reach, hv, Bool.false_eq_true, if_false]
    · exact (isMarked_set _ _ _).mpr (Or.inl hw)
    · exact h
    · exact Array.size_setIfInBounds

/-- The relation only loses pairs, and propositions stay as they are. -/
structure Relaxes (s s' : State) : Prop where
  reached : s'.reached = s.reached
  mutex : ∀ v w, s.mutex.contains v w = false → s'.mutex.contains v w = false

namespace Relaxes

theorem refl (s : State) : Relaxes s s := ⟨rfl, fun _ _ h => h⟩

theorem trans {s s' s'' : State} (h : Relaxes s s') (h' : Relaxes s' s'') : Relaxes s s'' :=
  ⟨h'.reached.trans h.reached, fun v w hvw => h'.mutex v w (h.mutex v w hvw)⟩

theorem foldl {α : Type} {f : State → α → State} {l : List α} {s : State}
    (h : ∀ s' a, a ∈ l → Relaxes s' (f s' a)) : Relaxes s (l.foldl f s) :=
  foldl_rel refl trans fun s' _ => h s'

end Relaxes

theorem deleteMutex_relaxes (s : State) (v w : VarId) : Relaxes s (s.deleteMutex v w) :=
  ⟨rfl, fun a b h => by
    rw [← Bool.not_eq_true] at h ⊢
    exact fun hab => h ((Relation.contains_erase _ _ _ _ _).mp hab).1⟩

/-- What is made not mutex with a list of propositions is not mutex with any of them. -/
theorem foldl_deleteMutex (s : State) (v : VarId) (l : List VarId) :
    Advances s (l.foldl (fun s w => s.deleteMutex v w) s) ∧
      Relaxes s (l.foldl (fun s w => s.deleteMutex v w) s) ∧
      ∀ w ∈ l, (l.foldl (fun s w => s.deleteMutex v w) s).mutex.contains v w = false := by
  refine ⟨Advances.foldl fun s' w _ => s'.deleteMutex_advances v w,
    Relaxes.foldl fun s' w _ => s'.deleteMutex_relaxes v w, ?_⟩
  induction l generalizing s with
  | nil => simp
  | cons a l ih =>
    intro w hw
    rw [List.foldl_cons]
    rcases List.mem_cons.mp hw with rfl | hw
    · -- removed here, and nothing is inserted afterwards
      refine (Relaxes.foldl fun s' w' _ => s'.deleteMutex_relaxes v w').mutex _ _ ?_
      exact Relation.contains_erase_self _ _ _
    · exact ih _ w hw

end State

open State

/-! ## What an action leaves behind -/

/-- Propositions that an action adds together are not mutex: those of one time point, and those
at start that it does not delete with those at end. -/
structure Together (p : Profile) (r : Relation) : Prop where
  atStart : p.startAdds.Pairwise fun v w => r.contains v w = false
  across : ∀ v ∈ p.startAdds, v ∉ p.deletes → ∀ w ∈ p.endAdds, r.contains v w = false
  atEnd : p.endAdds.Pairwise fun v w => r.contains v w = false

theorem allowTogether_spec (l : List VarId) (s : State) :
    Advances s (allowTogether s l) ∧ Relaxes s (allowTogether s l) ∧
      l.Pairwise fun v w => (allowTogether s l).mutex.contains v w = false := by
  induction l generalizing s with
  | nil => exact ⟨Advances.refl s, Relaxes.refl s, List.Pairwise.nil⟩
  | cons v rest ih =>
    obtain ⟨hadv, hrel, hnot⟩ := foldl_deleteMutex s v rest
    obtain ⟨hadv', hrel', hpair⟩ := ih (rest.foldl (fun s w => s.deleteMutex v w) s)
    refine ⟨hadv.trans hadv', hrel.trans hrel', List.Pairwise.cons (fun w hw => ?_) hpair⟩
    exact hrel'.mutex _ _ (hnot w hw)

/-- The result of `allowAdds`, for a tail of the additions at start. -/
theorem allowAdds_spec (p : Profile) (l : List VarId) (s : State) :
    Advances s (allowAdds p s l) ∧ Relaxes s (allowAdds p s l) ∧
      l.Pairwise (fun v w => (allowAdds p s l).mutex.contains v w = false) ∧
      (∀ v ∈ l, v ∉ p.deletes → ∀ w ∈ p.endAdds,
        (allowAdds p s l).mutex.contains v w = false) ∧
      p.endAdds.Pairwise fun v w => (allowAdds p s l).mutex.contains v w = false := by
  induction l generalizing s with
  | nil =>
    obtain ⟨hadv, hrel, hpair⟩ := allowTogether_spec p.endAdds s
    exact ⟨hadv, hrel, List.Pairwise.nil, by simp, hpair⟩
  | cons v rest ih =>
    obtain ⟨hadv, hrel, hnot⟩ := foldl_deleteMutex s v rest
    rw [allowAdds]
    -- what is added at start but deleted need not hold with what is added at end
    by_cases hdel : p.deletes.contains v = true
    · rw [if_pos hdel]
      obtain ⟨hadv', hrel', hstart, hacross, hend⟩ :=
        ih (rest.foldl (fun s w => s.deleteMutex v w) s)
      refine ⟨hadv.trans hadv', hrel.trans hrel',
        List.Pairwise.cons (fun w hw => hrel'.mutex _ _ (hnot w hw)) hstart, ?_, hend⟩
      intro u hu hkept w hw
      rcases List.mem_cons.mp hu with rfl | hu
      · exact absurd (List.contains_iff_mem.mp hdel) hkept
      · exact hacross u hu hkept w hw
    · rw [if_neg hdel]
      obtain ⟨hadv', hrel', hnot'⟩ :=
        foldl_deleteMutex (rest.foldl (fun s w => s.deleteMutex v w) s) v p.endAdds
      obtain ⟨hadv'', hrel'', hstart, hacross, hend⟩ :=
        ih (p.endAdds.foldl (fun s w => s.deleteMutex v w)
          (rest.foldl (fun s w => s.deleteMutex v w) s))
      refine ⟨(hadv.trans hadv').trans hadv'', (hrel.trans hrel').trans hrel'',
        List.Pairwise.cons (fun w hw => (hrel'.trans hrel'').mutex _ _ (hnot w hw)) hstart,
        ?_, hend⟩
      intro u hu hkept w hw
      rcases List.mem_cons.mp hu with rfl | hu
      · exact hrel''.mutex _ _ (hnot' w hw)
      · exact hacross u hu hkept w hw

/-- Steps that only change the relation. -/
structure Adjusts (s s' : State) : Prop where
  advances : Advances s s'
  reached : s'.reached = s.reached

namespace Adjusts

theorem refl (s : State) : Adjusts s s := ⟨Advances.refl s, rfl⟩

theorem trans {s s' s'' : State} (h : Adjusts s s') (h' : Adjusts s' s'') : Adjusts s s'' :=
  ⟨h.advances.trans h'.advances, h'.reached.trans h.reached⟩

theorem foldl {α : Type} {f : State → α → State} {l : List α} {s : State}
    (h : ∀ s', s'.reached = s.reached → ∀ a ∈ l, Adjusts s' (f s' a)) :
    Adjusts s (l.foldl f s) :=
  List.foldlRecOn l f (refl s) fun s' hs' a ha => hs'.trans (h s' hs'.reached a ha)

/-- A pair may become mutex if one of its propositions has not been reached. -/
theorem addMutex_if (s : State) {v : VarId} (hv : isMarked s.reached v = false) (w : VarId)
    (b : Bool) : Adjusts s (if b then s.addMutex v w else s) := by
  split
  · exact ⟨s.addMutex_advances hv w, rfl⟩
  · exact refl s

end Adjusts

/-- Reaching a proposition for the first time makes pairs only with that proposition, which has
not been reached, so nothing that is reached becomes mutex. -/
theorem excludeNew_adjusts (propositions : List VarId) (p : Profile)
    (deletes conditions : List VarId) {s : State} {new : VarId}
    (hnew : isMarked s.reached new = false) :
    Adjusts s (excludeNew propositions p deletes conditions s new) := by
  have hdeletes : Adjusts s (deletes.foldl (fun s d =>
      if p.conditions.contains d || p.startAdds.contains d then s.addMutex new d else s) s) :=
    Adjusts.foldl fun s' hs' d _ => Adjusts.addMutex_if s' (by rw [hs']; exact hnew) d _
  refine hdeletes.trans (Adjusts.foldl fun s' hs' c _ => Adjusts.foldl fun s'' hs'' q _ => ?_)
  have hnew'' : isMarked s''.reached new = false := by rw [hs'', hs', hdeletes.reached]; exact hnew
  exact Adjusts.addMutex_if s'' hnew'' q _

/-- Whether an old addition and another proposition may remain mutex. -/
def MayExclude (p : Profile) (r : Relation) (q : VarId) : Prop :=
  q ∈ p.deletes ∨ ∃ c ∈ p.conditions, r.contains c q = true

theorem allowOld_advances (propositions : List VarId) (p : Profile) (s : State) (old : VarId) :
    Advances s (allowOld propositions p s old) ∧ Relaxes s (allowOld propositions p s old) := by
  constructor
  · refine Advances.foldl fun s' q _ => ?_
    split
    · exact s'.deleteMutex_advances old q
    · exact Advances.refl s'
  · refine Relaxes.foldl fun s' q _ => ?_
    split
    · exact s'.deleteMutex_relaxes old q
    · exact Relaxes.refl s'

/-- When nothing is counted, every proposition that is mutex with the old addition is deleted or
mutex with a condition. -/
theorem mayExclude_of_allowOld {propositions : List VarId} {p : Profile} {s : State} {old : VarId}
    (hw : (allowOld propositions p s old).work ≤ s.work) {q : VarId} (hq : q ∈ propositions)
    (hmutex : s.mutex.contains old q = true) : MayExclude p s.mutex q := by
  have hstep : ∀ s' : State, ∀ q : VarId, Advances s'
      (if s'.mutex.contains old q && !p.deletes.contains q
          && !p.conditions.any (fun c => s'.mutex.contains c q) then s'.deleteMutex old q
        else s') := by
    intro s' q
    split
    · exact s'.deleteMutex_advances old q
    · exact Advances.refl s'
  obtain ⟨s', -, hsame, hidle⟩ := Advances.exists_idle_step (fun s' q _ => hstep s' q) hw hq
  by_contra hnot
  -- otherwise the pair would have been removed in `s'`, and this would have been counted
  have hfire : (s'.mutex.contains old q && !p.deletes.contains q
      && !p.conditions.any (fun c => s'.mutex.contains c q)) = true := by
    rw [MayExclude, not_or, not_exists] at hnot
    rw [hsame]
    simp only [hmutex, Bool.true_and, Bool.and_eq_true, Bool.not_eq_true', List.any_eq_false,
      List.contains_eq_mem, decide_eq_false_iff_not]
    exact ⟨hnot.1, fun c hc h => hnot.2 c ⟨hc, h⟩⟩
  rw [if_pos hfire] at hidle
  have hlt : s'.work < (s'.deleteMutex old q).work :=
    s'.work_lt_deleteMutex (by rw [hsame]; exact hmutex)
  omega

end TemporalPlanning.Mutex
