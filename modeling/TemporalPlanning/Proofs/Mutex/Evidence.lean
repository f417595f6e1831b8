import Mathlib.Logic.Function.Iterate
import TemporalPlanning.Proofs.Mutex.Convergence
/-!
What an applied action has shown stays so.

An action is applied when its conditions have been reached and are pairwise not mutex, and its first
application makes what it adds together not mutex. Other actions insert pairs later on, in the same
pass and in the following ones. They insert them for propositions that have not been reached,
though, so from one point of the computation to a later one, reached propositions stay reached, and
two of them that are not mutex stay so: this is `Follows`.

A `Point` lies between two looks at actions. Points go on forever, as if passes were made without
end; the computation stops at one of them (`fixpoint_eq_afterPasses`).
-/
set_option autoImplicit false

namespace TemporalPlanning.Mutex

open Grounded State

/-! ## Points of the computation -/

/-- The numbers of complete passes and of looks at actions since then. -/
structure Point where
  passes : Nat
  looks : Nat

namespace Point

/-- One point is not later than another. -/
def Precedes (p q : Point) : Prop :=
  p.passes < q.passes ∨ (p.passes = q.passes ∧ p.looks ≤ q.looks)

/-- The point after the next look. -/
def next (p : Point) : Point := ⟨p.passes, p.looks + 1⟩

end Point

variable (t : Task)

/-- The state after a number of passes. -/
def afterPasses (n : Nat) : State := (pass t)^[n] (initialState t)

/-- The state at a point. -/
def stateAt (p : Point) : State :=
  (t.actions.zipIdx.take p.looks).foldl (check t) (opened (afterPasses t p.passes))

theorem afterPasses_succ (n : Nat) : afterPasses t (n + 1) = pass t (afterPasses t n) :=
  Function.iterate_succ_apply' _ _ _

/-- After as many looks as there are actions, a pass is over. -/
theorem stateAt_eq_passed {p : Point} (h : t.actions.length ≤ p.looks) :
    stateAt t p = passed t (afterPasses t p.passes) := by
  have hall : t.actions.zipIdx.take p.looks = t.actions.zipIdx := by
    apply List.take_of_length_le
    rw [List.length_zipIdx]
    exact h
  rw [stateAt, hall]
  rfl

/-- The state after a look. -/
theorem stateAt_next {p : Point} {a : Action} (ha : t.actions[p.looks]? = some a) :
    stateAt t p.next = check t (stateAt t p) (a, p.looks) := by
  have hlook : t.actions.zipIdx[p.looks]? = some (a, p.looks) := by
    rw [List.getElem?_zipIdx, ha]
    simp
  rw [stateAt, stateAt, Point.next, List.take_add_one, hlook, Option.toList_some,
    List.foldl_append]
  rfl

theorem betweenPasses_afterPasses (n : Nat) : BetweenPasses t (afterPasses t n) := by
  induction n with
  | zero => exact betweenPasses_initialState t
  | succ n ih =>
    rw [afterPasses_succ]
    exact ih.pass

/-- The passes that a computation makes. -/
theorem run_eq_iterate (limit : Nat) (s : State) :
    (run t limit s).1 = (pass t)^[(run t limit s).2] s := by
  induction limit generalizing s with
  | zero => rfl
  | succ limit ih =>
    rw [run]
    split
    · rfl
    · show (run t limit (pass t s)).1 = (pass t)^[(run t limit (pass t s)).2 + 1] s
      rw [ih (pass t s), Function.iterate_succ_apply]

/-- The computation stops after some number of passes. -/
theorem fixpoint_eq_afterPasses (limit : Nat) :
    fixpoint t limit = afterPasses t (run t limit (initialState t)).2 :=
  run_eq_iterate t limit (initialState t)

/-! ## From one point to a later one -/

/-- Reached propositions stay reached, and those that are not mutex stay so. -/
structure Follows (s s' : State) : Prop where
  reached : ∀ v, isMarked s.reached v = true → isMarked s'.reached v = true
  apart : ∀ v w, (v = w ∨ (isMarked s.reached v = true ∧ isMarked s.reached w = true)) →
    s.mutex.contains v w = false → s'.mutex.contains v w = false

namespace Follows

theorem refl (s : State) : Follows s s := ⟨fun _ h => h, fun _ _ _ h => h⟩

theorem trans {s s' s'' : State} (h : Follows s s') (h' : Follows s' s'') : Follows s s'' := by
  refine ⟨fun v hv => h'.reached v (h.reached v hv), fun v w hvw hopen => ?_⟩
  refine h'.apart v w (hvw.imp_right ?_) (h.apart v w hvw hopen)
  rintro ⟨hv, hw⟩
  exact ⟨h.reached v hv, h.reached w hw⟩

end Follows

theorem State.Continues.follows {s s' : State} (h : Continues s s') : Follows s s' :=
  ⟨h.reached, h.apart⟩

variable {t}

/-- Looks at a list of actions of the task. -/
theorem foldl_check_sustains {l : List (Action × Nat)} (hl : ∀ b ∈ l, b ∈ t.actions.zipIdx)
    (s : State) : Sustains t s (l.foldl (check t) s) :=
  foldl_rel (Sustains.refl t) Sustains.trans fun s' _ b hb => check_sustains t s' (hl b hb)

/-- Within a pass, more looks lead on. -/
theorem stateAt_sustains (n : Nat) {k k' : Nat} (h : k ≤ k') :
    Sustains t (stateAt t ⟨n, k⟩) (stateAt t ⟨n, k'⟩) := by
  have hsplit : t.actions.zipIdx.take k'
      = t.actions.zipIdx.take k ++ (t.actions.zipIdx.take k').drop k := by
    calc t.actions.zipIdx.take k'
        = (t.actions.zipIdx.take k').take k ++ (t.actions.zipIdx.take k').drop k :=
          (List.take_append_drop k _).symm
      _ = t.actions.zipIdx.take k ++ (t.actions.zipIdx.take k').drop k := by
          rw [List.take_take, Nat.min_eq_left h]
  have hstate : stateAt t ⟨n, k'⟩
      = ((t.actions.zipIdx.take k').drop k).foldl (check t) (stateAt t ⟨n, k⟩) := by
    rw [stateAt, stateAt]
    nth_rewrite 1 [hsplit]
    exact List.foldl_append
  rw [hstate]
  exact foldl_check_sustains
    (fun b hb => List.mem_of_mem_take (List.mem_of_mem_drop hb)) (stateAt t ⟨n, k⟩)

/-- The next pass starts with the propositions and pairs with which the last one has ended. -/
theorem stateAt_follows_pass (n k : Nat) :
    Follows (stateAt t ⟨n, k⟩) (stateAt t ⟨n + 1, 0⟩) := by
  have hrest : Follows (stateAt t ⟨n, k⟩) (stateAt t ⟨n, k + t.actions.length⟩) :=
    (stateAt_sustains n (Nat.le_add_right k _)).continues.follows
  have hend : stateAt t ⟨n, k + t.actions.length⟩ = passed t (afterPasses t n) :=
    stateAt_eq_passed t (Nat.le_add_left _ k)
  have hstart : stateAt t ⟨n + 1, 0⟩ = opened (pass t (afterPasses t n)) := by
    rw [← afterPasses_succ]
    rfl
  rw [hend] at hrest
  rw [hstart]
  exact ⟨hrest.reached, hrest.apart⟩

/-- **Later points follow earlier ones**, within a pass and across passes. -/
theorem stateAt_follows {p q : Point} (h : p.Precedes q) :
    Follows (stateAt t p) (stateAt t q) := by
  obtain ⟨n, k⟩ := p
  obtain ⟨m, l⟩ := q
  have hpasses : ∀ d, Follows (stateAt t ⟨n, k⟩) (stateAt t ⟨n + d + 1, 0⟩) := by
    intro d
    induction d with
    | zero => exact stateAt_follows_pass n k
    | succ d ih => exact ih.trans (stateAt_follows_pass (n + d + 1) 0)
  rcases h with hlt | ⟨heq, hle⟩
  · obtain ⟨d, rfl⟩ : ∃ d, m = n + d + 1 := Nat.exists_eq_add_of_lt hlt
    exact (hpasses d).trans (stateAt_sustains _ (Nat.zero_le l)).continues.follows
  · obtain rfl : n = m := heq
    exact (stateAt_sustains n hle).continues.follows

/-! ## What holds at every point -/

theorem recorded_stateAt (p : Point) : Recorded t (stateAt t p) := by
  have hopened : Recorded t (stateAt t ⟨p.passes, 0⟩) := by
    have h := (betweenPasses_afterPasses t p.passes).recorded
    exact ⟨h.size, h.fired⟩
  exact (stateAt_sustains p.passes (Nat.zero_le p.looks)).recorded hopened

/-- No proposition is mutex with itself. -/
theorem irrefl_stateAt (p : Point) (v : VarId) : (stateAt t p).mutex.contains v v = false := by
  have hopened : (stateAt t ⟨p.passes, 0⟩).mutex.contains v v = false :=
    (betweenPasses_afterPasses t p.passes).apart v v (Or.inl rfl)
  exact (stateAt_sustains p.passes (Nat.zero_le p.looks)).continues.apart v v (Or.inl rfl) hopened

/-- What has been reached before the pass has been reached. -/
theorem reached_of_reachedBefore {p : Point} {v : VarId}
    (h : isMarked (stateAt t p).reachedBefore v = true) :
    isMarked (stateAt t p).reached v = true := by
  have hlooks := (stateAt_sustains (t := t) p.passes (Nat.zero_le p.looks)).continues
  apply hlooks.reached
  rw [hlooks.reachedBefore] at h
  have hbefore := (betweenPasses_afterPasses t p.passes).before
  exact hbefore ▸ h

/-! ## Applied actions -/

theorem pairwise_of_anyPair_eq_false {α : Type} {related : α → α → Bool} {l : List α}
    (h : anyPair related l = false) : l.Pairwise fun a b => related a b = false := by
  induction l with
  | nil => exact List.Pairwise.nil
  | cons a rest ih =>
    rw [anyPair, Bool.or_eq_false_iff, List.any_eq_false] at h
    refine List.Pairwise.cons (fun b hb => ?_) (ih h.2)
    exact Bool.eq_false_iff.mpr (h.1 b hb)

/-- In a relation that is irreflexive, a list without mutex pairs has none in any order. -/
theorem contains_eq_false_of_pairwise {r : Relation} (hirrefl : ∀ v, r.contains v v = false)
    {l : List VarId} (h : l.Pairwise fun v w => r.contains v w = false) {v w : VarId}
    (hv : v ∈ l) (hw : w ∈ l) : r.contains v w = false := by
  have : Std.Symm fun v w => r.contains v w = false := by
    constructor
    intro a b hab
    rw [Relation.contains_comm]
    exact hab
  exact h.forall_of_forall (fun u _ => hirrefl u) hv hw

variable (t)

/-- At some look before a point, an action has passed the check of its conditions. -/
def HasFired (a : Action) (p : Point) : Prop :=
  ∃ q : Point, t.actions[q.looks]? = some a ∧ isApplicable (profile t a) (stateAt t q) = true ∧
    q.next.Precedes p

/-- Some effect at the start of an action makes a proposition true. -/
def AddsAtStart (a : Action) (v : VarId) : Prop :=
  t.isProposition v = true ∧ ∃ e ∈ a.startEffects, e.var = v ∧ e.value = .truth

/-- Some effect at the end of an action makes a proposition true. -/
def AddsAtEnd (a : Action) (v : VarId) : Prop :=
  t.isProposition v = true ∧ ∃ e ∈ a.endEffects, e.var = v ∧ e.value = .truth

/-- Nothing that an execution of an action shows to be possible together is mutex: what the action
requires, what it adds at one time, and what it adds at its start and does not delete with what it
adds at its end. -/
structure Evidenced (a : Action) (r : Relation) : Prop where
  conditions : ∀ v w, Requires t a v → Requires t a w → r.contains v w = false
  atStart : ∀ v w, AddsAtStart t a v → AddsAtStart t a w → r.contains v w = false
  atEnd : ∀ v w, AddsAtEnd t a v → AddsAtEnd t a w → r.contains v w = false
  across : ∀ v w, AddsAtStart t a v → ¬Deletes t a v → AddsAtEnd t a w → r.contains v w = false

variable {t}

/-- When an action passes the check, its conditions are reached and not mutex. -/
theorem plausible_of_isApplicable {a : Action} {p : Point}
    (h : isApplicable (profile t a) (stateAt t p) = true) :
    Plausible (profile t a) (stateAt t p) := by
  rw [isApplicable, Bool.and_eq_true, List.all_eq_true, Bool.not_eq_true'] at h
  obtain ⟨hreached, hpairs⟩ := h
  refine ⟨fun c hc => reached_of_reachedBefore (hreached c hc), fun c hc d hd => ?_⟩
  exact contains_eq_false_of_pairwise (irrefl_stateAt p) (pairwise_of_anyPair_eq_false hpairs) hc hd

/-- What an action leaves behind at the look at which it fires. -/
theorem accounts_of_isApplicable {a : Action} {p : Point} (ha : t.actions[p.looks]? = some a)
    (h : isApplicable (profile t a) (stateAt t p) = true) :
    Plausible (profile t a) (stateAt t p.next) ∧
      (∀ v ∈ (profile t a).adds, isMarked (stateAt t p.next).reached v = true) ∧
      Together (profile t a) (stateAt t p.next).mutex := by
  have hmem : (a, p.looks) ∈ t.actions.zipIdx := List.mk_mem_zipIdx_iff_getElem?.mpr ha
  have hmet := plausible_of_isApplicable h
  have happlied : stateAt t p.next
      = applyAction (marked (propositions t)) p.looks (profile t a) (stateAt t p) := by
    rw [stateAt_next t ha]
    exact if_pos h
  have hnext : Follows (stateAt t p) (stateAt t p.next) := by
    rw [happlied]
    exact (applyAction_continues _ _ _ _).follows
  refine ⟨⟨fun c hc => hnext.reached c (hmet.reached c hc), fun c hc d hd => ?_⟩, ?_⟩
  · exact hnext.apart c d (Or.inr ⟨hmet.reached c hc, hmet.reached d hd⟩)
      (hmet.apart c hc d hd)
  · rw [happlied]
    exact (recorded_stateAt p).applied hmem

theorem evidenced_of_hasFired (ht : t.IsNumbered) {a : Action} {p : Point}
    (h : HasFired t a p) : Evidenced t a (stateAt t p).mutex := by
  obtain ⟨q, ha, happlicable, hqp⟩ := h
  obtain ⟨hmet, hreached, htogether⟩ := accounts_of_isApplicable ha happlicable
  have hlater := stateAt_follows (t := t) hqp
  have hirrefl := irrefl_stateAt (t := t) q.next
  have hstart : ∀ {v}, AddsAtStart t a v → v ∈ (profile t a).startAdds :=
    fun hv => (mem_added ht).mpr hv
  have hend : ∀ {v}, AddsAtEnd t a v → v ∈ (profile t a).endAdds :=
    fun hv => (mem_added ht).mpr hv
  have hstart' : ∀ {v}, AddsAtStart t a v → isMarked (stateAt t q.next).reached v = true :=
    fun hv => hreached _ (List.mem_append_left _ (hstart hv))
  have hend' : ∀ {v}, AddsAtEnd t a v → isMarked (stateAt t q.next).reached v = true :=
    fun hv => hreached _ (List.mem_append_right _ (hend hv))
  constructor
  · intro v w hv hw
    have hv' := (mem_conditions ht).mpr hv
    have hw' := (mem_conditions ht).mpr hw
    exact hlater.apart v w (Or.inr ⟨hmet.reached v hv', hmet.reached w hw'⟩)
      (hmet.apart v hv' w hw')
  · intro v w hv hw
    exact hlater.apart v w (Or.inr ⟨hstart' hv, hstart' hw⟩)
      (contains_eq_false_of_pairwise hirrefl htogether.atStart (hstart hv) (hstart hw))
  · intro v w hv hw
    exact hlater.apart v w (Or.inr ⟨hend' hv, hend' hw⟩)
      (contains_eq_false_of_pairwise hirrefl htogether.atEnd (hend hv) (hend hw))
  · intro v w hv hkept hw
    refine hlater.apart v w (Or.inr ⟨hstart' hv, hend' hw⟩) ?_
    exact htogether.across v (hstart hv) (fun h => hkept ((mem_deletes ht).mp h)) w (hend hw)

/-- **What an applied action has shown to be possible is never mutex again.** From the look on at
which an action has passed the check, its conditions are pairwise not mutex, and neither is what it
adds together. In general, two propositions that are reached and not mutex at some point are not
mutex at any later one. The computation ends at one of these points, so its result keeps what all
actions have shown until then. -/
theorem evidence_is_kept (ht : t.IsNumbered) :
    (∀ (a : Action) (p : Point), HasFired t a p → Evidenced t a (stateAt t p).mutex) ∧
      (∀ (p q : Point) (v w : VarId), p.Precedes q →
        isMarked (stateAt t p).reached v = true → isMarked (stateAt t p).reached w = true →
        (stateAt t p).mutex.contains v w = false → (stateAt t q).mutex.contains v w = false) ∧
      ∀ limit : Nat, fixpoint t limit = afterPasses t (run t limit (initialState t)).2 ∧
        ∀ a : Action, HasFired t a ⟨(run t limit (initialState t)).2, 0⟩ →
          Evidenced t a (fixpoint t limit).mutex := by
  refine ⟨fun a p h => evidenced_of_hasFired ht h, fun p q v w hpq hv hw hopen => ?_,
    fun limit => ⟨fixpoint_eq_afterPasses t limit, fun a h => ?_⟩⟩
  · exact (stateAt_follows hpq).apart v w (Or.inr ⟨hv, hw⟩) hopen
  · rw [fixpoint_eq_afterPasses]
    exact evidenced_of_hasFired ht h

open Lifted in
/-- Requires `s` and `r`, adds `p` at its start and `q` at its end, and deletes `s`. -/
def merge : Operator :=
  .ofHappenings "merge"
    ⟨[.ofProposition 0 .truth, .ofProposition 1 .truth], [], [.ofProposition 2 .truth], []⟩
    ⟨[], [], [.ofProposition 0 .falsity, .ofProposition 3 .truth], []⟩

/-- After `merge` has fired in the first pass, neither `s` and `r` nor `p` and `q` are mutex in the
second one, and the latter stay so in the third one. -/
theorem evidence_of_merge : ∃ (t : Task) (a : Action),
    Grounding.ground ⟨.ofPropositions ["s", "r", "p", "q"] [0, 1], [merge]⟩ true = .ok t ∧
      t.IsNumbered ∧ HasFired t a ⟨1, 0⟩ ∧
      (stateAt t ⟨1, 0⟩).mutex.contains ⟨0⟩ ⟨1⟩ = false ∧
      (stateAt t ⟨1, 0⟩).mutex.contains ⟨2⟩ ⟨3⟩ = false ∧
      (stateAt t ⟨2, 1⟩).mutex.contains ⟨2⟩ ⟨3⟩ = false := by
  have hrun : ∃ t ∈ (Grounding.ground
      ⟨.ofPropositions ["s", "r", "p", "q"] [0, 1], [merge]⟩ true).toOption,
      ∃ a ∈ t.actions[0]?, isApplicable (profile t a) (stateAt t ⟨0, 0⟩) = true ∧
        ⟨0⟩ ∈ (profile t a).conditions ∧ ⟨1⟩ ∈ (profile t a).conditions ∧
        ⟨2⟩ ∈ (profile t a).startAdds ∧ ⟨2⟩ ∉ (profile t a).deletes ∧
        ⟨3⟩ ∈ (profile t a).endAdds ∧ isMarked (stateAt t ⟨1, 0⟩).reached ⟨2⟩ = true ∧
        isMarked (stateAt t ⟨1, 0⟩).reached ⟨3⟩ = true := by
    decide +kernel
  obtain ⟨t, hmem, a, ha, happlicable, hs, hr, hp, hkept, hq, hp', hq'⟩ := hrun
  have hground := Grounding.eq_ok_of_mem_toOption hmem
  have ht := (Grounding.ground_isOrderly hground).numbered
  have hfired : HasFired t a ⟨1, 0⟩ := ⟨⟨0, 0⟩, ha, happlicable, Or.inl (by decide)⟩
  obtain ⟨hevidence, hkeep, -⟩ := evidence_is_kept ht
  have hmerge := hevidence a ⟨1, 0⟩ hfired
  have hadds := hmerge.across ⟨2⟩ ⟨3⟩ ((mem_added ht).mp hp)
    (fun h => hkept ((mem_deletes ht).mpr h)) ((mem_added ht).mp hq)
  refine ⟨t, a, hground, ht, hfired, ?_, hadds, ?_⟩
  · exact hmerge.conditions ⟨0⟩ ⟨1⟩ ((mem_conditions ht).mp hs) ((mem_conditions ht).mp hr)
  · exact hkeep ⟨1, 0⟩ ⟨2, 1⟩ ⟨2⟩ ⟨3⟩ (Or.inl (by decide)) hp' hq' hadds

end TemporalPlanning.Mutex
