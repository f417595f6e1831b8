import TemporalPlanning.Proofs.Mutex.Soundness
/-!
What has been found when the computation stops by itself.

The conditions, additions and deletions of an action are given here by its literals instead of its
profile: it requires the propositions that some condition asks to be other than false, adds those
that some effect makes true, and deletes those that some effect gives another value.

An action `MayFire` if all it requires has been reached and is pairwise not mutex. When the
computation has stopped by itself, whatever is mutex with an addition of such an action is deleted
by it or mutex with something it requires (`deletes_or_excluded_of_contains`), and the additions of
such an action have been reached, provided that some proposition is true at the beginning
(`reached_of_mayFire`). Without such a proposition no pass is made and nothing is reached, although
an action that requires nothing may fire, as `exists_unreached_addition` shows.
-/
set_option autoImplicit false

namespace TemporalPlanning.Mutex

open Grounded

variable (t : Task)

/-! ## Literals of an action -/

/-- Some condition of an action asks a proposition to be other than false. -/
def Requires (a : Action) (v : VarId) : Prop :=
  t.isProposition v = true ∧ ∃ c ∈ a.conditions, c.var = v ∧ c.value ≠ .falsity

/-- Some effect of an action makes a proposition true. -/
def Adds (a : Action) (v : VarId) : Prop :=
  t.isProposition v = true ∧ ∃ e ∈ a.startEffects ++ a.endEffects, e.var = v ∧ e.value = .truth

/-- Some effect of an action gives a proposition another value than true. -/
def Deletes (a : Action) (v : VarId) : Prop :=
  t.isProposition v = true ∧ ∃ e ∈ a.startEffects ++ a.endEffects, e.var = v ∧ e.value ≠ .truth

/-- As far as a state knows, all that an action requires can be true together. -/
structure MayFire (s : State) (a : Action) : Prop where
  reached : ∀ v, Requires t a v → isMarked s.reached v = true
  apart : ∀ v w, Requires t a v → Requires t a w → v ≠ w → s.mutex.contains v w = false

section Profiles

variable {t} (ht : t.IsNumbered) {a : Action} {v : VarId}
include ht

theorem mem_conditions : v ∈ (profile t a).conditions ↔ Requires t a v := by
  show v ∈ required (propositions t) (a.startConditions ++ a.invariants)
    ++ required (propositions t) a.endConditions ↔ _
  rw [List.mem_append, mem_required ht, mem_required ht]
  simp only [Requires, Action.conditions, List.mem_append (t := a.endConditions)]
  constructor
  · rintro (⟨c, hc, hvar, hprop, hval⟩ | ⟨c, hc, hvar, hprop, hval⟩)
    · exact ⟨hprop, c, Or.inl hc, hvar, hval⟩
    · exact ⟨hprop, c, Or.inr hc, hvar, hval⟩
  · rintro ⟨hprop, c, hc | hc, hvar, hval⟩
    · exact Or.inl ⟨c, hc, hvar, hprop, hval⟩
    · exact Or.inr ⟨c, hc, hvar, hprop, hval⟩

theorem mem_adds : v ∈ (profile t a).adds ↔ Adds t a v := by
  show v ∈ added (propositions t) a.startEffects ++ added (propositions t) a.endEffects ↔ _
  rw [List.mem_append, mem_added ht, mem_added ht, ← and_or_left, Adds]
  simp only [List.mem_append, or_and_right, exists_or]

theorem mem_deletes : v ∈ (profile t a).deletes ↔ Deletes t a v := by
  show v ∈ deleted (propositions t) a.startEffects ++ deleted (propositions t) a.endEffects ↔ _
  rw [List.mem_append, mem_deleted ht, mem_deleted ht, ← and_or_left, Deletes]
  simp only [List.mem_append, or_and_right, exists_or]

/-- The two ways of asking whether an action can be executed agree, since nothing is mutex with
itself. -/
theorem plausible_of_mayFire {s : State} (hs : BetweenPasses t s) (h : MayFire t s a) :
    Plausible (profile t a) s := by
  refine ⟨fun c hc => h.reached c ((mem_conditions ht).mp hc), fun c hc d hd => ?_⟩
  by_cases hcd : c = d
  · exact hs.apart c d (Or.inl hcd)
  · exact h.apart c d ((mem_conditions ht).mp hc) ((mem_conditions ht).mp hd) hcd

theorem mayFire_of_conditions {s : State}
    (h : ∀ c ∈ (profile t a).conditions, isMarked s.reached c = true ∧
      ∀ d ∈ (profile t a).conditions, s.mutex.contains c d = false) : MayFire t s a :=
  ⟨fun v hv => (h v ((mem_conditions ht).mpr hv)).1, fun v w hv hw _ =>
    (h v ((mem_conditions ht).mpr hv)).2 w ((mem_conditions ht).mpr hw)⟩

end Profiles

/-! ## Pairs -/

variable {t}

/-- **What is mutex with an addition has a reason.** When the computation has stopped by itself, a
proposition that is mutex with an addition of an action that may fire is deleted by the action or
mutex with something it requires. -/
theorem deletes_or_excluded_of_contains (ht : t.IsNumbered) {limit : Nat}
    (hquiet : (fixpoint t limit).isQuiet = true) {a : Action} (ha : a ∈ t.actions)
    (hfire : MayFire t (fixpoint t limit) a) {l q : VarId} (hl : Adds t a l)
    (hq : t.isProposition q = true) (hlq : (fixpoint t limit).mutex.contains l q = true) :
    Deletes t a q ∨ ∃ c, Requires t a c ∧ (fixpoint t limit).mutex.contains c q = true := by
  rcases closed_fixpoint t hquiet with hclosed | hempty
  · have hplausible := plausible_of_mayFire ht (betweenPasses_fixpoint t limit) hfire
    have haccounts := hclosed a ha hplausible
    rcases haccounts.supported l ((mem_adds ht).mpr hl) q ((isMarked_propositions ht q).mpr hq) hlq
      with hdel | ⟨c, hc, hcq⟩
    · exact Or.inl ((mem_deletes ht).mp hdel)
    · exact Or.inr ⟨c, (mem_conditions ht).mp hc, hcq⟩
  · rw [hempty] at hlq
    cases hlq

open Lifted in
/-- Requires `r` and adds `p`. -/
def lift : Operator :=
  .ofHappenings "lift" ⟨[.ofProposition 1 .truth], [], [], []⟩
    ⟨[], [], [.ofProposition 2 .truth], []⟩

/-- What the computation finds for `swap` and `lift`. -/
theorem exists_lift_run : ∃ (t : Task), ∃ a ∈ t.actions,
    Grounding.ground (swapping [swap, lift]) true = .ok t ∧ t.IsNumbered ∧
      (initialState t).isQuiet = false ∧ (fixpoint t 10).isQuiet = true ∧
      MayFire t (fixpoint t 10) a ∧ Adds t a ⟨2⟩ ∧ ¬Deletes t a ⟨0⟩ ∧ t.isProposition ⟨0⟩ = true ∧
      (fixpoint t 10).mutex.contains ⟨2⟩ ⟨0⟩ = true := by
  have hrun : ∃ t ∈ (Grounding.ground (swapping [swap, lift]) true).toOption, ∃ a ∈ t.actions,
      (initialState t).isQuiet = false ∧ (fixpoint t 10).isQuiet = true ∧
      (∀ c ∈ (profile t a).conditions, isMarked (fixpoint t 10).reached c = true ∧
        ∀ d ∈ (profile t a).conditions, (fixpoint t 10).mutex.contains c d = false) ∧
      ⟨2⟩ ∈ (profile t a).adds ∧ ⟨0⟩ ∉ (profile t a).deletes ∧ t.isProposition ⟨0⟩ = true ∧
      (fixpoint t 10).mutex.contains ⟨2⟩ ⟨0⟩ = true := by
    decide +kernel
  obtain ⟨t, hground, a, ha, hpass, hquiet, hconditions, hadds, hkept, hprop, hmutex⟩ := hrun
  have hground := Grounding.eq_ok_of_mem_toOption hground
  have ht := (Grounding.ground_isOrderly hground).numbered
  exact ⟨t, a, ha, hground, ht, hpass, hquiet, mayFire_of_conditions ht hconditions,
    (mem_adds ht).mp hadds, fun h => hkept ((mem_deletes ht).mpr h), hprop, hmutex⟩

/-- `p` is mutex with `s`, which `lift` does not delete, since `r` is. -/
theorem excluded_of_lift : ∃ (t : Task), ∃ a ∈ t.actions,
    Grounding.ground (swapping [swap, lift]) true = .ok t ∧ (fixpoint t 10).isQuiet = true ∧
      MayFire t (fixpoint t 10) a ∧ Adds t a ⟨2⟩ ∧ ¬Deletes t a ⟨0⟩ ∧
      (fixpoint t 10).mutex.contains ⟨2⟩ ⟨0⟩ = true ∧
      ∃ c, Requires t a c ∧ (fixpoint t 10).mutex.contains c ⟨0⟩ = true := by
  obtain ⟨t, a, ha, hground, ht, -, hquiet, hfire, hadds, hkept, hprop, hmutex⟩ := exists_lift_run
  rcases deletes_or_excluded_of_contains ht hquiet ha hfire hadds hprop hmutex with h | h
  · exact absurd h hkept
  · exact ⟨t, a, ha, hground, hquiet, hfire, hadds, hkept, hmutex, h⟩

/-! ## Reachable propositions -/

variable (t) in
/-- Some fact, at whatever time, makes a proposition true. -/
def IsInitiallyTrue (v : VarId) : Prop :=
  t.isProposition v = true ∧
    ∃ entry, t.vars[v.index]? = some entry ∧
      ∃ time, (time, Value.object .truth) ∈ entry.initialValues

/-- A pass is made if some proposition is true at the beginning, and only then: these propositions
are what is counted before the first pass. -/
theorem isQuiet_initialState :
    (initialState t).isQuiet = false ↔ ∃ v, IsInitiallyTrue t v := by
  have hquiet : (initialState t).isQuiet = false ↔ (initialState t).newPropositions ≠ 0 := by
    simp [State.isQuiet, initialState]
  rw [hquiet, initialState, ne_eq, List.length_eq_zero_iff, List.filter_eq_nil_iff]
  push Not
  constructor
  · rintro ⟨entry, hentry, hinitial⟩
    rw [Bool.and_eq_true, List.any_eq_true] at hinitial
    obtain ⟨hpred, ⟨time, value⟩, hmem, hvalue⟩ := hinitial
    obtain ⟨i, hi⟩ := List.mem_iff_getElem?.mp hentry
    rw [Array.getElem?_toList] at hi
    refine ⟨⟨i⟩, ?_, entry, hi, time, ?_⟩
    · rw [Task.isProposition, hi]
      exact hpred
    · cases value with
      | number x => simp [Value.object?] at hvalue
      | object o =>
        rw [beq_iff_eq, Value.object?, Option.some.injEq] at hvalue
        rw [← hvalue]
        exact hmem
  · rintro ⟨v, hprop, entry, hentry, time, hmem⟩
    refine ⟨entry, ?_, ?_⟩
    · exact Array.mem_toList_iff.mpr (Array.mem_of_getElem? hentry)
    · rw [Task.isProposition, hentry] at hprop
      rw [Bool.and_eq_true, List.any_eq_true]
      exact ⟨hprop, _, hmem, by simp [Value.object?]⟩

/-- A computation that makes a pass stops by itself in a closed state only. -/
theorem closed_fixpoint_of_pass (hpass : (initialState t).isQuiet = false) {limit : Nat}
    (hquiet : (fixpoint t limit).isQuiet = true) : Closed t (fixpoint t limit) := by
  have h : BetweenPasses t (fixpoint t limit) ∧ ((fixpoint t limit).isQuiet = true →
      Closed t (fixpoint t limit)) :=
    run_induction t (P := fun s => BetweenPasses t s ∧ (s.isQuiet = true → Closed t s))
      (fun _ h => ⟨h.1.pass, closed_of_isQuiet h.1⟩) limit
      ⟨betweenPasses_initialState t, fun hq => by rw [hpass] at hq; cases hq⟩
  exact h.2 hquiet

/-- Nothing is reached without a pass. -/
theorem isMarked_fixpoint_of_no_pass (hpass : (initialState t).isQuiet = true) (limit : Nat)
    (v : VarId) : isMarked (fixpoint t limit).reached v = false := by
  have hstop : fixpoint t limit = initialState t := by
    rw [fixpoint, run_of_isQuiet hpass]
  have hnone : (initialState t).newPropositions = 0 := by
    simp only [State.isQuiet, Bool.and_eq_true, beq_iff_eq] at hpass
    exact hpass.1
  rw [initialState, List.length_eq_zero_iff] at hnone
  rw [hstop, initialState]
  dsimp only
  rw [hnone, List.foldl_nil, isMarked, getD_replicate]

/-- **Reachable propositions are closed**, if some proposition is true at the beginning. When the
computation has stopped by itself, what is true at the beginning has been reached, and so have the
additions of the actions that may fire; but nothing has been reached if nothing is true at the
beginning, whatever the actions add. -/
theorem reached_of_mayFire (ht : t.IsNumbered) {limit : Nat}
    (hquiet : (fixpoint t limit).isQuiet = true) :
    (∀ v, IsInitiallyTrue t v → isMarked (fixpoint t limit).reached v = true) ∧
      ((∃ v, IsInitiallyTrue t v) → ∀ a ∈ t.actions, MayFire t (fixpoint t limit) a →
        ∀ v, Adds t a v → isMarked (fixpoint t limit).reached v = true) ∧
      ((¬∃ v, IsInitiallyTrue t v) → ∀ v, isMarked (fixpoint t limit).reached v = false) := by
  have hbetween := betweenPasses_fixpoint t limit
  refine ⟨fun v ⟨hprop, entry, hentry, time, hmem⟩ => ?_, fun hinitial a ha hfire v hv => ?_,
    fun hnone v => ?_⟩
  · exact hbetween.initial v (isMarked_initialState ht hentry hprop hmem)
  · have hclosed := closed_fixpoint_of_pass (isQuiet_initialState.mpr hinitial) hquiet
    exact (hclosed a ha (plausible_of_mayFire ht hbetween hfire)).reached v ((mem_adds ht).mpr hv)
  · refine isMarked_fixpoint_of_no_pass ?_ limit v
    rw [← isQuiet_initialState, Bool.not_eq_false] at hnone
    exact hnone

/-- `swap` reaches `r` and `lift` then reaches `p`. -/
theorem reached_of_lift : ∃ (t : Task), ∃ a ∈ t.actions,
    Grounding.ground (swapping [swap, lift]) true = .ok t ∧ (fixpoint t 10).isQuiet = true ∧
      (∃ v, IsInitiallyTrue t v) ∧ MayFire t (fixpoint t 10) a ∧ Adds t a ⟨2⟩ ∧
      isMarked (fixpoint t 10).reached ⟨2⟩ = true := by
  obtain ⟨t, a, ha, hground, ht, hpass, hquiet, hfire, hadds, -⟩ := exists_lift_run
  have hinitial := isQuiet_initialState.mp hpass
  exact ⟨t, a, ha, hground, hquiet, hinitial, hfire, hadds,
    (reached_of_mayFire ht hquiet).2.1 hinitial a ha hfire ⟨2⟩ hadds⟩

open Lifted in
/-- Has its first proposition while it is executed and its second one afterwards. -/
def alternate : Operator :=
  .ofHappenings "alternate" ⟨[], [], [.ofProposition 0 .truth, .ofProposition 1 .falsity], []⟩
    ⟨[], [], [.ofProposition 0 .falsity, .ofProposition 1 .truth], []⟩

/-- Nothing is true at the beginning, so the computation stops before its first pass, and what an
action adds that requires nothing is not reached. -/
theorem exists_unreached_addition : ∃ (t : Task), ∃ a ∈ t.actions,
    Grounding.ground ⟨.ofPropositions ["p", "q"] [], [alternate]⟩ true = .ok t ∧ t.IsNumbered ∧
      (fixpoint t 10).isQuiet = true ∧ MayFire t (fixpoint t 10) a ∧ Adds t a ⟨0⟩ ∧
      isMarked (fixpoint t 10).reached ⟨0⟩ = false := by
  have hrun : ∃ t ∈ (Grounding.ground ⟨.ofPropositions ["p", "q"] [], [alternate]⟩ true).toOption,
      ∃ a ∈ t.actions, (fixpoint t 10).isQuiet = true ∧ (profile t a).conditions = [] ∧
        ⟨0⟩ ∈ (profile t a).adds ∧ isMarked (fixpoint t 10).reached ⟨0⟩ = false := by
    decide +kernel
  obtain ⟨t, hground, a, ha, hquiet, hconditions, hadds, hunreached⟩ := hrun
  have hground := Grounding.eq_ok_of_mem_toOption hground
  have ht := (Grounding.ground_isOrderly hground).numbered
  refine ⟨t, a, ha, hground, ht, hquiet, mayFire_of_conditions ht fun c hc => ?_,
    (mem_adds ht).mp hadds, hunreached⟩
  rw [hconditions] at hc
  cases hc

end TemporalPlanning.Mutex
