import Mathlib.Data.List.Pairwise
import TemporalPlanning.Lifted.Basic
import TemporalPlanning.Proofs.Grounding.WellFormed
import TemporalPlanning.Proofs.Mutex.Closure
/-!
Mutex propositions never hold together.

The result of a computation that has stopped by itself is compared with the runs of the task.
`Consistent` relates it to one valuation: what is true has been reached, and no two true
propositions are mutex. The initial valuation is consistent, since a pair of initial propositions
is never made mutex, and executing an action keeps consistency. In that step the propositions that
are true afterwards are sorted by where they come from: an addition at end, an addition at start
that the end leaves alone, or the valuation before. Pairs of additions are `Together`; a pair of an
addition and an old proposition would need a deletion or a condition that is mutex with the old one.

The computation treats conditions at end like conditions at start. So the step is proved for actions
that find true, when they start, whatever they require to be true (`IsForeseen`); without this it
fails, as `exists_mutex_both_true` shows.
-/
set_option autoImplicit false

namespace TemporalPlanning.Mutex

open Grounded

variable {t : Task}

/-- A proposition with true among its initial values is reachable from the beginning. -/
theorem isMarked_initialState (ht : t.IsNumbered) {w : VarId} {v : Variable}
    (hv : t.vars[w.index]? = some v) (hprop : t.isProposition w = true) {time : Float}
    (hinit : (time, Value.object .truth) ∈ v.initialValues) :
    isMarked (initialState t).reached w = true := by
  have hpred : t.task.isPredicate v.function = true := by
    simpa only [Task.isProposition, hv] using hprop
  rw [initialState]
  dsimp only
  rw [List.foldl_filter, isMarked_foldl]
  refine Or.inr ?_
  rw [Array.size_replicate, exists_mem_vars_iff ht]
  refine ⟨v, hv, ?_⟩
  rw [hpred, Bool.true_and, List.any_eq_true]
  exact ⟨_, hinit, by simp [Value.object?]⟩

/-! ## Valuations that agree with the computation -/

/-- What is true has been reached, and nothing that is true together is mutex. -/
structure Consistent (t : Task) (s : State) (x : Valuation) : Prop where
  reached : ∀ v, t.isProposition v = true → x.IsTrue v → isMarked s.reached v = true
  apart : ∀ v w, t.isProposition v = true → t.isProposition w = true → x.IsTrue v → x.IsTrue w →
    s.mutex.contains v w = false

theorem consistent_of_isInitial (ht : t.IsNumbered) {s : State} (hs : BetweenPasses t s)
    {x : Valuation} (hx : t.IsInitial x) : Consistent t s x := by
  have hmarked : ∀ v, t.isProposition v = true → x.IsTrue v →
      isMarked (initialState t).reached v = true := by
    intro v hprop htrue
    obtain ⟨entry, hentry, time, hinit, -⟩ := hx.sound v _ htrue
    exact isMarked_initialState ht hentry hprop hinit
  exact ⟨fun v hv htrue => hs.initial v (hmarked v hv htrue), fun v w hv hw hvtrue hwtrue =>
    hs.apart v w (Or.inr ⟨hmarked v hv hvtrue, hmarked w hw hwtrue⟩)⟩

/-! ## Executions that the computation accounts for -/

/-- An execution finds the conditions as the computation reads them: whatever a condition requires
to be other than false is true when the action starts, and no proposition that is made true at
start is given another value as well. -/
structure IsForeseen (t : Task) (x : Valuation) (a : Action) : Prop where
  conditions : ∀ c ∈ a.conditions, t.isProposition c.var = true → c.value ≠ .falsity →
    x.IsTrue c.var
  startEffects : ∀ d ∈ a.startEffects, ∀ e ∈ a.startEffects, t.isProposition d.var = true →
    d.value = .truth → e.var = d.var → e.value = .truth

/-- Some ordinary action leads from one valuation to another as foreseen. -/
def ForeseenStep (t : Task) (x y : Valuation) : Prop :=
  ∃ a ∈ t.actions, t.Executes x a y ∧ IsForeseen t x a

section Membership

variable (ht : t.IsNumbered) {v : VarId}
include ht

theorem mem_required {cs : List Condition} :
    v ∈ required (propositions t) cs ↔
      ∃ c ∈ cs, c.var = v ∧ t.isProposition v = true ∧ c.value ≠ .falsity := by
  simp only [required, List.mem_map, List.mem_filter, Bool.and_eq_true, isMarked_propositions ht,
    bne_iff_ne]
  constructor
  · rintro ⟨c, ⟨hc, hp, hval⟩, rfl⟩
    exact ⟨c, hc, rfl, hp, hval⟩
  · rintro ⟨c, hc, rfl, hp, hval⟩
    exact ⟨c, ⟨hc, hp, hval⟩, rfl⟩

theorem mem_added {es : List Condition} :
    v ∈ added (propositions t) es ↔
      t.isProposition v = true ∧ ∃ e ∈ es, e.var = v ∧ e.value = .truth := by
  simp only [added, List.mem_map, List.mem_filter, Bool.and_eq_true, isMarked_propositions ht,
    beq_iff_eq]
  constructor
  · rintro ⟨e, ⟨he, hp, hval⟩, rfl⟩
    exact ⟨hp, e, he, rfl, hval⟩
  · rintro ⟨hp, e, he, rfl, hval⟩
    exact ⟨e, ⟨he, hp, hval⟩, rfl⟩

theorem mem_deleted {es : List Condition} :
    v ∈ deleted (propositions t) es ↔
      t.isProposition v = true ∧ ∃ e ∈ es, e.var = v ∧ e.value ≠ .truth := by
  simp only [deleted, List.mem_map, List.mem_filter, Bool.and_eq_true, isMarked_propositions ht,
    bne_iff_ne]
  constructor
  · rintro ⟨e, ⟨he, hp, hval⟩, rfl⟩
    exact ⟨hp, e, he, rfl, hval⟩
  · rintro ⟨hp, e, he, rfl, hval⟩
    exact ⟨e, ⟨he, hp, hval⟩, rfl⟩

end Membership

/-- Conditions of a foreseen execution are true propositions when the action starts. -/
theorem IsForeseen.isTrue (ht : t.IsNumbered) {x : Valuation} {a : Action}
    (h : IsForeseen t x a) {c : VarId} (hc : c ∈ (profile t a).conditions) :
    t.isProposition c = true ∧ x.IsTrue c := by
  have hrequired : ∀ {cs : List Condition}, (∀ d ∈ cs, d ∈ a.conditions) →
      c ∈ required (propositions t) cs → t.isProposition c = true ∧ x.IsTrue c := by
    intro cs hcs hmem
    obtain ⟨d, hd, rfl, hprop, hval⟩ := (mem_required ht).mp hmem
    exact ⟨hprop, h.conditions d (hcs d hd) hprop hval⟩
  rcases List.mem_append.mp hc with hc | hc
  · exact hrequired (fun d hd => List.mem_append_left _ hd) hc
  · exact hrequired (fun d hd => List.mem_append_right _ hd) hc

/-- Where a proposition that is true after an execution comes from. -/
theorem origin_of_isTrue (ht : t.IsNumbered) {x y : Valuation} {a : Action}
    (h : IsForeseen t x a) (hexec : t.Executes x a y) {v : VarId}
    (hprop : t.isProposition v = true) (htrue : y.IsTrue v) :
    v ∈ (profile t a).endAdds ∨
      (v ∈ (profile t a).startAdds ∧ v ∉ (profile t a).deletes) ∨
      (x.IsTrue v ∧ v ∉ (profile t a).deletes) := by
  rw [Valuation.IsTrue, hexec.after] at htrue
  -- from the end backwards: an effect at end, an effect at start, or the valuation before
  rcases Valuation.apply_eq_some _ htrue with ⟨e, he, rfl, hval⟩ | ⟨hend, htrue⟩
  · exact Or.inl ((mem_added ht).mpr ⟨hprop, e, he, rfl, hval⟩)
  · have hnotEnd : v ∉ (profile t a).endDeletes := fun hdel => by
      obtain ⟨-, e, he, hvar, -⟩ := (mem_deleted ht).mp hdel
      exact hend e he hvar
    rcases Valuation.apply_eq_some _ htrue with ⟨d, hd, rfl, hval⟩ | ⟨hstart, htrue⟩
    · refine Or.inr (Or.inl ⟨(mem_added ht).mpr ⟨hprop, d, hd, rfl, hval⟩, fun hdel => ?_⟩)
      rcases List.mem_append.mp hdel with hdel | hdel
      · -- added and deleted at start: excluded for foreseen executions
        obtain ⟨-, e, he, hvar, hother⟩ := (mem_deleted ht).mp hdel
        exact hother (h.startEffects d hd e he hprop hval hvar)
      · exact hnotEnd hdel
    · refine Or.inr (Or.inr ⟨htrue, fun hdel => ?_⟩)
      rcases List.mem_append.mp hdel with hdel | hdel
      · obtain ⟨-, e, he, hvar, -⟩ := (mem_deleted ht).mp hdel
        exact hstart e he hvar
      · exact hnotEnd hdel

/-- Nothing that an action adds is mutex with an old true proposition that it does not delete. -/
theorem apart_of_old (ht : t.IsNumbered) {s : State} {x : Valuation} {a : Action}
    (hx : Consistent t s x) (hforeseen : IsForeseen t x a) (haccounts : Accounts t s a)
    {v w : VarId} (hv : v ∈ (profile t a).adds) (hw : t.isProposition w = true)
    (htrue : x.IsTrue w) (hkept : w ∉ (profile t a).deletes) :
    s.mutex.contains v w = false := by
  by_contra hvw
  rw [Bool.not_eq_false] at hvw
  rcases haccounts.supported v hv w ((isMarked_propositions ht w).mpr hw) hvw with hdel | hcond
  · exact hkept hdel
  · obtain ⟨c, hc, hcw⟩ := hcond
    obtain ⟨hprop, hctrue⟩ := hforeseen.isTrue ht hc
    rw [hx.apart c w hprop hw hctrue htrue] at hcw
    cases hcw

/-- **One execution keeps consistency**, provided the computation has stopped in a closed state. -/
theorem Consistent.step (ht : t.IsNumbered) {s : State} (hclosed : Closed t s)
    (hirrefl : ∀ v, s.mutex.contains v v = false) {x y : Valuation} (hx : Consistent t s x)
    (hstep : ForeseenStep t x y) : Consistent t s y := by
  obtain ⟨a, ha, hexec, hforeseen⟩ := hstep
  -- the conditions are true in `x`, which is consistent, so the computation has applied the action
  have hplausible : Plausible (profile t a) s := by
    refine ⟨fun c hc => ?_, fun c hc d hd => ?_⟩
    · obtain ⟨hprop, htrue⟩ := hforeseen.isTrue ht hc
      exact hx.reached c hprop htrue
    · obtain ⟨hprop, htrue⟩ := hforeseen.isTrue ht hc
      obtain ⟨hprop', htrue'⟩ := hforeseen.isTrue ht hd
      exact hx.apart c d hprop hprop' htrue htrue'
  have haccounts := hclosed a ha hplausible
  have hsymm : ∀ {v w : VarId}, s.mutex.contains v w = false → s.mutex.contains w v = false := by
    intro v w hvw
    rw [Relation.contains_comm]
    exact hvw
  have : Std.Symm fun v w => s.mutex.contains v w = false := ⟨fun _ _ => hsymm⟩
  have hold : ∀ {v w : VarId}, v ∈ (profile t a).adds → t.isProposition w = true →
      x.IsTrue w → w ∉ (profile t a).deletes → s.mutex.contains v w = false :=
    fun hv hw htrue hkept => apart_of_old ht hx hforeseen haccounts hv hw htrue hkept
  have hstartAdd : ∀ {v : VarId}, v ∈ (profile t a).startAdds → v ∈ (profile t a).adds :=
    fun hv => List.mem_append_left _ hv
  have hendAdd : ∀ {v : VarId}, v ∈ (profile t a).endAdds → v ∈ (profile t a).adds :=
    fun hv => List.mem_append_right _ hv
  refine ⟨fun v hv htrue => ?_, fun v w hv hw hvtrue hwtrue => ?_⟩
  · rcases origin_of_isTrue ht hforeseen hexec hv htrue with h | ⟨h, -⟩ | ⟨h, -⟩
    · exact haccounts.reached v (hendAdd h)
    · exact haccounts.reached v (hstartAdd h)
    · exact hx.reached v hv h
  · -- by origin: added at end, added at start and kept, or old and kept
    have hvorigin := origin_of_isTrue ht hforeseen hexec hv hvtrue
    have hworigin := origin_of_isTrue ht hforeseen hexec hw hwtrue
    rcases hvorigin with hv' | ⟨hv', hvkept⟩ | ⟨hv', hvkept⟩ <;>
    rcases hworigin with hw' | ⟨hw', hwkept⟩ | ⟨hw', hwkept⟩
    · exact haccounts.together.atEnd.forall_of_forall (fun u _ => hirrefl u) hv' hw'
    · exact hsymm (haccounts.together.across w hw' hwkept v hv')
    · exact hold (hendAdd hv') hw hw' hwkept
    · exact haccounts.together.across v hv' hvkept w hw'
    · exact haccounts.together.atStart.forall_of_forall (fun u _ => hirrefl u) hv' hw'
    · exact hold (hstartAdd hv') hw hw' hwkept
    · exact hsymm (hold (hendAdd hw') hv hv' hvkept)
    · exact hsymm (hold (hstartAdd hw') hv hv' hvkept)
    · exact hx.apart v w hv hw hv' hw'

/-- A foreseen run reaches consistent valuations only. -/
theorem consistent_of_foreseen_run (ht : t.IsNumbered) {s : State} (hbetween : BetweenPasses t s)
    (hclosed : Closed t s) {x₀ x : Valuation} (hinit : t.IsInitial x₀)
    (hrun : Relation.ReflTransGen (ForeseenStep t) x₀ x) : Consistent t s x := by
  induction hrun with
  | refl => exact consistent_of_isInitial ht hbetween hinit
  | tail _ hstep ih =>
    exact ih.step ht hclosed (fun u => hbetween.apart u u (Or.inl rfl)) hstep

/-! ## Grounded tasks -/

/-- **Mutex propositions are never both true**: in a grounded task for which the computation has
stopped by itself, along every run of executions that the computation accounts for. -/
theorem not_both_true_of_contains {p : Lifted.Problem} {keepStatic : Bool} {limit : Nat}
    (hground : Grounding.ground p keepStatic = .ok t)
    (hquiet : (fixpoint t limit).isQuiet = true) {x₀ x : Valuation} (hinit : t.IsInitial x₀)
    (hrun : Relation.ReflTransGen (ForeseenStep t) x₀ x) {v w : VarId}
    (hv : t.isProposition v = true) (hw : t.isProposition w = true)
    (hvw : (fixpoint t limit).mutex.contains v w = true) : ¬(x.IsTrue v ∧ x.IsTrue w) := by
  rintro ⟨hvtrue, hwtrue⟩
  have ht := (Grounding.ground_isOrderly hground).numbered
  rcases closed_fixpoint t hquiet with hclosed | hempty
  · have hx := consistent_of_foreseen_run ht (betweenPasses_fixpoint t limit) hclosed hinit hrun
    rw [hx.apart v w hv hw hvtrue hwtrue] at hvw
    cases hvw
  · rw [hempty] at hvw
    cases hvw

open Lifted in
/-- Swaps `s` for `r`. -/
def swap : Operator :=
  .ofHappenings "swap" ⟨[.ofProposition 0 .truth], [], [], []⟩
    ⟨[], [], [.ofProposition 0 .falsity, .ofProposition 1 .truth], []⟩

open Lifted in
/-- Makes `r` true at its end, where it requires what it has made true at its start. -/
def grab : Operator :=
  .ofHappenings "grab" ⟨[], [], [.ofProposition 2 .truth], []⟩
    ⟨[.ofProposition 2 .truth], [], [.ofProposition 1 .truth], []⟩

open Lifted in
/-- Swaps `s` for `p` and, at its end, `r`, but gives `p` both truth values at its start. -/
def waver : Operator :=
  .ofHappenings "waver"
    ⟨[.ofProposition 0 .truth], [], [.ofProposition 0 .falsity, .ofProposition 2 .falsity],
      [⟨.assign, ⟨⟨2⟩, []⟩, .atom (.term (.object .truth))⟩]⟩
    ⟨[], [], [.ofProposition 1 .truth], []⟩

/-- The propositions `s`, `r` and `p`, of which `s` holds at the beginning. -/
def swapping (operators : List Lifted.Operator) : Lifted.Problem :=
  ⟨.ofPropositions ["s", "r", "p"] [0], operators⟩

theorem not_both_true_of_swap : ∃ (t : Task) (x : Valuation),
    Grounding.ground (swapping [swap]) true = .ok t ∧ (fixpoint t 10).isQuiet = true ∧
      Relation.ReflTransGen (ForeseenStep t) t.initial x ∧ x.IsTrue ⟨1⟩ ∧
      (fixpoint t 10).mutex.contains ⟨0⟩ ⟨1⟩ = true ∧ ¬(x.IsTrue ⟨0⟩ ∧ x.IsTrue ⟨1⟩) := by
  have hrun : ∃ t ∈ (Grounding.ground (swapping [swap]) true).toOption, ∃ a ∈ t.actions,
      (∀ c ∈ a.startConditions ++ a.invariants, t.Holds t.initial c) ∧
      (∀ c ∈ a.invariants ++ a.endConditions, t.Holds (t.initial.apply a.startEffects) c) ∧
      (∀ c ∈ a.conditions, t.isProposition c.var = true → c.value ≠ .falsity →
        t.initial.IsTrue c.var) ∧ a.startEffects = [] ∧
      ((t.initial.apply a.startEffects).apply a.endEffects).IsTrue ⟨1⟩ ∧
      t.isProposition ⟨0⟩ = true ∧ t.isProposition ⟨1⟩ = true ∧
      (fixpoint t 10).isQuiet = true ∧ (fixpoint t 10).mutex.contains ⟨0⟩ ⟨1⟩ = true := by
    decide +kernel
  obtain ⟨t, ht, a, ha, hbefore, hbetween, hforeseen, hstart, htrue, hs, hr, hquiet, hsr⟩ := hrun
  have hground : Grounding.ground (swapping [swap]) true = .ok t :=
    Grounding.eq_ok_of_mem_toOption ht
  have hstep : ForeseenStep t t.initial ((t.initial.apply a.startEffects).apply a.endEffects) := by
    refine ⟨a, ha, ⟨hbefore, hbetween, rfl⟩, hforeseen, fun d hd => ?_⟩
    rw [hstart] at hd
    cases hd
  exact ⟨t, _, hground, hquiet, .single hstep, htrue, hsr,
    not_both_true_of_contains hground hquiet t.isInitial_initial (.single hstep) hs hr hsr⟩

/-- A run of a problem ends with two propositions true that the computation, having stopped by
itself, has found to be mutex. All facts are about time zero. -/
def Overlaps (p : Lifted.Problem) (v w : VarId) : Prop :=
  ∃ (t : Task) (x₀ x : Valuation), Grounding.ground p true = .ok t ∧
    (∀ fact ∈ p.task.init, (fact.time == 0.0) = true) ∧ (fixpoint t 10).isQuiet = true ∧
    t.IsInitial x₀ ∧ t.Reaches x₀ x ∧ t.isProposition v = true ∧ t.isProposition w = true ∧
    (fixpoint t 10).mutex.contains v w = true ∧ x.IsTrue v ∧ x.IsTrue w

/-- Executing one action from the beginning may be enough for this. -/
theorem overlaps_of_action {p : Lifted.Problem} {v w : VarId}
    (h : ∃ t ∈ (Grounding.ground p true).toOption, ∃ a ∈ t.actions,
      (∀ fact ∈ p.task.init, (fact.time == 0.0) = true) ∧
      (∀ c ∈ a.startConditions ++ a.invariants, t.Holds t.initial c) ∧
      (∀ c ∈ a.invariants ++ a.endConditions, t.Holds (t.initial.apply a.startEffects) c) ∧
      t.isProposition v = true ∧ t.isProposition w = true ∧ (fixpoint t 10).isQuiet = true ∧
      (fixpoint t 10).mutex.contains v w = true ∧
      ((t.initial.apply a.startEffects).apply a.endEffects).IsTrue v ∧
      ((t.initial.apply a.startEffects).apply a.endEffects).IsTrue w) : Overlaps p v w := by
  obtain ⟨t, ht, a, ha, hfacts, hbefore, hbetween, hv, hw, hquiet, hvw, hvtrue, hwtrue⟩ := h
  exact ⟨t, t.initial, _, Grounding.eq_ok_of_mem_toOption ht, hfacts, hquiet, t.isInitial_initial,
    .single ⟨a, ha, hbefore, hbetween, rfl⟩, hv, hw, hvw, hvtrue, hwtrue⟩

/-- `swap` makes `s` and `r` mutex. Yet `grab` makes `r` true and leaves `s` alone; it is never
applied, since it requires `p` at its end only, when it has made `p` true itself. And `waver` leaves
`p` and `r` true, since of two effects the last one counts, but they are mutex, since one of the two
deletes `p`. -/
theorem exists_mutex_both_true :
    Overlaps (swapping [swap, grab]) ⟨0⟩ ⟨2⟩ ∧ Overlaps (swapping [waver]) ⟨1⟩ ⟨2⟩ :=
  ⟨overlaps_of_action (by decide +kernel), overlaps_of_action (by decide +kernel)⟩

end TemporalPlanning.Mutex
