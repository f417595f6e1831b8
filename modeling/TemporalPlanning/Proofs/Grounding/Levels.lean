import Mathlib.Data.Nat.Find
import TemporalPlanning.Proofs.Grounding.Order
import TemporalPlanning.Proofs.Grounding.Tracking
import TemporalPlanning.Proofs.Grounding.Validity
/-!
Grounding computes the closure, level by level.

At the beginning of a level the instances that the values before the level enable have been looked
at. The values of the level trigger those that become enabled with it: if an instance is enabled now
and was not before, then among the conditions that it has to meet some are met by values of this
level, and the one of them that comes first finds all others among the earlier levels, itself and
the values after it. So no instance is missed, and an instance found is enabled. As every level but
the first begins with a new value, the levels do not run out before the values do.
-/
set_option autoImplicit false

namespace TemporalPlanning.Grounding

open Grounded

/-! ## Which instances the values of a level trigger -/

section Triggers

variable {op : Lifted.Operator} {as : List ObjectId} {vs : List ReachedValue} {n : Nat}

/-- An element is among the first of a list, or at a later position. -/
theorem exists_position {v : ReachedValue} (hv : v ∈ vs) (hold : v ∉ vs.take n) :
    ∃ j, n ≤ j ∧ vs[j]? = some v := by
  obtain ⟨j, hj⟩ := List.mem_iff_getElem?.mp hv
  refine ⟨j, Nat.le_of_not_lt fun hlt => hold ?_, hj⟩
  exact List.mem_of_getElem? ((List.getElem?_take_of_lt hlt).trans hj)

/-- An element that is not found before a position is found from there on. -/
theorem mem_allowedFrom {v : ReachedValue} {j : Nat} :
    v ∈ allowedFrom vs n j ↔ v ∈ vs.take n ∨ ∃ i, j ≤ i ∧ vs[i]? = some v := by
  rw [allowedFrom, List.mem_append]
  refine or_congr_right ⟨fun h => ?_, fun ⟨i, hi, hv⟩ => ?_⟩
  · obtain ⟨i, hi⟩ := List.mem_iff_getElem?.mp h
    rw [List.getElem?_drop] at hi
    exact ⟨j + i, Nat.le_add_right j i, hi⟩
  · refine List.mem_of_getElem? (i := i - j) ?_
    rw [List.getElem?_drop, Nat.add_sub_cancel' hi]
    exact hv

/-- A value at a position from `n` on triggers an instance. -/
def IsTriggered (setting : Setting) (schema : Schema) (vs : List ReachedValue) (n : Nat)
    (as : List ObjectId) : Prop :=
  ∃ j v, n ≤ j ∧ vs[j]? = some v ∧ as ∈ instancesOf setting schema v (allowedFrom vs n j)

variable {setting : Setting} {index : Nat}
  (hop : ∀ c ∈ Instance.preconditions op, IsFluentOf op.parameters c)
include hop

/-- What is triggered is admissible and matched. -/
theorem IsTriggered.isMatched
    (h : IsTriggered setting (Schema.ofOperator setting index op) vs n as) :
    Instance.IsAdmissible setting op as ∧ Instance.IsMatched op as (· ∈ vs) := by
  obtain ⟨j, v, -, hv, hmem⟩ := h
  obtain ⟨hadmissible, i, c, hc, rfl, hothers⟩ := (mem_instancesOf hop).mp hmem
  have hallowed : ∀ w, w ∈ allowedFrom vs n j → w ∈ vs := fun w hw => by
    rcases List.mem_append.mp hw with hw | hw
    · exact List.mem_of_mem_take hw
    · exact List.mem_of_mem_drop hw
  have hc' : instanceOf as c ∈ vs := List.mem_of_getElem? hv
  refine ⟨hadmissible, Or.inr ⟨fun d hd hneg => ?_, fun _ => ⟨c, List.mem_of_getElem? hc, hc'⟩⟩⟩
  obtain ⟨i', hd'⟩ := List.mem_iff_getElem?.mp hd
  by_cases hi : i' = i
  · rw [hi, hc] at hd'
    cases hd'
    exact hc'
  · exact hallowed _ (hothers i' d hd' hi hneg)

/-- A condition that is met by a value from position `n` on triggers an instance, if all others that
do not require falsity are met by values from that position on or before `n`. -/
theorem isTriggered_of_position (hadmissible : Instance.IsAdmissible setting op as)
    {c : Lifted.Fluent} (hc : c ∈ Instance.preconditions op) {j : Nat} (hj : n ≤ j)
    (hv : vs[j]? = some (instanceOf as c))
    (hothers : ∀ d ∈ Instance.preconditions op, isNegated d = false →
      instanceOf as d ∈ allowedFrom vs n j) :
    IsTriggered setting (Schema.ofOperator setting index op) vs n as := by
  obtain ⟨i, hi⟩ := List.mem_iff_getElem?.mp hc
  exact ⟨j, _, hj, hv, (mem_instancesOf hop).mpr ⟨hadmissible, i, c, hi, rfl,
    fun i' d hd _ hneg => hothers d (List.mem_of_getElem? hd) hneg⟩⟩

/-- **What becomes matched is triggered.** -/
theorem isTriggered_of_isMatched (hadmissible : Instance.IsAdmissible setting op as)
    (hnow : Instance.IsMatched op as (· ∈ vs))
    (hbefore : ¬Instance.IsMatched op as (· ∈ vs.take n)) :
    IsTriggered setting (Schema.ofOperator setting index op) vs n as := by
  rcases hnow with hempty | ⟨hall, hsome⟩
  · exact absurd (Or.inl hempty) hbefore
  by_cases hneg : ∀ c ∈ Instance.preconditions op, isNegated c = true
  · -- all conditions require falsity: any of them that is met triggers the instance
    obtain ⟨c, hc, hval⟩ := hsome hneg
    have hnew : instanceOf as c ∉ vs.take n := fun hmem =>
      hbefore (Or.inr ⟨fun d hd hd' => absurd (hneg d hd) (by rw [hd']; decide),
        fun _ => ⟨c, hc, hmem⟩⟩)
    obtain ⟨j, hj, hv⟩ := exists_position hval hnew
    refine isTriggered_of_position hop hadmissible hc hj hv fun d hd hd' => ?_
    rw [hneg d hd] at hd'
    cases hd'
  · -- the first position at which a condition is met that was not met before
    have hexists : ∃ j, n ≤ j ∧ ∃ c ∈ Instance.preconditions op, isNegated c = false ∧
        vs[j]? = some (instanceOf as c) := by
      by_contra hnone
      refine hbefore (Or.inr ⟨fun c hc hc' => ?_, fun h => absurd h hneg⟩)
      by_contra hnew
      obtain ⟨j, hj, hv⟩ := exists_position (hall c hc hc') hnew
      exact hnone ⟨j, hj, c, hc, hc', hv⟩
    classical
    obtain ⟨hj, c, hc, -, hv⟩ := Nat.find_spec hexists
    refine isTriggered_of_position hop hadmissible hc hj hv fun d hd hd' => ?_
    rw [mem_allowedFrom]
    by_cases hold : instanceOf as d ∈ vs.take n
    · exact Or.inl hold
    · obtain ⟨i, hi, hvi⟩ := exists_position (hall d hd hd') hold
      exact Or.inr ⟨i, Nat.find_min' hexists ⟨hi, d, hd, hd', hvi⟩, hvi⟩

/-- With the instances that were matched before, those that are triggered are the ones that are
matched now. -/
theorem isMatched_or_isTriggered_iff :
    ((Instance.IsAdmissible setting op as ∧ Instance.IsMatched op as (· ∈ vs.take n)) ∨
        IsTriggered setting (Schema.ofOperator setting index op) vs n as) ↔
      Instance.IsAdmissible setting op as ∧ Instance.IsMatched op as (· ∈ vs) := by
  constructor
  · rintro (⟨hadmissible, hmatched⟩ | h)
    · exact ⟨hadmissible, hmatched.mono fun v hv => List.mem_of_mem_take hv⟩
    · exact h.isMatched hop
  · rintro ⟨hadmissible, hmatched⟩
    by_cases hbefore : Instance.IsMatched op as (· ∈ vs.take n)
    · exact Or.inl ⟨hadmissible, hbefore⟩
    · exact Or.inr (isTriggered_of_isMatched hop hadmissible hmatched hbefore)

end Triggers

/-! ## The pace of levels -/

/-- How far a level reaches before which `k` levels have been run. -/
structure IsPaced (k : Nat) (s : State) : Prop where
  start_le : s.levelStart ≤ s.levelEnd
  end_le : s.levelEnd ≤ s.values.size
  /-- All levels but the first consist of all values that are left. -/
  complete : 0 < k → s.levelEnd = s.values.size
  /-- All levels but the first have begun with a new value. -/
  progress : k ≤ s.levelStart + 1

section Pace

variable {k : Nat} {s s₁ : State}

theorem isPaced_zero (hstart : s.levelStart = 0) (hend : s.levelEnd ≤ s.values.size) :
    IsPaced 0 s := by
  refine ⟨?_, hend, fun hk => absurd hk (Nat.lt_irrefl 0), Nat.zero_le _⟩
  rw [hstart]
  exact Nat.zero_le _

/-- A level with a value of its own leads on to a later one, which begins where it ends. -/
theorem IsPaced.next (h : IsPaced k s) (hnew : s.levelStart < s.values.size)
    (hlater : s.IsLater s₁) :
    IsPaced (k + 1) { s₁ with levelStart := s₁.levelEnd, levelEnd := s₁.values.size } := by
  refine ⟨?_, Nat.le_refl _, fun _ => rfl, ?_⟩
  · show s₁.levelEnd ≤ s₁.values.size
    rw [hlater.levelEnd]
    exact Nat.le_trans h.end_le hlater.size_le
  · show k + 1 ≤ s₁.levelEnd + 1
    rw [hlater.levelEnd]
    have hprogress := h.progress
    by_cases hk : 0 < k
    · have hcomplete := h.complete hk
      omega
    · omega

/-- **Running levels** leads to a level that has no values left, if at most as many values are ever
reached as levels are allowed. -/
theorem runLevels_ensures {setting : Setting} {schemas : List Schema} {P : Nat → State → Prop}
    {bound fuel : Nat} (hpaced : ∀ {k s}, P k s → IsPaced k s)
    (hbound : ∀ {k s}, P k s → s.values.size ≤ bound)
    (hstep : ∀ {k s}, P k s → s.levelStart < s.values.size →
      (runLevel setting schemas).Ensures s fun _ s' => P (k + 1) s')
    (h : P k s) (hfuel : k + fuel = bound + 1) :
    (runLevels setting schemas fuel).Ensures s fun _ s' =>
      ∃ k', P k' s' ∧ s'.values.size ≤ s'.levelStart := by
  induction fuel generalizing k s with
  | zero =>
    -- more levels have been run than there are values
    refine Step.ensures_pure.mpr ⟨k, h, ?_⟩
    have hsize := hbound h
    have hprogress := (hpaced h).progress
    omega
  | succ fuel ih =>
    refine Step.ensures_bind.mpr (Step.ensures_get.mpr ?_)
    split
    next hnew =>
      refine Step.ensures_bind.mpr ((hstep h hnew).mono fun _ s' hs' => ih hs' ?_)
      omega
    next hdone => exact Step.ensures_pure.mpr ⟨k, h, Nat.le_of_not_lt hdone⟩

end Pace

/-! ## One level -/

variable (p : Lifted.Problem)

/-- The values of the levels before one. -/
def before : Nat → ReachedValue → Prop
  | 0, _ => False
  | k + 1, v => closure p k v

/-- The instances that some values match. -/
def matched (R : ReachedValue → Prop) : Instances := fun i as =>
  ∃ op, IsInstanceOf p i op as ∧ Instance.IsMatched op as R

/-- The state at the beginning of a level. -/
structure AtLevel (k : Nat) (s : State) : Prop where
  tracks : Tracks p k (matched p (before p k)) (contributing p (matched p (before p k))) s
  start_le : s.levelStart ≤ s.levelEnd
  end_le : s.levelEnd ≤ s.values.size
  old : ∀ v, v ∈ s.values.toList.take s.levelStart ↔ before p k v
  current : ∀ v, v ∈ s.values.toList.take s.levelEnd ↔ closure p k v
  /-- All levels but the first consist of all values that are left. -/
  complete : 0 < k → s.levelEnd = s.values.size
  /-- All levels but the first have begun with a new value. -/
  progress : k ≤ s.levelStart + 1

variable {p}

theorem contributes_iff {R : ReachedValue → Prop} {v : ReachedValue} :
    (∃ i op as, p.operators[i]? = some op ∧ contributing p (matched p R) i as ∧
      v ∈ Instance.changes op as) ↔ IsEffect p R v := by
  constructor
  · rintro ⟨i, op, as, hi, ⟨⟨op₁, h₁, hmatched⟩, op₂, h₂, huseful⟩, hmem⟩
    obtain rfl : op = op₁ := Option.some.inj (hi.symm.trans h₁.operator)
    obtain rfl : op = op₂ := Option.some.inj (hi.symm.trans h₂)
    exact ⟨op, List.mem_of_getElem? hi, as, ⟨h₁.admissible, huseful.1, hmatched⟩, huseful.2, hmem⟩
  · rintro ⟨op, hop, as, henabled, hkept, hmem⟩
    obtain ⟨i, hi⟩ := List.mem_iff_getElem?.mp hop
    exact ⟨i, op, as, hi, ⟨⟨op, ⟨hi, henabled.admissible⟩, henabled.matched⟩, op, hi,
      henabled.identities, hkept⟩, hmem⟩

/-- What the values are when the instances that some values match have been looked at. -/
theorem Tracks.mem_values_iff {k : Nat} {R : ReachedValue → Prop} {s : State}
    (h : Tracks p k (matched p R) (contributing p (matched p R)) s) (v : ReachedValue) :
    v ∈ s.values.toList ↔ closure p k v ∨ IsEffect p R v := by
  rw [h.mirrored.mem_iff]
  simp only [h.records, contributes_iff]
  constructor
  · rintro ⟨l, ⟨hl, hfirst⟩ | ⟨-, -, heffect⟩⟩
    · exact Or.inl (closure_mono p hl hfirst.1)
    · exact Or.inr heffect
  · intro hv
    by_cases hclosure : closure p k v
    · obtain ⟨l, hl, hfirst⟩ := exists_firstReached p hclosure
      exact ⟨l, Or.inl ⟨hl, hfirst⟩⟩
    · exact ⟨k + 1, Or.inr ⟨rfl, hclosure, hv.resolve_left hclosure⟩⟩

section Level

variable (hvalid : p.validate = .ok ()) (hnames : HasDistinctNames p) (hfacts : HasNumericFacts p)

include hvalid in
theorem isFluentOf_of_valid {op : Lifted.Operator} (hop : op ∈ p.operators) :
    ∀ c ∈ Instance.preconditions op, IsFluentOf op.parameters c := by
  have hterm : ∀ {t}, IsSoundTerm p.task op.parameters.length t → IsTermOf op.parameters t :=
    fun {t} ht => by
      cases t with
      | param i => exact ht
      | object o => trivial
  intro c hc
  obtain ⟨hliteral, hvalue⟩ := (isSoundOperator_of_mem hvalid hop).conditions c hc
  exact ⟨fun t ht => hterm (hliteral.2 t ht), hterm hvalue⟩

section Looking

variable {P : Instances → State → Prop} (heach : LooksAtEach p P)

include hvalid in
/-- The instances matched by the values before a position and those triggered by the values from it
on are the ones that all these values match. -/
theorem matched_or_triggered_iff {vs : List ReachedValue} {n : Nat} (i : Nat)
    (as : List ObjectId) :
    (matched p (· ∈ vs.take n) i as ∨ ∃ trigger ∈ (vs.drop n).zipIdx n,
      ∃ op, p.operators[i]? = some op ∧ as ∈ instancesOf (Setting.ofTask p.task) (schemaOf p i op)
        trigger.1 (allowedFrom vs n trigger.2)) ↔ matched p (· ∈ vs) i as := by
  have htrigger : ∀ op, (∃ trigger ∈ (vs.drop n).zipIdx n,
      as ∈ instancesOf (Setting.ofTask p.task) (schemaOf p i op) trigger.1
        (allowedFrom vs n trigger.2)) ↔
      IsTriggered (Setting.ofTask p.task) (schemaOf p i op) vs n as := by
    intro op
    rw [Prod.exists, exists_comm]
    refine exists_congr fun j => exists_congr fun v => ?_
    rw [List.mem_zipIdx_iff_le_and_getElem?_sub, List.getElem?_drop, and_assoc]
    refine and_congr_right fun hj => ?_
    rw [Nat.add_sub_cancel' hj]
  -- for one operator, this is what triggering was shown to do
  have hstep : ∀ op, p.operators[i]? = some op →
      ((Instance.IsAdmissible (Setting.ofTask p.task) op as ∧
          Instance.IsMatched op as (· ∈ vs.take n)) ∨
        IsTriggered (Setting.ofTask p.task) (schemaOf p i op) vs n as ↔
      Instance.IsAdmissible (Setting.ofTask p.task) op as ∧
        Instance.IsMatched op as (· ∈ vs)) := fun op hi =>
    isMatched_or_isTriggered_iff (isFluentOf_of_valid hvalid (List.mem_of_getElem? hi))
  constructor
  · rintro (⟨op, hi, hmatched⟩ | ⟨trigger, htriggers, op, hi, hmem⟩)
    · have h := (hstep op hi.operator).mp (Or.inl ⟨hi.admissible, hmatched⟩)
      exact ⟨op, hi, h.2⟩
    · have h := (hstep op hi).mp (Or.inr ((htrigger op).mp ⟨trigger, htriggers, hmem⟩))
      exact ⟨op, ⟨hi, h.1⟩, h.2⟩
  · rintro ⟨op, hi, hmatched⟩
    rcases (hstep op hi.operator).mpr ⟨hi.admissible, hmatched⟩ with h | h
    · exact Or.inl ⟨op, hi, h.2⟩
    · obtain ⟨trigger, htriggers, hmem⟩ := (htrigger op).mpr h
      exact Or.inr ⟨trigger, htriggers, op, hi.operator, hmem⟩

include hvalid heach in
/-- **What the values of a level trigger**, together with what was matched before, is what all these
values match. -/
theorem groundTriggered_ensures {vs : List ReachedValue} {n : Nat} {s : State}
    (h : P (matched p (· ∈ vs.take n)) s) :
    Step.Ensures (((vs.drop n).zipIdx n).forM (groundTriggered (Setting.ofTask p.task)
      (schemasOf (Setting.ofTask p.task) p.operators) vs n)) s
      fun _ s' => P (matched p (· ∈ vs)) s' := by
  have htrigger : ∀ trigger ∈ (vs.drop n).zipIdx n, Step.LooksAt
      (groundTriggered (Setting.ofTask p.task) (schemasOf (Setting.ofTask p.task) p.operators)
        vs n trigger) P
      fun i as => ∃ op, p.operators[i]? = some op ∧ as ∈ instancesOf (Setting.ofTask p.task)
        (schemaOf p i op) trigger.1 (allowedFrom vs n trigger.2) := by
    intro trigger _
    refine (looksAt_groundSchemas heach (fun _ => id) fun i op hi as has =>
      ((mem_instancesOf (isFluentOf_of_valid hvalid (List.mem_of_getElem? hi))).mp has).1).congr
        fun i as => exists_congr fun op => and_congr_right fun hi => ?_
    exact and_iff_right (mem_schemasOf.mpr ⟨i, op, hi, rfl⟩)
  refine (looksAt_forM htrigger _ s h).mono fun _ s' hs' => ?_
  simpa only [matched_or_triggered_iff hvalid] using hs'

/-- Nothing matches without values, unless there is nothing to match. -/
theorem isMatched_false_iff {op : Lifted.Operator} {as : List ObjectId} :
    Instance.IsMatched op as (fun _ => False) ↔ Instance.preconditions op = [] := by
  refine ⟨?_, Or.inl⟩
  rintro (h | ⟨hall, hsome⟩)
  · exact h
  · have hneg : ∀ c ∈ Instance.preconditions op, isNegated c = true := fun c hc => by
      by_contra hc'
      exact hall c hc (Bool.eq_false_iff.mpr hc')
    obtain ⟨-, -, h⟩ := hsome hneg
    exact h.elim

include heach in
/-- Before there are values, the instances that are matched are those of the operators without
conditions to match. -/
theorem groundUnconditional_ensures {s : State} (h : P (fun _ _ => False) s) :
    (groundUnconditional (Setting.ofTask p.task)
      (schemasOf (Setting.ofTask p.task) p.operators)).Ensures s
      fun _ s' => P (matched p fun _ => False) s' := by
  have hlooks : (groundUnconditional (Setting.ofTask p.task)
      (schemasOf (Setting.ofTask p.task) p.operators)).LooksAt P (matched p fun _ => False) := by
    refine (looksAt_groundSchemas heach (fun _ hschema => (List.mem_filter.mp hschema).1)
      fun i op hi as has => mem_completions_unbound.mp has).congr fun i as => ⟨?_, ?_⟩
    · rintro ⟨op, hi, hmem, has⟩
      have hempty := List.isEmpty_iff.mp (List.mem_filter.mp hmem).2
      exact ⟨op, ⟨hi, mem_completions_unbound.mp has⟩, Or.inl hempty⟩
    · rintro ⟨op, hi, hmatched⟩
      have hempty := isMatched_false_iff.mp hmatched
      have hmem := mem_schemasOf.mpr ⟨i, op, hi.operator, rfl⟩
      exact ⟨op, hi.operator, List.mem_filter.mpr ⟨hmem, List.isEmpty_iff.mpr hempty⟩,
        mem_completions_unbound.mpr hi.admissible⟩
  simpa only [false_or] using hlooks _ s h

end Looking

include hvalid hnames hfacts

omit hvalid hnames hfacts in
/-- What is known at the end of a level is what is known at the beginning of the next one. -/
theorem Tracks.next {k : Nat} {s s' : State}
    (h : Tracks p k (matched p (closure p k)) (contributing p (matched p (closure p k))) s)
    (hs' : s' = { s with level := k + 1, levelStart := s'.levelStart, levelEnd := s'.levelEnd,
                         counted := s'.counted, levels := s'.levels }) :
    Tracks p (k + 1) (matched p (closure p k)) (contributing p (matched p (closure p k))) s' := by
  have hlast : ∀ v, FirstReached p (k + 1) v ↔ ¬closure p k v ∧ IsEffect p (closure p k) v := by
    intro v
    constructor
    · rintro ⟨hv | hv, hfirst⟩
      · exact absurd hv (hfirst k (Nat.lt_succ_self k))
      · exact ⟨hfirst k (Nat.lt_succ_self k), hv⟩
    · rintro ⟨hnew, hv⟩
      exact ⟨Or.inr hv, fun j hj hjv => hnew (closure_mono p (Nat.le_of_lt_succ hj) hjv)⟩
  rw [hs']
  refine ⟨rfl, h.facts, ⟨h.mirrored.mem_iff, h.mirrored.nodup⟩, h.tried, fun v l => ?_, h.found,
    h.once, fun b a ha => (h.genuine b a ha).imp fun _ _ hreads => hreads⟩
  have hrecords := h.records v l
  rw [contributes_iff] at hrecords ⊢
  refine Iff.trans hrecords ?_
  rw [← hlast]
  -- new values of this level are the ones first reached at the next level, which has none yet
  constructor
  · rintro (⟨hl, hfirst⟩ | ⟨rfl, hfirst⟩)
    · exact Or.inl ⟨Nat.le_succ_of_le hl, hfirst⟩
    · exact Or.inl ⟨Nat.le_refl _, hfirst⟩
  · rintro (⟨hl, hfirst⟩ | ⟨-, hnew, heffect⟩)
    · rcases Nat.le_or_eq_of_le_succ hl with hl | rfl
      · exact Or.inl ⟨hl, hfirst⟩
      · exact Or.inr ⟨rfl, hfirst⟩
    · exact absurd (Or.inr heffect) hnew

omit hvalid hnames hfacts in
theorem AtLevel.isPaced {k : Nat} {s : State} (h : AtLevel p k s) : IsPaced k s :=
  ⟨h.start_le, h.end_le, h.complete, h.progress⟩

/-- **Running a level** leads to the beginning of the next one. -/
theorem AtLevel.runLevel {k : Nat} {s : State} (h : AtLevel p k s)
    (hnew : s.levelStart < s.values.size) :
    (Grounding.runLevel (Setting.ofTask p.task)
      (schemasOf (Setting.ofTask p.task) p.operators)).Ensures s fun _ s' =>
        AtLevel p (k + 1) s' := by
  set vs := s.values.toList.take s.levelEnd with hvs
  have hcurrent : (· ∈ vs) = closure p k := funext fun v => propext (h.current v)
  have hold : (· ∈ vs.take s.levelStart) = before p k := funext fun v => propext <| by
    rw [hvs, List.take_take, Nat.min_eq_left h.start_le]
    exact h.old v
  refine Step.ensures_bind.mpr (Step.ensures_get.mpr (Step.ensures_bind.mpr ?_))
  have hs : TracksFrom p s k (matched p (· ∈ vs.take s.levelStart)) s := by
    rw [hold]
    exact ⟨h.tracks, State.IsLater.refl s⟩
  have hall := groundTriggered_ensures hvalid (tracksFrom_looksAtEach hnames hfacts s k) hs
  rw [hcurrent] at hall
  -- all instances that the values of the level match have been looked at
  refine hall.mono fun _ s₁ hmatched => Step.ensures_modify.mpr ?_
  have hlater := hmatched.later
  have hmem := hmatched.tracks.mem_values_iff
  have hpaced := h.isPaced.next hnew hlater
  refine ⟨hmatched.tracks.next ?_, hpaced.start_le, hpaced.end_le, fun v => ?_, fun v => ?_,
    hpaced.complete, hpaced.progress⟩
  · rw [hmatched.tracks.level]
  · show v ∈ s₁.values.toList.take s₁.levelEnd ↔ closure p k v
    rw [hlater.levelEnd, hlater.take_values h.end_le]
    exact h.current v
  · -- everything that has been reached belongs to the next level
    show v ∈ s₁.values.toList.take s₁.values.size ↔ _
    rw [← Array.length_toList, List.take_length]
    exact hmem v

omit hnames hfacts in
/-- At most `valueBound` values are ever reached. -/
theorem AtLevel.size_values_le {k : Nat} {s : State} (h : AtLevel p k s) :
    s.values.size ≤ valueBound p.task := by
  rw [← Array.length_toList]
  refine length_le_valueBound h.tracks.mirrored.nodup fun v hv => ?_
  have hclosure : closure p (k + 1) v := by
    rcases (h.tracks.mem_values_iff v).mp hv with hv | ⟨op, hop, as, henabled, hkept, hmem⟩
    · exact Or.inl hv
    · refine Or.inr ⟨op, hop, as, ⟨henabled.admissible, henabled.identities, ?_⟩, hkept, hmem⟩
      refine henabled.matched.mono fun w hw => ?_
      cases k with
      | zero => exact absurd hw id
      | succ k => exact Or.inl hw
  exact isSorted_of_closure hvalid hclosure

end Level

/-! ## The first level -/

/-- Steps that only create variables, and what each of them makes true for good. -/
theorem forM_creates {α : Type} {f : α → Step PUnit} {P : α → State → Prop}
    (hmono : ∀ x s s', s.Creates s' → P x s → P x s')
    (hf : ∀ x s, (f x).Ensures s fun _ s' => s.Creates s' ∧ P x s') (l : List α) (s : State) :
    Step.Ensures (l.forM f) s fun _ s' => s.Creates s' ∧ ∀ x ∈ l, P x s' := by
  induction l generalizing s with
  | nil => exact Step.ensures_pure.mpr ⟨State.Creates.refl s, fun _ h => (by cases h)⟩
  | cons x l ih =>
    refine Step.ensures_bind.mpr ((hf x s).mono fun _ s' ⟨hs', hx⟩ => ?_)
    refine (ih s').mono fun _ s'' ⟨hs'', hl⟩ => ⟨hs'.trans hs'', ?_⟩
    exact List.forall_mem_cons.mpr ⟨hmono x s' s'' hs'' hx, hl⟩

theorem createInitialVariables_ensures (task : Lifted.Task) (s : State) :
    (createInitialVariables task).Ensures s fun _ s' => s.Creates s' ∧
      ∀ fact ∈ task.init, ∃ var, s'.Names var fact.function fact.arguments := by
  refine forM_creates (fun _ _ _ hcreates hnames => hnames.imp fun _ h => h.mono hcreates)
    (fun fact s => Step.ensures_map.mpr ?_) task.init s
  exact (variableOf_ensures task _ _ s).mono fun var s' ⟨hcreates, hvar⟩ =>
    ⟨hcreates.toCreates, var, hvar⟩

/-- The value of a fact, if it is an object. -/
def factValue (fact : Lifted.Fact) : Option ReachedValue :=
  fact.value.object?.map fun o => ⟨fact.function, fact.arguments, o⟩

theorem mem_filterMap_factValue {v : ReachedValue} :
    v ∈ p.task.init.filterMap factValue ↔ IsInitialValue p v := by
  rw [List.mem_filterMap]
  refine exists_congr fun fact => and_congr_right fun _ => ?_
  rw [factValue]
  cases hvalue : fact.value with
  | number x => simp [Value.object?]
  | object o =>
    cases v
    simp [Value.object?]
    tauto

/-- Steps that each reach a value or none reach all of them one after the other. -/
theorem forM_reaches {α : Type} {f : α → Step Unit} {g : α → Option ReachedValue} {level : Nat}
    (hf : ∀ x s, (f x).Ensures s fun _ s' => s.Reaches level (g x).toList s') (l : List α)
    (s : State) :
    Step.Ensures (l.forM f) s fun _ s' => s.Reaches level (l.filterMap g) s' := by
  induction l generalizing s with
  | nil => exact Step.ensures_pure.mpr (State.Reaches.refl s level)
  | cons x l ih =>
    refine Step.ensures_bind.mpr ((hf x s).mono fun _ s' hs' => ?_)
    refine (ih s').mono fun _ s'' hs'' => ?_
    have htrans := hs'.trans hs''
    rw [List.filterMap_cons]
    cases hvalue : g x <;> rw [hvalue] at htrans <;> exact htrans

theorem reachInitialValues_ensures (task : Lifted.Task) (s : State) :
    (reachInitialValues task).Ensures s fun _ s' =>
      s.Reaches 0 (task.init.filterMap factValue) s' := by
  refine forM_reaches (fun fact s => ?_) task.init s
  rw [factValue]
  split
  next o hvalue =>
    rw [hvalue]
    refine Step.ensures_bind.mpr ((variableOf_ensures task _ _ s).mono ?_)
    rintro var s' ⟨hcreates, hvar⟩
    have hreads : s'.Reads ⟨var, o⟩ ⟨fact.function, fact.arguments, o⟩ := ⟨hvar, rfl⟩
    exact (reach_reaches 0 hreads).mono fun _ s'' hs'' => (hcreates.reaches 0).trans hs''
  next x hvalue =>
    rw [hvalue]
    exact Step.ensures_pure.mpr (State.Reaches.refl s 0)

theorem not_records_empty (v : ReachedValue) (l : Nat) : ¬State.Records {} v l :=
  fun ⟨_, _, hx, _⟩ => by cases hx

theorem isMirrored_empty : State.IsMirrored {} :=
  ⟨fun v => iff_of_false List.not_mem_nil fun ⟨l, hl⟩ => not_records_empty v l hl,
    List.Pairwise.nil⟩

/-- A state in which nothing has happened but that the values of the initial state are known. -/
theorem tracks_of_reaches {s : State} (h : State.Reaches {} 0 (p.task.init.filterMap factValue) s)
    (hnames : ∀ fact ∈ p.task.init, ∃ var, s.Names var fact.function fact.arguments) :
    Tracks p 0 (fun _ _ => False) (contributing p fun _ _ => False) s := by
  have hframe := h.frame
  -- nothing has been tried or found, and all values are recorded with level zero
  have hfound : ∀ b, s.found b = #[] := fun b => by
    rw [hframe]
    cases b <;> rfl
  refine ⟨by rw [hframe], hnames, h.mirrored isMirrored_empty, fun hi => ?_, fun v l => ?_,
    fun b i as => ?_, fun b => ?_, fun b a ha => ?_⟩
  · refine iff_of_false (fun htried => ?_) id
    unfold State.HasTried at htried
    rw [hframe] at htried
    split at htried
    · exact Std.TreeSet.not_mem_emptyc htried
    · exact Std.TreeSet.not_mem_emptyc htried
  · rw [h.records, mem_filterMap_factValue]
    constructor
    · rintro (hv | ⟨rfl, hv, -⟩)
      · exact absurd hv (not_records_empty v l)
      · exact Or.inl ⟨Nat.le_refl 0, hv, fun j hj => absurd hj (Nat.not_lt_zero j)⟩
    · rintro (⟨hl, hfirst⟩ | ⟨-, -, i, op, as, -, hcontributing, -⟩)
      · obtain rfl : l = 0 := Nat.le_zero.mp hl
        exact Or.inr ⟨rfl, hfirst.1, not_records_empty v⟩
      · exact hcontributing.1.elim
  · rw [hfound]
    refine iff_of_false (fun ⟨a, ha, _⟩ => ?_) fun h => h.1.1.elim
    cases ha
  · rw [hfound]
    exact List.Pairwise.nil
  · rw [hfound] at ha
    cases ha

/-- Before any instance has been looked at, the values of the initial state are known. -/
theorem start_ensures : (start p.task).Ensures {} fun _ s =>
    TracksFrom p s 0 (fun _ _ => False) s ∧ s.levelStart = 0 ∧ s.levelEnd = s.values.size := by
  refine Step.ensures_bind.mpr ((createInitialVariables_ensures p.task {}).mono ?_)
  rintro _ s₁ ⟨hcreates, hnames⟩
  refine Step.ensures_bind.mpr ((reachInitialValues_ensures p.task s₁).mono fun _ s₂ hlast => ?_)
  have hreaches := (hcreates.reaches 0).trans hlast
  have htracks := tracks_of_reaches hreaches fun fact hfact =>
    (hnames fact hfact).imp fun _ hvar => hlast.names hvar
  refine Step.ensures_modify.mpr ⟨⟨⟨?_, ?_, ?_, ?_, ?_, ?_, ?_, ?_⟩, State.IsLater.refl _⟩, ?_, rfl⟩
  · exact htracks.level
  · exact htracks.facts
  · exact ⟨htracks.mirrored.mem_iff, htracks.mirrored.nodup⟩
  · exact htracks.tried
  · exact htracks.records
  · exact htracks.found
  · exact htracks.once
  · exact fun b a ha => (htracks.genuine b a ha).imp fun _ _ hreads => hreads
  · show s₂.levelStart = 0
    rw [hreaches.frame]

section Exploration

variable (hvalid : p.validate = .ok ()) (hnames : HasDistinctNames p) (hfacts : HasNumericFacts p)
include hvalid hnames hfacts

/-- **Exploration** ends at a level that has no values left. -/
theorem explore_ensures : (explore p).Ensures {} fun _ s =>
    ∃ k, AtLevel p k s ∧ s.values.size ≤ s.levelStart := by
  refine Step.ensures_bind.mpr (start_ensures.mono ?_)
  rintro _ s₀ ⟨htracks, hstart, hend⟩
  refine Step.ensures_bind.mpr ((groundUnconditional_ensures
    (tracksFrom_looksAtEach hnames hfacts s₀ 0) htracks).mono fun _ s hs => ?_)
  have hlater := hs.later
  -- the first level consists of the values of the facts only
  have hvalues : ∀ v, v ∈ s₀.values.toList ↔ closure p 0 v := fun v => by
    rw [htracks.tracks.mirrored.mem_iff]
    simp only [htracks.tracks.records]
    constructor
    · rintro ⟨l, ⟨hl, hfirst⟩ | ⟨-, -, i, op, as, -, hcontributing, -⟩⟩
      · exact closure_mono p hl hfirst.1
      · exact hcontributing.1.elim
    · exact fun hv => ⟨0, Or.inl ⟨Nat.le_refl 0, hv, fun j hj => absurd hj (Nat.not_lt_zero j)⟩⟩
  have hpaced : IsPaced 0 s := by
    refine isPaced_zero (hlater.levelStart.trans hstart) ?_
    rw [hlater.levelEnd, hend]
    exact hlater.size_le
  have hlevel : AtLevel p 0 s := by
    refine ⟨hs.tracks, hpaced.start_le, hpaced.end_le, fun v => ?_, fun v => ?_, hpaced.complete,
      hpaced.progress⟩
    · rw [hlater.levelStart, hstart, List.take_zero]
      exact iff_of_false List.not_mem_nil id
    · rw [hlater.levelEnd, hend, hlater.take_values (Nat.le_refl _), ← Array.length_toList,
        List.take_length]
      exact hvalues v
  exact runLevels_ensures AtLevel.isPaced (AtLevel.size_values_le hvalid)
    (AtLevel.runLevel hvalid hnames hfacts) hlevel (Nat.zero_add _)

end Exploration

end TemporalPlanning.Grounding
