import Mathlib.Data.List.Dedup
import TemporalPlanning.Proofs.Grounding.SemiNaive
/-!
The loop over levels ends, and what it reports.

Saturation runs levels as long as there are values that have not triggered their matches. Nothing in
the loop itself says that this stops: values are appended while they are looked at, and variables
are created on the way. `LevelLoop` is the loop without a bound, as a relation between the state in
which it begins and its result. Values are only appended if they have not been reached, they are all
sorted, and every level but the first begins with a value of its own; so the loop has a result after
at most as many levels as there are sorted values, and one more. In particular the bound with which
levels are run never cuts the loop short.

The invariant of the loop is `AtBoundary`. It also records what is reported: a level is numbered by
the levels before it, and as variables are never removed, their number never decreases.
-/
set_option autoImplicit false

namespace TemporalPlanning.Grounding

open Grounded

variable {p : Lifted.Problem}

/-! ## Within a level -/

/-- Variables are never removed. -/
theorem size_vars_le_of_names {s s' : State} (h : Naming.Le s.Names s'.Names) :
    s.vars.size ≤ s'.vars.size := by
  by_contra hlt
  -- the variable at the first missing position would have lost its name
  have hi : s'.vars.size < s.vars.entries.size := Nat.lt_of_not_le hlt
  obtain ⟨v, hv, -, -⟩ := h (v := ⟨s'.vars.size⟩)
    ⟨s.vars.entries[s'.vars.size], Array.getElem?_eq_getElem hi, rfl, rfl⟩
  obtain ⟨hlt', -⟩ := Array.getElem?_eq_some_iff.mp hv
  exact Nat.lt_irrefl _ hlt'

variable (p) in
/-- Instances have been looked at since an earlier state of the level: variables have been created
and sorted values have been reached. -/
structure GrownFrom (s₀ s : State) : Prop where
  names : Naming.Le s₀.Names s.Names
  later : s₀.IsLater s
  levels : s.levels = s₀.levels
  mirrored : s.IsMirrored
  sorted : ∀ v ∈ s.values.toList, IsSorted p.task v

namespace GrownFrom

variable {s₀ s s' : State}

theorem reaches (h : GrownFrom p s₀ s) {level : Nat} {vs : List ReachedValue}
    (hreaches : s.Reaches level vs s') (hvs : ∀ v ∈ vs, IsSorted p.task v) :
    GrownFrom p s₀ s' := by
  refine ⟨fun _ _ _ hv => hreaches.names (h.names hv), h.later.trans hreaches.isLater, ?_,
    hreaches.mirrored h.mirrored, fun v hv => ?_⟩
  · rw [hreaches.frame]
    exact h.levels
  · rcases (hreaches.mem_values_iff h.mirrored v).mp hv with hold | hnew
    · exact h.sorted v hold
    · exact hvs v hnew

theorem mark (h : GrownFrom p s₀ s) (schema : Schema) (name : String) (as : List ObjectId) :
    GrownFrom p s₀ (s.markTried schema name as) := by
  have hlater := h.later.trans (s.isLater_markTried schema name as)
  rw [State.markTried_frame] at hlater ⊢
  exact ⟨h.names, hlater, h.levels, ⟨h.mirrored.mem_iff, h.mirrored.nodup⟩, h.sorted⟩

theorem add (h : GrownFrom p s₀ s) (a : Action) : GrownFrom p s₀ (s.add a) := by
  have hlater := h.later.trans (State.isLater_add s a)
  rw [State.add_frame] at hlater ⊢
  exact ⟨h.names, hlater, h.levels, ⟨h.mirrored.mem_iff, h.mirrored.nodup⟩, h.sorted⟩

end GrownFrom

/-- **Looking at an instance** of a valid problem reaches sorted values only. -/
theorem grownFrom_looksAtEach (hvalid : p.validate = .ok ()) (s₀ : State) :
    LooksAtEach p fun _ => GrownFrom p s₀ := by
  intro i op as hi T s h
  refine (groundInstance_cases p.task as (schemaOf p i op) s).mono ?_
  rintro _ s' (⟨-, rfl⟩ | ⟨-, s₁, hcreates, hcontribution⟩)
  · exact h
  have hcreated : GrownFrom p s₀ s₁ :=
    (h.mark (schemaOf p i op) _ as).reaches (hcreates.reaches 0) (fun _ hv => by cases hv)
  rcases hcontribution with ⟨-, rfl⟩ | ⟨-, a, s₂, -, -, hreaches, rfl⟩
  · exact hcreated
  · have hop := isSoundOperator_of_mem hvalid (List.mem_of_getElem? hi.operator)
    have hreached : GrownFrom p s₀ s₂ :=
      hcreated.reaches hreaches fun v hv => isSorted_of_mem_changes hop hi.admissible hv
    exact hreached.add a

/-! ## From level to level -/

variable (p) in
/-- The state between two levels, of which `k` have been run. -/
structure AtBoundary (k : Nat) (s : State) : Prop where
  mirrored : s.IsMirrored
  sorted : ∀ v ∈ s.values.toList, IsSorted p.task v
  paced : IsPaced k s
  level : s.level = k
  numbered : s.levels.toList.map (·.level) = List.range k
  ascending : (s.levels.toList.map (·.vars)).Pairwise (· ≤ ·)
  counted : ∀ l ∈ s.levels.toList, l.vars ≤ s.vars.size

/-- **Running a level** leads from one boundary to the next. -/
theorem AtBoundary.runLevel (hvalid : p.validate = .ok ()) {k : Nat} {s : State}
    (h : AtBoundary p k s) (hnew : s.levelStart < s.values.size) :
    (Grounding.runLevel (Setting.ofTask p.task)
      (schemasOf (Setting.ofTask p.task) p.operators)).Ensures s fun _ s' =>
        AtBoundary p (k + 1) s' := by
  have hrefl : GrownFrom p s s :=
    ⟨fun _ _ _ => id, State.IsLater.refl s, rfl, h.mirrored, h.sorted⟩
  refine Step.ensures_bind.mpr (Step.ensures_get.mpr (Step.ensures_bind.mpr ?_))
  refine (groundTriggered_ensures (P := fun _ => GrownFrom p s) hvalid
    (grownFrom_looksAtEach hvalid s) hrefl).mono fun _ s₁ h₁ => Step.ensures_modify.mpr ?_
  have hlater := h₁.later
  have hvars := size_vars_le_of_names h₁.names
  have hlevels : s₁.levels.toList = s.levels.toList := by rw [h₁.levels]
  have hpaced := h.paced.next hnew hlater
  refine ⟨⟨h₁.mirrored.mem_iff, h₁.mirrored.nodup⟩, h₁.sorted,
    ⟨hpaced.start_le, hpaced.end_le, hpaced.complete, hpaced.progress⟩, ?_, ?_, ?_, ?_⟩
  · show s₁.level + 1 = k + 1
    rw [hlater.level, h.level]
  · simp only [Array.toList_push, List.map_append, List.map_cons, List.map_nil]
    rw [hlevels, h.numbered, hlater.level, h.level, List.range_succ]
  · simp only [Array.toList_push, List.map_append, List.map_cons, List.map_nil]
    rw [hlevels, List.pairwise_append]
    refine ⟨h.ascending, List.pairwise_singleton _ _, fun n hn m hm => ?_⟩
    obtain ⟨l, hl, rfl⟩ := List.mem_map.mp hn
    rw [List.mem_singleton.mp hm]
    exact Nat.le_trans (h.counted l hl) hvars
  · intro l hl
    simp only [Array.toList_push, List.mem_append, List.mem_singleton] at hl
    rcases hl with hold | rfl
    · rw [hlevels] at hold
      exact Nat.le_trans (h.counted l hold) hvars
    · exact Nat.le_refl _

/-- At most `valueBound` values are ever reached. -/
theorem AtBoundary.size_values_le {k : Nat} {s : State} (h : AtBoundary p k s) :
    s.values.size ≤ valueBound p.task := by
  rw [← Array.length_toList]
  exact length_le_valueBound h.mirrored.nodup h.sorted

/-! ## The loop -/

variable (p) in
/-- The loop over levels without a bound: it ends with a state in which every value has triggered
its matches, or with the error of a level. -/
inductive LevelLoop : State → Except Error State → Prop
  | done {s : State} (hdone : s.values.size ≤ s.levelStart) : LevelLoop s (.ok s)
  | next {s s' : State} {r : Except Error State} (hnew : s.levelStart < s.values.size)
      (hrun : (Grounding.runLevel (Setting.ofTask p.task)
        (schemasOf (Setting.ofTask p.task) p.operators)).run s = .ok ((), s'))
      (hrest : LevelLoop s' r) : LevelLoop s r
  | fails {s : State} {e : Error} (hnew : s.levelStart < s.values.size)
      (hrun : (Grounding.runLevel (Setting.ofTask p.task)
        (schemasOf (Setting.ofTask p.task) p.operators)).run s = .error e) : LevelLoop s (.error e)

namespace LevelLoop

/-- The loop has one result. -/
theorem unique {s : State} {r r' : Except Error State} (h : LevelLoop p s r)
    (h' : LevelLoop p s r') : r = r' := by
  induction h with
  | done hdone =>
    cases h' with
    | done _ => rfl
    | next hnew _ _ => omega
    | fails hnew _ => omega
  | next hnew hrun _ ih =>
    cases h' with
    | done hdone => omega
    | next _ hrun' hrest' =>
      rw [hrun] at hrun'
      cases hrun'
      exact ih hrest'
    | fails _ hrun' =>
      rw [hrun] at hrun'
      cases hrun'
  | fails hnew hrun =>
    cases h' with
    | done hdone => omega
    | next _ hrun' _ =>
      rw [hrun] at hrun'
      cases hrun'
    | fails _ hrun' =>
      rw [hrun] at hrun'
      cases hrun'
      rfl

end LevelLoop

section Fuel

variable {setting : Setting} {schemas : List Schema} {fuel : Nat} {s : State}

/-- Values that have not triggered their matches make up another level. -/
theorem runLevels_of_new (hnew : s.levelStart < s.values.size) :
    (runLevels setting schemas (fuel + 1)).run s = (runLevel setting schemas).run s >>=
      fun x => (runLevels setting schemas fuel).run x.2 := by
  simp [runLevels, hnew]

theorem runLevels_of_done (hdone : s.values.size ≤ s.levelStart) :
    (runLevels setting schemas (fuel + 1)).run s = .ok ((), s) := by
  simp [runLevels, Nat.not_lt.mpr hdone]
  rfl

end Fuel

/-- **Levels end before their bound.** What is left of the bound is enough for the values that are
left, so running levels gives the result of the loop. -/
theorem AtBoundary.levelLoop (hvalid : p.validate = .ok ()) {k fuel : Nat} {s : State}
    (h : AtBoundary p k s) (hfuel : k + fuel = valueBound p.task + 1) :
    LevelLoop p s (((runLevels (Setting.ofTask p.task)
      (schemasOf (Setting.ofTask p.task) p.operators) fuel).run s).map Prod.snd) := by
  induction fuel generalizing k s with
  | zero =>
    -- more levels have been run than there are values
    have hbound := h.size_values_le
    have hprogress := h.paced.progress
    exact .done (by omega)
  | succ fuel ih =>
    by_cases hnew : s.levelStart < s.values.size
    · rw [runLevels_of_new hnew]
      cases hrun : (Grounding.runLevel (Setting.ofTask p.task)
          (schemasOf (Setting.ofTask p.task) p.operators)).run s with
      | error e => exact .fails hnew hrun
      | ok x =>
        have hnext := h.runLevel hvalid hnew x.1 x.2 hrun
        exact .next hnew hrun (ih hnext (by omega))
    · have hdone := Nat.le_of_not_lt hnew
      rw [runLevels_of_done hdone]
      exact .done hdone

/-! ## The beginning of the loop -/

/-- What is done before the loop over levels. -/
def beginLevels (p : Lifted.Problem) : Step Unit := do
  start p.task
  groundUnconditional (Setting.ofTask p.task) (schemasOf (Setting.ofTask p.task) p.operators)

/-- The loop begins with the values of the initial state as its first level. -/
theorem beginLevels_atBoundary (hvalid : p.validate = .ok ()) :
    (beginLevels p).Ensures {} fun _ s => AtBoundary p 0 s := by
  have hstart : (start p.task).Ensures {} fun _ s => GrownFrom p s s ∧ s.level = 0 ∧
      s.levelStart = 0 ∧ s.levelEnd = s.values.size ∧ s.levels = #[] := by
    refine Step.ensures_bind.mpr ((createInitialVariables_ensures p.task {}).mono ?_)
    rintro _ s₁ ⟨hcreates, -⟩
    refine Step.ensures_bind.mpr ((reachInitialValues_ensures p.task s₁).mono fun _ s hlast => ?_)
    have hreaches := (hcreates.reaches 0).trans hlast
    have hframe := hreaches.frame
    refine Step.ensures_modify.mpr ⟨⟨fun _ _ _ => id, State.IsLater.refl _, rfl, ?_, ?_⟩, ?_, ?_,
      rfl, ?_⟩
    · have hmirrored := hreaches.mirrored isMirrored_empty
      exact ⟨hmirrored.mem_iff, hmirrored.nodup⟩
    · intro v hv
      rcases (hreaches.mem_values_iff isMirrored_empty v).mp hv with hnone | hv
      · cases hnone
      · exact isSorted_of_isInitialValue hvalid (mem_filterMap_factValue.mp hv)
    -- nothing has moved on to another level, and none has been reported
    all_goals
      rw [hframe]
  refine Step.ensures_bind.mpr (hstart.mono ?_)
  rintro _ s₀ ⟨hrefl, hlevel, hbegin, hend, hnone⟩
  refine (groundUnconditional_ensures (P := fun _ => GrownFrom p s₀)
    (grownFrom_looksAtEach hvalid s₀) hrefl).mono fun _ s h => ?_
  have hlevels : s.levels = #[] := h.levels.trans hnone
  refine ⟨h.mirrored, h.sorted, isPaced_zero (h.later.levelStart.trans hbegin) ?_, ?_, ?_, ?_, ?_⟩
  · rw [h.later.levelEnd, hend]
    exact h.later.size_le
  · rw [h.later.level, hlevel]
  · rw [hlevels]
    rfl
  · rw [hlevels]
    exact List.Pairwise.nil
  · rw [hlevels]
    intro l hl
    cases hl

/-- Exploration ends at a boundary that has no values left. -/
theorem explore_atBoundary (hvalid : p.validate = .ok ()) :
    (explore p).Ensures {} fun _ s => ∃ k, AtBoundary p k s ∧ s.values.size ≤ s.levelStart := by
  have hbegin := Step.ensures_bind.mp (beginLevels_atBoundary hvalid)
  refine Step.ensures_bind.mpr (hbegin.mono fun _ _ h => Step.ensures_bind.mpr (h.mono ?_))
  intro _ s hs
  exact runLevels_ensures AtBoundary.paced AtBoundary.size_values_le (AtBoundary.runLevel hvalid) hs
    (Nat.zero_add _)

/-! ## What is reported -/

/-- The number of values that the variables of a task are recorded to reach. -/
def reachedCount (t : Task) : Nat :=
  (t.vars.toList.flatMap fun v => (v.reached.map (·.1)).dedup).length

/-- The levels of a task are reported in order: they are numbered from zero on, the number of
variables never decreases, and there are not many more levels than reached values. -/
structure ReportsLevels (t : Task) : Prop where
  length_le : t.stats.levels.length ≤ 1 + reachedCount t
  numbered : t.stats.levels.map (·.level) = List.range t.stats.levels.length
  ascending : (t.stats.levels.map (·.vars)).Pairwise (· ≤ ·)

/-- Every reached value is recorded at its variable. -/
theorem size_values_le_reachedCount {s s' : State} {t : Task} (h : IsResult p s s' t)
    (hs : s.IsMirrored) : s.values.size ≤ reachedCount t := by
  have hsub : s.values.toList ⊆ t.vars.toList.flatMap fun v =>
      (v.reached.map (·.1)).dedup.map fun o => (⟨v.function, v.arguments, o⟩ : ReachedValue) := by
    intro w hw
    obtain ⟨l, hl⟩ := (hs.mem_iff w).mp hw
    obtain ⟨v, hv, hf, has, hmem⟩ := (h.recorded_iff w l).mpr hl
    refine List.mem_flatMap.mpr ⟨v, hv, List.mem_map.mpr ⟨w.value, ?_, ?_⟩⟩
    · exact List.mem_dedup.mpr (List.mem_map_of_mem hmem)
    · rw [hf, has]
  have hle := (List.subperm_of_subset hs.nodup hsub).length_le
  simpa only [Array.length_toList, List.length_flatMap, List.length_map, reachedCount] using hle

/-- **Saturation ends.** The loop over levels has exactly one result from the state in which it
begins, and this is what running levels up to their bound gives. If saturation succeeds, then its
levels are reported in order, and there is at most one more of them than reached values. -/
theorem saturation_ends (hvalid : p.validate = .ok ()) :
    (∀ s, (beginLevels p).run {} = .ok ((), s) → ∀ r, LevelLoop p s r ↔
      ((runLevels (Setting.ofTask p.task) (schemasOf (Setting.ofTask p.task) p.operators)
        (valueBound p.task + 1)).run s).map Prod.snd = r) ∧
    ∀ t, (saturate p).run' {} = .ok t → ReportsLevels t := by
  constructor
  · intro s hrun r
    have hs : AtBoundary p 0 s := beginLevels_atBoundary hvalid () s hrun
    have hloop := hs.levelLoop hvalid (Nat.zero_add _)
    constructor
    · exact hloop.unique
    · rintro rfl
      exact hloop
  · intro t hsaturate
    obtain ⟨⟨t', s⟩, hrun, hresult⟩ := except_bind_eq_ok.mp hsaturate
    obtain rfl : t' = t := Except.ok.inj hresult
    refine saturate_ensures_levels (Q := ReportsLevels) ((explore_atBoundary hvalid).mono ?_) t' s
      hrun
    rintro _ s₁ ⟨k, hboundary, hdone⟩ s' t ht hlevels
    -- what comes after the levels leaves their statistics alone
    have hstats : t.stats.levels = s₁.levels.toList := by
      rw [hlevels, ht.creates.frame]
    have hlength : t.stats.levels.length = k := by
      have h := congrArg List.length hboundary.numbered
      rwa [List.length_map, List.length_range, ← hstats] at h
    have hreached := size_values_le_reachedCount ht hboundary.mirrored
    have hprogress := hboundary.paced.progress
    have hstart := hboundary.paced.start_le
    have hend := hboundary.paced.end_le
    refine ⟨by omega, ?_, ?_⟩
    · rw [hlength, hstats]
      exact hboundary.numbered
    · rw [hstats]
      exact hboundary.ascending

/-- For the parcels, the loop ends with two levels: one for the parcel that is here and one for the
parcel that is gone. -/
theorem parcels_saturation_ends : ∃ (t : Task) (s s' : State),
    (saturate parcels).run' {} = .ok t ∧ (beginLevels parcels).run {} = .ok ((), s) ∧
      LevelLoop parcels s (.ok s') ∧ t.stats.levels.length = 2 ∧ reachedCount t = 3 ∧
      ReportsLevels t := by
  have hrun : ∃ t ∈ ((saturate parcels).run' {}).toOption,
      ∃ x ∈ ((beginLevels parcels).run {}).toOption,
      ∃ y ∈ ((runLevels (Setting.ofTask parcels.task)
        (schemasOf (Setting.ofTask parcels.task) parcels.operators)
        (valueBound parcels.task + 1)).run x.2).toOption,
      t.stats.levels.length = 2 ∧ reachedCount t = 3 := by
    decide +kernel
  obtain ⟨t, ht, x, hx, y, hy, hlevels, hcount⟩ := hrun
  obtain ⟨hloop, hreports⟩ := saturation_ends (p := parcels) (by decide +kernel)
  have hsaturate := eq_ok_of_mem_toOption ht
  have hbegin := eq_ok_of_mem_toOption hx
  have hlast : LevelLoop parcels x.2 (.ok y.2) := by
    rw [hloop x.2 hbegin, eq_ok_of_mem_toOption hy]
    rfl
  exact ⟨t, x.2, y.2, hsaturate, hbegin, hlast, hlevels, hcount, hreports t hsaturate⟩

end TemporalPlanning.Grounding
