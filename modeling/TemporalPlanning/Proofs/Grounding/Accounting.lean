import Mathlib.Algebra.GroupWithZero.Nat
import Mathlib.Data.List.GetD
import TemporalPlanning.Proofs.Grounding.Ascending
import TemporalPlanning.Proofs.Grounding.LevelLoop
import TemporalPlanning.Proofs.Grounding.Removal
/-!
The statistics of grounding account for what grounding has found.

Values are listed in the order in which they are reached, so the levels cut their list into
segments: those that have been reported, the current level and the next one. What the variables
record is where in this list a value stands (`IsSegmented`), and looking at instances only appends
to the segment of the next level (`DatedFrom`). The actions of a level are counted as the difference
to a counter, which is set at the end of every level and is the sum of what all levels before have
reported (`IsAccounted`). Hence the reported numbers add up, whatever is
deduplicated or discarded within a level, and passes count what they drop.

There is one gap. Instances of operators without conditions to match are found before the first
level, and a level is only reported if there is a value to look at. If no value is ever reached,
their actions belong to no level.
-/
set_option autoImplicit false

namespace TemporalPlanning.Grounding

open Grounded

variable {p : Lifted.Problem}

/-! ## Within a level -/

variable (p) in
/-- Instances have been looked at since an earlier state of the level. Values that have been reached
since are recorded with the next level, actions have only been added, and none of them has been
counted. -/
structure DatedFrom (s₀ s : State) : Prop extends GrownFrom p s₀ s where
  records : ∀ v l, s.Records v l ↔ s₀.Records v l ∨
    (l = s₀.level + 1 ∧ v ∈ s.values.toList ∧ v ∉ s₀.values.toList)
  found : s₀.actions.size + s₀.goals.size ≤ s.actions.size + s.goals.size
  counted : s.counted = s₀.counted

namespace DatedFrom

variable {s₀ s s' : State}

theorem refl (h : GrownFrom p s s) : DatedFrom p s s :=
  ⟨h, fun _ _ => ⟨Or.inl, fun hv => hv.elim id fun ⟨_, hmem, hnew⟩ => absurd hmem hnew⟩,
    Nat.le_refl _, rfl⟩

theorem reaches (h : DatedFrom p s₀ s) {vs : List ReachedValue}
    (hreaches : s.Reaches (s₀.level + 1) vs s') (hvs : ∀ v ∈ vs, IsSorted p.task v) :
    DatedFrom p s₀ s' := by
  refine ⟨h.toGrownFrom.reaches hreaches hvs, fun v l => ?_, ?_, ?_⟩
  · -- a value is new to `s` if it is not listed there
    have hnone : (∀ l', ¬s.Records v l') ↔ v ∉ s.values.toList := by
      rw [h.mirrored.mem_iff, not_exists]
    rw [hreaches.records, hnone, h.records, hreaches.mem_values_iff h.mirrored]
    constructor
    · rintro ((hv | ⟨hl, hv, hnew⟩) | ⟨hl, hv, hnew⟩)
      · exact Or.inl hv
      · exact Or.inr ⟨hl, Or.inl hv, hnew⟩
      · exact Or.inr ⟨hl, Or.inr hv, fun hold => hnew (h.later.values.subset hold)⟩
    · rintro (hv | ⟨hl, hv, hnew⟩)
      · exact Or.inl (Or.inl hv)
      · by_cases hs : v ∈ s.values.toList
        · exact Or.inl (Or.inr ⟨hl, hs, hnew⟩)
        · exact Or.inr ⟨hl, hv.resolve_left hs, hs⟩
  · rw [hreaches.frame]
    exact h.found
  · rw [hreaches.frame]
    exact h.counted

theorem mark (h : DatedFrom p s₀ s) (schema : Schema) (name : String) (as : List ObjectId) :
    DatedFrom p s₀ (s.markTried schema name as) := by
  have hgrown := h.toGrownFrom.mark schema name as
  rw [State.markTried_frame] at hgrown ⊢
  exact ⟨hgrown, h.records, h.found, h.counted⟩

theorem add (h : DatedFrom p s₀ s) (a : Action) : DatedFrom p s₀ (s.add a) := by
  have hsize : s.actions.size + s.goals.size ≤ (s.add a).actions.size + (s.add a).goals.size := by
    unfold State.add
    split <;> simp only [Array.size_push] <;> omega
  have hgrown := h.toGrownFrom.add a
  have hfound := Nat.le_trans h.found hsize
  rw [State.add_frame] at hgrown hfound ⊢
  exact ⟨hgrown, h.records, hfound, h.counted⟩

end DatedFrom

/-- **Looking at an instance** dates what it reaches. -/
theorem datedFrom_looksAtEach (hvalid : p.validate = .ok ()) (s₀ : State) :
    LooksAtEach p fun _ => DatedFrom p s₀ := by
  intro i op as hi T s h
  refine (groundInstance_cases p.task as (schemaOf p i op) s).mono ?_
  rintro _ s' (⟨-, rfl⟩ | ⟨-, s₁, hcreates, hcontribution⟩)
  · exact h
  have hcreated : DatedFrom p s₀ s₁ :=
    (h.mark (schemaOf p i op) _ as).reaches (hcreates.reaches _) (fun _ hv => by cases hv)
  rcases hcontribution with ⟨-, rfl⟩ | ⟨-, a, s₂, -, -, hreaches, rfl⟩
  · exact hcreated
  · have hop := isSoundOperator_of_mem hvalid (List.mem_of_getElem? hi.operator)
    -- the effects of an instance belong to the level after the one of the values that enable it
    rw [hcreated.later.level] at hreaches
    have hreached : DatedFrom p s₀ s₂ :=
      hcreated.reaches hreaches fun v hv => isSorted_of_mem_changes hop hi.admissible hv
    exact hreached.add a

/-! ## From level to level -/

/-- The values of a state are those of the levels that have been reported, then those of the current
level and those of the next one, and every value is recorded with the level it belongs to. -/
structure State.IsSegmented (s : State) (past : List (List ReachedValue))
    (current next : List ReachedValue) : Prop where
  values : s.values.toList = past.flatten ++ current ++ next
  records : ∀ v l, s.Records v l ↔ v ∈ (past ++ [current, next]).getD l []
  newValues : s.levels.toList.map (·.newValues) = past.map List.length
  levelStart : s.levelStart = past.flatten.length
  levelEnd : s.levelEnd = (past.flatten ++ current).length

/-- Values that are appended to the last segment belong to its level. -/
theorem mem_getD_append_last {past : List (List ReachedValue)}
    {current next more : List ReachedValue} (v : ReachedValue) (l : Nat) :
    v ∈ (past ++ [current, next ++ more]).getD l [] ↔
      v ∈ (past ++ [current, next]).getD l [] ∨ (l = past.length + 1 ∧ v ∈ more) := by
  rcases Nat.lt_or_ge l past.length with hl | hl
  · rw [List.getD_append _ _ _ _ hl, List.getD_append _ _ _ _ hl]
    exact (or_iff_left fun h => by omega).symm
  · obtain ⟨i, rfl⟩ := Nat.exists_eq_add_of_le hl
    rw [List.getD_append_right _ _ _ _ hl, List.getD_append_right _ _ _ _ hl,
      Nat.add_sub_cancel_left]
    match i with
    | 0 => simp
    | 1 => simp
    | i + 2 => simp

/-- A further segment without values changes nothing. -/
theorem getD_append_nil (segments : List (List ReachedValue)) (l : Nat) :
    (segments ++ [[]]).getD l [] = segments.getD l [] := by
  rcases Nat.lt_or_ge l segments.length with hl | hl
  · exact List.getD_append _ _ _ _ hl
  · rw [List.getD_append_right _ _ _ _ hl, List.getD_eq_default _ _ hl]
    cases l - segments.length <;> rfl

namespace State.IsSegmented

variable {s s₁ : State} {past : List (List ReachedValue)} {current next : List ReachedValue}

/-- What is reached within a level is appended to the segment of the next one. -/
theorem grow (h : s.IsSegmented past current next) (hlevel : s.level = past.length)
    (hdated : DatedFrom p s s₁) : ∃ more, s₁.IsSegmented past current (next ++ more) := by
  obtain ⟨more, hmore⟩ := hdated.later.values
  have hnodup := hdated.mirrored.nodup
  rw [← hmore] at hnodup
  -- no value is listed twice, so the new ones are those behind the old ones
  have hmem : ∀ v, (v ∈ s₁.values.toList ∧ v ∉ s.values.toList) ↔ v ∈ more := by
    intro v
    rw [← hmore, List.mem_append]
    exact ⟨fun ⟨hv, hold⟩ => hv.resolve_left hold, fun hv =>
      ⟨Or.inr hv, fun hold => List.disjoint_of_nodup_append hnodup hold hv⟩⟩
  refine ⟨more, ?_, fun v l => ?_, ?_, hdated.later.levelStart.trans h.levelStart,
    hdated.later.levelEnd.trans h.levelEnd⟩
  · rw [← hmore, h.values]
    simp only [List.append_assoc]
  · rw [hdated.records, h.records, hmem, hlevel, mem_getD_append_last]
  · rw [hdated.levels, h.newValues]

/-- When the current level is reported, its segment is the last one of those before, and the
segment behind it becomes the current one. -/
theorem finish (h : s.IsSegmented past current next) {stats : LevelStats}
    (hstats : stats.newValues = s.levelEnd - s.levelStart) (level counted : Nat) :
    IsSegmented { s with
      levels := s.levels.push stats
      counted := counted
      level := level
      levelStart := s.levelEnd
      levelEnd := s.values.size } (past ++ [current]) next [] := by
  refine ⟨?_, fun v l => ?_, ?_, ?_, ?_⟩
  · show s.values.toList = _
    rw [h.values, List.flatten_append, List.flatten_singleton, List.append_nil]
  · refine Iff.trans (h.records v l) ?_
    rw [← getD_append_nil, List.append_assoc, List.append_assoc]
    rfl
  · simp only [Array.toList_push, List.map_append, List.map_cons, List.map_nil]
    rw [h.newValues, hstats, h.levelStart, h.levelEnd, List.length_append,
      Nat.add_sub_cancel_left]
  · show s.levelEnd = _
    rw [h.levelEnd, List.flatten_append, List.flatten_singleton]
  · show s.values.size = _
    rw [← Array.length_toList, h.values, List.flatten_append, List.flatten_singleton]

end State.IsSegmented

variable (p) in
/-- The state between two levels, with what has been reported about the levels before it. -/
structure IsAccounted (k : Nat) (s : State) : Prop extends AtBoundary p k s where
  segmented : ∃ past current next, s.IsSegmented past current next
  initial : ∀ v, IsInitialValue p v → v ∈ s.values.toList
  /-- A level is only run if there is a value to look at. -/
  nonempty : s.levels.toList ≠ [] → s.values.toList ≠ []
  newActions : (s.levels.toList.map (·.newActions)).sum = s.counted
  counted_le : s.counted ≤ s.actions.size + s.goals.size
  /-- What is found before the first level is counted with it. -/
  counted_eq : s.levels.toList ≠ [] → s.counted = s.actions.size + s.goals.size

/-- The levels are numbered, so a state between two levels has as many segments as levels. -/
theorem AtBoundary.length_levels {k : Nat} {s : State} (h : AtBoundary p k s) :
    s.levels.toList.length = k := by
  simpa using congrArg List.length h.numbered

theorem State.IsSegmented.length_past {k : Nat} {s : State} {past : List (List ReachedValue)}
    {current next : List ReachedValue} (h : s.IsSegmented past current next)
    (hboundary : AtBoundary p k s) : past.length = k := by
  rw [← hboundary.length_levels]
  simpa using (congrArg List.length h.newValues).symm

/-- **Running a level** leads from one account to the next. -/
theorem IsAccounted.runLevel (hvalid : p.validate = .ok ()) {k : Nat} {s : State}
    (h : IsAccounted p k s) (hnew : s.levelStart < s.values.size) :
    (Grounding.runLevel (Setting.ofTask p.task)
      (schemasOf (Setting.ofTask p.task) p.operators)).Ensures s fun _ s' =>
        IsAccounted p (k + 1) s' := by
  intro a s' hrun
  have hboundary := h.toAtBoundary.runLevel hvalid hnew a s' hrun
  suffices haccount : (Grounding.runLevel (Setting.ofTask p.task)
      (schemasOf (Setting.ofTask p.task) p.operators)).Ensures s fun _ s' =>
        (∃ past current next, s'.IsSegmented past current next) ∧
        (∀ v, IsInitialValue p v → v ∈ s'.values.toList) ∧ s'.values.toList ≠ [] ∧
        (s'.levels.toList.map (·.newActions)).sum = s'.counted ∧
        s'.counted = s'.actions.size + s'.goals.size from
    have ⟨hsegmented, hinitial, hsome, hactions, hcounted⟩ := haccount a s' hrun
    ⟨hboundary, hsegmented, hinitial, fun _ => hsome, hactions, Nat.le_of_eq hcounted,
      fun _ => hcounted⟩
  have hrefl : DatedFrom p s s :=
    .refl ⟨fun _ _ _ => id, State.IsLater.refl s, rfl, h.mirrored, h.sorted⟩
  refine Step.ensures_bind.mpr (Step.ensures_get.mpr (Step.ensures_bind.mpr ?_))
  refine (groundTriggered_ensures (P := fun _ => DatedFrom p s) hvalid
    (datedFrom_looksAtEach hvalid s) hrefl).mono fun _ s₁ h₁ => Step.ensures_modify.mpr ?_
  obtain ⟨past, current, next, hs⟩ := h.segmented
  obtain ⟨more, hs₁⟩ := hs.grow (h.level.trans (hs.length_past h.toAtBoundary).symm) h₁
  refine ⟨⟨_, _, _, hs₁.finish rfl _ _⟩, fun v hv => h₁.later.values.subset (h.initial v hv),
    ?_, ?_, rfl⟩
  · have hsize := h₁.later.size_le
    refine List.ne_nil_of_length_pos ?_
    show 0 < s₁.values.toList.length
    rw [Array.length_toList]
    omega
  · -- what has been counted before is at most what there is now
    have hle := Nat.le_trans h.counted_le h₁.found
    simp only [Array.toList_push, List.map_append, List.map_cons, List.map_nil, List.sum_append,
      List.sum_singleton]
    rw [h₁.levels, h.newActions, h₁.counted, Nat.add_sub_cancel' hle]

/-- The values of the initial state are the first segment. -/
theorem start_isSegmented (hvalid : p.validate = .ok ()) :
    (start p.task).Ensures {} fun _ s => GrownFrom p s s ∧ s.level = 0 ∧ s.counted = 0 ∧
      s.IsSegmented [] s.values.toList [] ∧ ∀ v, IsInitialValue p v → v ∈ s.values.toList := by
  refine Step.ensures_bind.mpr ((createInitialVariables_ensures p.task {}).mono ?_)
  rintro _ s₁ ⟨hcreates, -⟩
  refine Step.ensures_bind.mpr ((reachInitialValues_ensures p.task s₁).mono fun _ s hlast => ?_)
  have hreaches := (hcreates.reaches 0).trans hlast
  have hframe := hreaches.frame
  have hmirrored := hreaches.mirrored isMirrored_empty
  have hmem : ∀ v, v ∈ s.values.toList ↔ IsInitialValue p v := fun v => by
    rw [hreaches.mem_values_iff isMirrored_empty, List.nil_append, mem_filterMap_factValue]
    exact or_iff_right List.not_mem_nil
  have hrecords : ∀ v l, s.Records v l ↔ l = 0 ∧ v ∈ s.values.toList := fun v l => by
    rw [hreaches.records, List.nil_append, mem_filterMap_factValue, hmem]
    exact ⟨fun h => h.elim (absurd · (not_records_empty v l)) fun ⟨hl, hv, _⟩ => ⟨hl, hv⟩,
      fun ⟨hl, hv⟩ => Or.inr ⟨hl, hv, not_records_empty v⟩⟩
  refine Step.ensures_modify.mpr ⟨⟨fun _ _ _ => id, .refl _, rfl, ⟨hmirrored.mem_iff,
    hmirrored.nodup⟩, fun v hv => isSorted_of_isInitialValue hvalid ((hmem v).mp hv)⟩, ?_, ?_,
    ⟨?_, fun v l => ?_, ?_, ?_, ?_⟩, fun v hv => (hmem v).mpr hv⟩
  · rw [hframe]
  · rw [hframe]
  · exact (List.append_nil _).symm
  · refine Iff.trans (hrecords v l) ?_
    match l with
    | 0 => simp
    | 1 => simp
    | l + 2 => simp
  · rw [hframe]
    rfl
  · rw [hframe]
    rfl
  · exact Array.length_toList.symm

/-- The loop begins with the values of the initial state as its first level, and with nothing
reported. -/
theorem beginLevels_isAccounted (hvalid : p.validate = .ok ()) :
    (beginLevels p).Ensures {} fun _ s => IsAccounted p 0 s := by
  intro a s hrun
  have hboundary := beginLevels_atBoundary hvalid a s hrun
  suffices haccount : (beginLevels p).Ensures {} fun _ s =>
      (∃ past current next, s.IsSegmented past current next) ∧
      (∀ v, IsInitialValue p v → v ∈ s.values.toList) ∧ s.counted = 0 from by
    obtain ⟨hsegmented, hinitial, hzero⟩ := haccount a s hrun
    have hnone := List.length_eq_zero_iff.mp hboundary.length_levels
    exact ⟨hboundary, hsegmented, hinitial, fun h => absurd hnone h, by rw [hnone, hzero]; rfl,
      hzero ▸ Nat.zero_le _, fun h => absurd hnone h⟩
  refine Step.ensures_bind.mpr ((start_isSegmented hvalid).mono ?_)
  rintro _ s₀ ⟨hgrown, hlevel, hzero, hsegmented, hinitial⟩
  refine (groundUnconditional_ensures (P := fun _ => DatedFrom p s₀)
    (datedFrom_looksAtEach hvalid s₀) (.refl hgrown)).mono fun _ s h => ?_
  obtain ⟨more, hs⟩ := hsegmented.grow hlevel h
  exact ⟨⟨_, _, _, hs⟩, fun v hv => h.later.values.subset (hinitial v hv), h.counted.trans hzero⟩

/-- Exploration ends with an account to which nothing has to be added. -/
theorem explore_isAccounted (hvalid : p.validate = .ok ()) :
    (explore p).Ensures {} fun _ s => ∃ k, IsAccounted p k s ∧ s.values.size ≤ s.levelStart := by
  have hbegin := Step.ensures_bind.mp (beginLevels_isAccounted hvalid)
  refine Step.ensures_bind.mpr (hbegin.mono fun _ _ h => Step.ensures_bind.mpr (h.mono ?_))
  intro _ s hs
  exact runLevels_ensures (P := IsAccounted p) (fun h => h.paced) (fun h => h.size_values_le)
    (fun h => h.runLevel hvalid) hs (Nat.zero_add _)

/-! ## The saturated task -/

/-- The number of pairs of a variable and a value that it is recorded to reach at a level. -/
def reachedAt (vars : List Variable) (level : Nat) : Nat :=
  (vars.flatMap (·.reached)).countP (·.2 == level)

/-- The values that a variable is recorded to reach at a level. -/
def valuesAt (level : Nat) (v : Variable) : List ReachedValue :=
  (v.reached.filter (·.2 == level)).map fun e => ⟨v.function, v.arguments, e.1⟩

section Counting

variable {t : Task} {level : Nat}

theorem length_flatMap_valuesAt (vars : List Variable) (level : Nat) :
    (vars.flatMap (valuesAt level)).length = reachedAt vars level := by
  simp only [reachedAt, valuesAt, List.length_flatMap, List.length_map, List.countP_flatMap,
    ← List.countP_eq_length_filter]
  rfl

theorem mem_flatMap_valuesAt (v : ReachedValue) :
    v ∈ t.vars.toList.flatMap (valuesAt level) ↔ Recorded t v level := by
  simp only [valuesAt, Recorded, List.mem_flatMap, List.mem_map, List.mem_filter, beq_iff_eq]
  constructor
  · rintro ⟨entry, hentry, ⟨o, l⟩, ⟨hmem, rfl⟩, rfl⟩
    exact ⟨entry, hentry, rfl, rfl, hmem⟩
  · rintro ⟨entry, hentry, hf, has, hmem⟩
    exact ⟨entry, hentry, _, ⟨hmem, rfl⟩, by rw [hf, has]⟩

/-- No pair of a variable and a value is recorded twice. -/
theorem nodup_flatMap_valuesAt (horderly : t.IsOrderly) (hascending : IsAscendingTask t) :
    (t.vars.toList.flatMap (valuesAt level)).Nodup := by
  refine List.nodup_flatMap.mpr ⟨fun v hv => ?_, List.pairwise_iff_getElem.mpr ?_⟩
  · -- a variable lists each object once
    obtain ⟨i, hi⟩ := List.mem_iff_getElem?.mp hv
    rw [Array.getElem?_toList] at hi
    refine List.Pairwise.map _ (fun e e' hne heq => ?_) ((hascending i v hi).filter _)
    have ho : e.1 = e'.1 := congrArg ReachedValue.value heq
    rw [ho] at hne
    exact Nat.lt_irrefl _ hne
  · -- two variables differ in their functions or arguments
    intro i j hi hj hij v hv hv'
    obtain ⟨e, -, rfl⟩ := List.mem_map.mp hv
    obtain ⟨e', -, heq⟩ := List.mem_map.mp hv'
    have hvar : ∀ {n : Nat} (hn : n < t.vars.toList.length),
        t.vars[n]? = some t.vars.toList[n] := fun hn => by
      rw [← Array.getElem?_toList]
      exact List.getElem?_eq_getElem hn
    have hsame := horderly.distinct i j _ _ (hvar hi) (hvar hj)
      (congrArg ReachedValue.function heq).symm (congrArg ReachedValue.arguments heq).symm
    exact Nat.ne_of_lt hij hsame

/-- If the values that are recorded with a level are listed, their number is the length of the
list. -/
theorem reachedAt_eq_length (horderly : t.IsOrderly) (hascending : IsAscendingTask t)
    {values : List ReachedValue} (hnodup : values.Nodup)
    (hvalues : ∀ v, Recorded t v level ↔ v ∈ values) :
    reachedAt t.vars.toList level = values.length := by
  rw [← length_flatMap_valuesAt]
  refine ((List.perm_ext_iff_of_nodup (nodup_flatMap_valuesAt horderly hascending)
    hnodup).mpr fun v => ?_).length_eq
  rw [mem_flatMap_valuesAt, hvalues]

end Counting

/-- The number of actions and goals that have been found: those that there are and those that have
been dropped. -/
def foundCount (t : Task) : Nat := t.stats.droppedActions + (t.actions.length + t.goals.length)

/-- The levels of a task report what it records: how many values are reached at which level, and, if
there are levels, how many actions and goals have been found. There are levels if and only if a
value is reached. -/
structure ReportsContents (p : Lifted.Problem) (t : Task) : Prop where
  newActions : t.stats.levels ≠ [] → (t.stats.levels.map (·.newActions)).sum = foundCount t
  initial : (∃ v, IsInitialValue p v) → t.stats.levels ≠ []
  reached : t.stats.levels = [] ↔ ∀ k, reachedAt t.vars.toList k = 0
  newValues : ∀ l ∈ t.stats.levels, l.newValues = reachedAt t.vars.toList l.level
  noValues : ∀ k, (∀ l ∈ t.stats.levels, l.level ≠ k) → reachedAt t.vars.toList k = 0

section Account

variable {k : Nat} {s : State} {past : List (List ReachedValue)}
  {current next : List ReachedValue} (h : s.IsSegmented past current next)
include h

/-- When no value is left, all values belong to levels that have been reported. -/
theorem State.IsSegmented.of_done (hdone : s.values.size ≤ s.levelStart) :
    s.values.toList = past.flatten ∧ ∀ v l, s.Records v l ↔ v ∈ past.getD l [] := by
  obtain ⟨rfl, rfl⟩ : current = [] ∧ next = [] := by
    have hsize := congrArg List.length h.values
    rw [h.levelStart, ← Array.length_toList, hsize] at hdone
    simp only [List.length_append] at hdone
    exact ⟨List.length_eq_zero_iff.mp (by omega), List.length_eq_zero_iff.mp (by omega)⟩
  refine ⟨by simpa using h.values, fun v l => ?_⟩
  rw [h.records, ← getD_append_nil past, ← getD_append_nil (past ++ [[]]), List.append_assoc]
  rfl

/-- Levels are reported with their numbers and the lengths of their segments. -/
theorem State.IsSegmented.entry (hboundary : AtBoundary p k s) {i : Nat} {l : LevelStats}
    (hl : s.levels.toList[i]? = some l) : l.level = i ∧ l.newValues = (past.getD i []).length := by
  have hlt : i < k := hboundary.length_levels ▸ (List.getElem?_eq_some_iff.mp hl).1
  have hnumbered := congrArg (·[i]?) hboundary.numbered
  have hnew := congrArg (·[i]?) h.newValues
  simp only [List.getElem?_map, hl, Option.map_some, List.getElem?_range hlt] at hnumbered hnew
  obtain ⟨segment, hsegment, hlength⟩ := Option.map_eq_some_iff.mp hnew.symm
  refine ⟨Option.some.inj hnumbered, ?_⟩
  rw [List.getD_eq_getElem?_getD, hsegment]
  exact hlength.symm

end Account

/-- What an account comes to when no value is left. -/
theorem IsAccounted.reportsContents {k : Nat} {s s' : State} {t : Task} (h : IsAccounted p k s)
    (hdone : s.values.size ≤ s.levelStart) (ht : IsResult p s s' t) (horderly : t.IsOrderly)
    (hascending : IsAscendingTask t) (hlevels : t.stats.levels = s.levels.toList)
    (hdropped : t.stats.droppedActions = 0) : ReportsContents p t := by
  obtain ⟨past, current, next, hs⟩ := h.segmented
  have hpast := hs.length_past h.toAtBoundary
  obtain ⟨hvalues, hrecords⟩ := hs.of_done hdone
  have hnodup := h.mirrored.nodup
  rw [hvalues] at hnodup
  have hcount : ∀ l, reachedAt t.vars.toList l = (past.getD l []).length := fun l => by
    refine reachedAt_eq_length horderly hascending ?_ fun v =>
      (ht.recorded_iff v l).trans (hrecords v l)
    rcases Nat.lt_or_ge l past.length with hl | hl
    · rw [List.getD_eq_getElem _ _ hl]
      exact (List.nodup_flatten.mp hnodup).1 _ (List.getElem_mem hl)
    · rw [List.getD_eq_default _ _ hl]
      exact List.nodup_nil
  have hempty : t.stats.levels = [] ↔ past = [] := by
    rw [hlevels, ← List.length_eq_zero_iff, ← List.length_eq_zero_iff, hpast, h.length_levels]
  refine ⟨fun hsome => ?_, fun ⟨v, hv⟩ hnone => ?_, ⟨fun hnone l => ?_, fun hzero => ?_⟩,
    fun l hl => ?_, fun i hi => ?_⟩
  · rw [hlevels] at hsome ⊢
    rw [h.newActions, h.counted_eq hsome, foundCount, hdropped, Nat.zero_add,
      ← ht.actions.length_eq, ← ht.goals.length_eq, Array.length_toList, Array.length_toList]
  · -- without levels there are no values
    have hmem := h.initial v hv
    rw [hvalues, hempty.mp hnone] at hmem
    cases hmem
  · rw [hcount, hempty.mp hnone]
    rfl
  · -- the first value belongs to some level
    by_contra hsome
    rw [hlevels] at hsome
    obtain ⟨v, hv⟩ := List.exists_mem_of_ne_nil _ (h.nonempty hsome)
    obtain ⟨l, hl⟩ := (h.mirrored.mem_iff v).mp hv
    rw [hrecords, List.length_eq_zero_iff.mp ((hcount l).symm.trans (hzero l))] at hl
    cases hl
  · rw [hlevels] at hl
    obtain ⟨i, hi⟩ := List.mem_iff_getElem?.mp hl
    obtain ⟨rfl, hnew⟩ := hs.entry h.toAtBoundary hi
    rw [hcount, hnew]
  · -- a level that is not reported comes after those that are
    rw [hcount]
    refine List.length_eq_zero_iff.mpr (List.getD_eq_default _ _ (Nat.le_of_not_lt fun hlt => ?_))
    have hlength : i < s.levels.toList.length := by rwa [h.length_levels, ← hpast]
    refine hi _ ?_ (hs.entry h.toAtBoundary (List.getElem?_eq_getElem hlength)).1
    rw [hlevels]
    exact List.getElem_mem hlength

/-- **Saturation reports what it finds.** -/
theorem saturate_reportsContents (hvalid : p.validate = .ok ()) :
    (saturate p).Ensures {} fun t _ => ReportsContents p t := by
  intro t s hrun
  obtain ⟨-, hdropped⟩ := saturate_stats p t s hrun
  have horderly := saturate_isOrderly p t s hrun
  have hascending := saturate_isAscending p t s hrun
  suffices hreports : (saturate p).Ensures {} fun t _ => t.IsOrderly → IsAscendingTask t →
      t.stats.droppedActions = 0 → ReportsContents p t from
    hreports t s hrun horderly hascending hdropped
  refine saturate_ensures_levels ((explore_isAccounted hvalid).mono ?_)
  rintro _ s₁ ⟨k, haccounted, hdone⟩ s' t ht hlevels horderly hascending
  refine haccounted.reportsContents hdone ht horderly hascending ?_
  rw [hlevels, ht.creates.frame]

/-! ## After saturation -/

section Dropping

variable {t t' : Task}

theorem length_le_of_selects {α β : Type} {Kept : α → β → Prop} {Dropped : α → Prop} {as : List α}
    {bs : List β} (h : Selects Kept Dropped as bs) : bs.length ≤ as.length := by
  induction h with
  | nil => exact Nat.le_refl 0
  | keep _ _ ih => exact Nat.succ_le_succ ih
  | drop _ _ ih => exact Nat.le_succ_of_le ih

theorem length_renumber (actions : List Action) : (renumber actions).length = actions.length :=
  (forall₂_renumber actions).length_eq.symm

/-- A step after saturation counts what it drops and leaves the levels alone. -/
structure KeepsCounts (t t' : Task) : Prop where
  levels : t'.stats.levels = t.stats.levels
  found : foundCount t' = foundCount t

theorem Pass.keepsCounts (h : Pass t t') : KeepsCounts t t' := by
  obtain ⟨count, h⟩ := h
  unfold removeStaticPass at h
  dsimp only at h
  split at h
  · cases h
    exact ⟨rfl, rfl⟩
  · obtain ⟨actions, hactions, h⟩ := except_bind_eq_ok.mp h
    obtain ⟨goals, hgoals, h⟩ := except_bind_eq_ok.mp h
    obtain ⟨_, -, h⟩ := except_bind_eq_ok.mp h
    cases h
    have hle := length_le_of_selects (selects_of_keepResidues hactions)
    have hle' := length_le_of_selects (selects_of_keepResidues hgoals)
    refine ⟨rfl, ?_⟩
    simp only [foundCount, length_renumber]
    omega

theorem keepsCounts_of_passes (h : Relation.ReflTransGen Pass t t') : KeepsCounts t t' := by
  induction h with
  | refl => exact ⟨rfl, rfl⟩
  | tail _ hpass ih =>
    exact ⟨hpass.keepsCounts.levels.trans ih.levels, hpass.keepsCounts.found.trans ih.found⟩

theorem keepsCounts_of_removeStatics (h : removeStatics t = .ok t') : KeepsCounts t t' := by
  obtain ⟨result, hresult, heq⟩ := except_bind_eq_ok.mp h
  cases heq
  have hcounts := keepsCounts_of_passes (passes_of_removePasses hresult)
  exact ⟨hcounts.levels, hcounts.found⟩

theorem decideNumericConditions_keepsCounts (t : Task) :
    KeepsCounts t (decideNumericConditions t) := by
  have hle := List.length_filterMap_le decideConditions t.actions
  refine ⟨rfl, ?_⟩
  simp only [foundCount, decideNumericConditions, length_renumber]
  omega

/-- The last step gives initial values to variables, which keep their reached values. -/
theorem reachedAt_setInitialValues (t : Task) (level : Nat) :
    reachedAt (setInitialValues (decideNumericConditions t)).vars.toList level =
      reachedAt t.vars.toList level := by
  simp only [reachedAt, setInitialValues, decideNumericConditions, Array.toList_map,
    List.flatMap_map]

end Dropping

/-! ## Grounded tasks -/

/-- **Grounding accounts for what it has found.** The reported numbers of new actions add up to the
actions and goals that there are and those that have been dropped, exactly if a level has been
reported or nothing has been found at all; and a level has been reported if the initial state has a
value. If static variables are kept, it can be seen from the variables whether a level has been
reported: it has if a value is reached. A level then reports as many new values as the variables are
recorded to reach at it, and nothing is recorded to be reached at a level that is not reported. -/
theorem ground_accounts {keepStatic : Bool} {t : Task} (h : ground p keepStatic = .ok t) :
    ((t.stats.levels.map (·.newActions)).sum =
        t.stats.droppedActions + (t.actions.length + t.goals.length) ↔
      t.stats.levels ≠ [] ∨
        t.actions = [] ∧ t.goals = [] ∧ t.stats.droppedActions = 0) ∧
    ((∃ fact ∈ p.task.init, ∃ o, fact.value = .object o) → t.stats.levels ≠ []) ∧
    (keepStatic = true → (t.stats.levels = [] ↔ ∀ k, reachedAt t.vars.toList k = 0) ∧
      (∀ l ∈ t.stats.levels, l.newValues = reachedAt t.vars.toList l.level) ∧
      ∀ k, (∀ l ∈ t.stats.levels, l.level ≠ k) → reachedAt t.vars.toList k = 0) := by
  obtain ⟨hvalid, saturated, s, reduced, hrun, hreduced, rfl⟩ := ground_eq_ok h
  have hreports := saturate_reportsContents hvalid saturated s hrun
  have hcounts : KeepsCounts saturated reduced := by
    split at hreduced
    · rw [hreduced]
      exact ⟨rfl, rfl⟩
    · exact keepsCounts_of_removeStatics hreduced
  have hdecided := decideNumericConditions_keepsCounts reduced
  have hlevels : (setInitialValues (decideNumericConditions reduced)).stats.levels =
      saturated.stats.levels := hdecided.levels.trans hcounts.levels
  have hfound : foundCount (setInitialValues (decideNumericConditions reduced)) =
      foundCount saturated := hdecided.found.trans hcounts.found
  refine ⟨?_, fun ⟨fact, hfact, o, hvalue⟩ => ?_, fun hkeep => ?_⟩
  · show _ = foundCount _ ↔ _
    rw [hlevels]
    by_cases hnone : saturated.stats.levels = []
    · -- nothing is reported
      rw [hnone, foundCount]
      simp only [List.map_nil, List.sum_nil, ne_eq, not_true_eq_false, false_or,
        ← List.length_eq_zero_iff]
      omega
    · rw [hfound, hreports.newActions hnone]
      exact iff_of_true rfl (Or.inl hnone)
  · rw [hlevels]
    exact hreports.initial ⟨⟨fact.function, fact.arguments, o⟩, fact, hfact, hvalue, rfl, rfl⟩
  · rw [if_pos hkeep] at hreduced
    rw [hlevels, hreduced]
    simp only [reachedAt_setInitialValues]
    exact ⟨hreports.reached, hreports.newValues, hreports.noValues⟩

/-- The lamp that cannot be switched on has no facts: its instance is found before there are values,
its effect is the only value of level one, and it is dropped at the end. -/
theorem brokenLamp_accounts : ∃ t, ground brokenLamp true = .ok t ∧
    t.stats.levels.map (fun l => (l.level, l.newValues, l.newActions)) = [(0, 0, 1), (1, 1, 0)] ∧
    t.stats.droppedActions = 1 ∧ t.actions.length = 0 ∧ t.goals.length = 0 ∧
    reachedAt t.vars.toList 0 = 0 ∧ reachedAt t.vars.toList 1 = 1 ∧
    (t.stats.levels.map (·.newActions)).sum =
      t.stats.droppedActions + (t.actions.length + t.goals.length) ∧
    (∀ l ∈ t.stats.levels, l.newValues = reachedAt t.vars.toList l.level) ∧
    ∀ k, (∀ l ∈ t.stats.levels, l.level ≠ k) → reachedAt t.vars.toList k = 0 := by
  have hrun : ∃ t ∈ (ground brokenLamp true).toOption,
      t.stats.levels.map (fun l => (l.level, l.newValues, l.newActions)) =
        [(0, 0, 1), (1, 1, 0)] ∧
      t.stats.droppedActions = 1 ∧ t.actions.length = 0 ∧ t.goals.length = 0 ∧
      reachedAt t.vars.toList 0 = 0 ∧ reachedAt t.vars.toList 1 = 1 := by
    decide +kernel
  obtain ⟨t, ht, hlevels, hdropped, hactions, hgoals, hzero, hone⟩ := hrun
  have hground := eq_ok_of_mem_toOption ht
  obtain ⟨hsum, -, hkept⟩ := ground_accounts hground
  obtain ⟨-, hnewValues, hnoValues⟩ := hkept rfl
  refine ⟨t, hground, hlevels, hdropped, hactions, hgoals, hzero, hone, hsum.mpr (Or.inl ?_),
    hnewValues, hnoValues⟩
  intro hnone
  rw [hnone] at hlevels
  cases hlevels

open Lifted in
/-- There is nothing to do but wait. -/
def waitingRoom : Problem where
  task := .ofPropositions [] []
  operators := [.ofHappenings "wait" .empty .empty]

/-- Waiting is found before the first level and reaches nothing, so there is no level to report it:
the numbers of new actions add up to nothing, but the task has an action. -/
theorem exists_unreported_action : ∃ t, ground waitingRoom true = .ok t ∧
    t.stats.levels = [] ∧ t.actions.length = 1 ∧ t.goals.length = 0 ∧ t.stats.droppedActions = 0 ∧
    (t.stats.levels.map (·.newActions)).sum ≠
      t.stats.droppedActions + (t.actions.length + t.goals.length) := by
  have hrun : ∃ t ∈ (ground waitingRoom true).toOption, t.stats.levels = [] ∧
      t.actions.length = 1 ∧ t.goals.length = 0 ∧ t.stats.droppedActions = 0 := by
    decide +kernel
  obtain ⟨t, ht, hlevels, hactions, hgoals, hdropped⟩ := hrun
  refine ⟨t, eq_ok_of_mem_toOption ht, hlevels, hactions, hgoals, hdropped, ?_⟩
  rw [hlevels, hactions, hgoals, hdropped]
  decide

end TemporalPlanning.Grounding
