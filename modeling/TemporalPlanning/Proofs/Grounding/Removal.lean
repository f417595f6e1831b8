import TemporalPlanning.Proofs.Grounding.WellFormed
/-!
Removing static variables until none is left.

A pass that removes something leaves fewer variables, so passes repeated as often as there are
variables, and once more, end with one that removes nothing: every variable that is left changes.
Each action that is left has then been looked at by the last pass that removed something, which has
decided its numeric conditions between numbers. Deciding these once more drops no action, and no
variable loses what changes it.

If already the first pass finds nothing to remove, no action has been looked at. The numeric
conditions are then decided for the first time after the passes, and an action that is dropped
there may have been the only one that changes a variable.
-/
set_option autoImplicit false

namespace TemporalPlanning.Grounded

/-- A variable changes in the course of plans: an action writes it, or it has more than an initial
value. -/
inductive Task.Changes (t : Task) (v : VarId) (entry : Variable) : Prop
  | written (a : Action) (ha : a ∈ t.actions) (h : a.writes v = true)
  | facts (h : 2 ≤ (Grounding.factsOf t.task entry).length)
  | later (fact : Lifted.Fact) (h : Grounding.factsOf t.task entry = [fact])
    (htime : ¬fact.time ≤ 0.0)

end TemporalPlanning.Grounded

namespace TemporalPlanning.Grounding

open Grounded

/-! ## Variables that change -/

section Changes

variable {t : Task} {v : VarId} {entry : Variable}

theorem changes_iff_constancyOf :
    t.Changes v entry ↔ constancyOf t.task (t.actions.any (·.writes v)) entry = .changing := by
  rw [constancyOf]
  split
  next hwritten =>
    obtain ⟨a, ha, h⟩ := List.any_eq_true.mp hwritten
    exact iff_of_true (.written a ha h) rfl
  next hwritten =>
    -- no action writes the variable, so its facts decide
    have hfacts : t.Changes v entry ↔ 2 ≤ (factsOf t.task entry).length ∨
        ∃ fact, factsOf t.task entry = [fact] ∧ ¬fact.time ≤ 0.0 := by
      constructor
      · rintro (⟨a, ha, h⟩ | h | ⟨fact, h, htime⟩)
        · exact absurd (List.any_eq_true.mpr ⟨a, ha, h⟩) hwritten
        · exact Or.inl h
        · exact Or.inr ⟨fact, h, htime⟩
      · rintro (h | ⟨fact, h, htime⟩)
        · exact .facts h
        · exact .later fact h htime
    rw [hfacts]
    split
    next h =>
      simp only [h, List.length_nil, reduceCtorEq, false_and, exists_false, or_false]
      refine iff_of_false (by omega) fun h => ?_
      split at h <;> cases h
    next fact h =>
      rw [h]
      simp only [List.length_singleton, List.cons.injEq, and_true, exists_eq_left']
      split
      next htime => simp [htime]
      next htime => simp [htime]
    next hnil hsingle =>
      refine iff_of_true (Or.inl ?_) rfl
      rcases hl : factsOf t.task entry with _ | ⟨fact, _ | _⟩
      · exact absurd hl hnil
      · exact absurd hl (hsingle fact)
      · simp

/-- Which variables change depends on the facts and the actions only. -/
theorem changes_of_eq {t' : Task} (h : t.Changes v entry) (htask : t'.task = t.task)
    (hactions : t'.actions = t.actions) : t'.Changes v entry := by
  rw [changes_iff_constancyOf, htask, hactions]
  exact changes_iff_constancyOf.mp h

instance : Decidable (t.Changes v entry) := decidable_of_iff _ changes_iff_constancyOf.symm

/-- Every variable of a task changes. -/
def AllChange (t : Task) : Prop := ∀ (i : Nat) (entry : Variable), t.vars[i]? = some entry →
  t.Changes ⟨i⟩ entry

theorem allChange_iff : AllChange t ↔ ∀ c ∈ (constancies t).toList, c = .changing := by
  constructor
  · intro h c hc
    obtain ⟨i, hi⟩ := List.mem_iff_getElem?.mp hc
    rw [Array.getElem?_toList, getElem?_constancies t ⟨i⟩] at hi
    obtain ⟨entry, hentry, rfl⟩ := Option.map_eq_some_iff.mp hi
    exact changes_iff_constancyOf.mp (h i entry hentry)
  · intro h i entry hentry
    refine changes_iff_constancyOf.mpr (h _ (List.mem_iff_getElem?.mpr ⟨i, ?_⟩))
    rw [Array.getElem?_toList, getElem?_constancies t ⟨i⟩, constancy?, hentry]
    rfl

end Changes

/-! ## One pass -/

section Pass

variable {t t' : Task} {count : Nat}

/-- The number of variables that a pass removes. -/
def staticCount (t : Task) : Nat :=
  ((constancies t).toList.filter fun c => c ≠ .changing).length

theorem staticCount_eq_zero_iff : staticCount t = 0 ↔ AllChange t := by
  rw [staticCount, List.length_eq_zero_iff, List.filter_eq_nil_iff, allChange_iff]
  simp

/-- A pass removes nothing from a task whose variables all change. -/
theorem removeStaticPass_of_allChange (h : AllChange t) : removeStaticPass t = .ok (t, 0) :=
  if_pos (staticCount_eq_zero_iff.mpr h)

theorem count_of_removeStaticPass (h : removeStaticPass t = .ok (t', count)) :
    count = staticCount t := by
  unfold removeStaticPass at h
  dsimp only at h
  split at h
  next hcount =>
    cases h
    exact hcount.symm
  · obtain ⟨_, -, h⟩ := except_bind_eq_ok.mp h
    obtain ⟨_, -, h⟩ := except_bind_eq_ok.mp h
    obtain ⟨_, -, h⟩ := except_bind_eq_ok.mp h
    cases h
    rfl

/-- A pass that removes nothing leaves a task as it is, and all of its variables change. -/
theorem of_removeStaticPass_eq_zero (h : removeStaticPass t = .ok (t', 0)) :
    t' = t ∧ AllChange t := by
  have hall := staticCount_eq_zero_iff.mp (count_of_removeStaticPass h).symm
  rw [removeStaticPass_of_allChange hall] at h
  cases h
  exact ⟨rfl, hall⟩

theorem size_remainingVariables {vars : Array Variable} {l : List Nat}
    (hl : ∀ i ∈ l, i < vars.size) : (remainingVariables vars l).size = l.length := by
  have hnone : ∀ j, (remainingVariables vars l).size ≤ j ↔ l.length ≤ j := by
    intro j
    rw [← Array.getElem?_eq_none_iff, ← List.getElem?_eq_none_iff, getElem?_remainingVariables hl]
    cases hj : l[j]? with
    | none => simp
    | some i => simp [Array.getElem?_eq_getElem (hl i (List.mem_of_getElem? hj))]
  exact Nat.le_antisymm ((hnone _).mpr le_rfl) ((hnone _).mp le_rfl)

/-- As many variables remain as change. -/
theorem length_remaining {vars : Array Variable} {cs : Array Constancy} (h : cs.size = vars.size) :
    (remaining vars cs).length = cs.toList.countP (· = .changing) := by
  have hzip : (vars.toList.zip cs.toList).zipIdx.map (Prod.snd ∘ Prod.fst) = cs.toList := by
    rw [← List.map_map, List.zipIdx_map_fst, List.map_snd_zip]
    simp [h]
  calc (remaining vars cs).length
      = (vars.toList.zip cs.toList).zipIdx.countP ((· = .changing) ∘ Prod.snd ∘ Prod.fst) := by
        rw [remaining_perm.length_eq, List.length_map, List.countP_eq_length_filter]
        rfl
    _ = cs.toList.countP (· = .changing) := by rw [← List.countP_map, hzip]

theorem size_constancies (t : Task) : (constancies t).size = t.vars.size := Array.size_mapIdx

/-- A variable either remains or is removed. -/
theorem length_remaining_add_staticCount (t : Task) :
    (remaining t.vars (constancies t)).length + staticCount t = t.vars.size := by
  have hsum := List.length_eq_countP_add_countP (fun c => decide (c = Constancy.changing))
    (l := (constancies t).toList)
  simp only [decide_eq_true_eq, Array.length_toList, size_constancies] at hsum
  rw [length_remaining (size_constancies t), staticCount, ← List.countP_eq_length_filter]
  exact hsum.symm

/-- A pass leaves fewer variables by the number it removes. -/
theorem size_of_removeStaticPass (h : removeStaticPass t = .ok (t', count)) :
    t'.vars.size + count = t.vars.size := by
  have hcount := count_of_removeStaticPass h
  have hlength := length_remaining_add_staticCount t
  rcases removeStaticPass_eq_ok h with ⟨rfl, rfl⟩ | ⟨_, _, _, -, -, -, -, hvars, -⟩
  · rfl
  · rw [hvars, size_remainingVariables fun i hi => lt_size_of_mem_remaining hi]
    omega

end Pass

/-! ## Actions that a pass has looked at -/

section Examined

variable {replaced : Array Replacement} {a b : Action}

/-- An action is what a pass has left of another one, perhaps under another number. -/
structure IsExamined (b : Action) : Prop where
  remainder : ∃ replaced a, IsRemainder replaced a b
  duration : hasNoDuration b.durations = false

/-- An action that is left has a duration. -/
theorem hasNoDuration_of_substituteAction (h : (substituteAction replaced a).run = .ok (some b)) :
    hasNoDuration b.durations = false := by
  obtain ⟨durations, -, h⟩ := residue_bind_eq_some.mp h
  split at h
  · cases h
  next hduration =>
    -- the remaining parts are put beside the durations
    iterate 11 obtain ⟨_, -, h⟩ := residue_bind_eq_some.mp h
    cases h
    exact Bool.eq_false_iff.mpr hduration

theorem isExamined_of_keepResidues {as bs : List Action}
    (h : keepResidues (substituteAction replaced) as = .ok bs) : ∀ b ∈ renumber bs, IsExamined b := by
  intro b hb
  obtain ⟨b₀, hb₀, hindex⟩ := exists_of_forall₂ (forall₂_renumber bs) hb
  obtain ⟨a, -, ha⟩ := (selects_of_keepResidues h).exists_kept hb₀
  have hremainder := isRemainder_of_substituteAction ha
  have hduration := hasNoDuration_of_substituteAction ha
  rw [hindex]
  exact ⟨⟨replaced, a, { hremainder with }⟩, hduration⟩

/-- A pass that removes a variable looks at every action and goal. -/
theorem isExamined_of_removeStaticPass {t t' : Task} {count : Nat}
    (h : removeStaticPass t = .ok (t', count)) (hcount : 0 < count) :
    ∀ a ∈ t'.actions ++ t'.goals, IsExamined a := by
  rcases removeStaticPass_eq_ok h with ⟨-, rfl⟩ | ⟨actions, goals, _, hactions, hgoals, -, -, -,
    hactions', hgoals', -⟩
  · cases hcount
  intro a ha
  rw [hactions', hgoals'] at ha
  rcases List.mem_append.mp ha with ha | ha
  · exact isExamined_of_keepResidues hactions a ha
  · exact isExamined_of_keepResidues hgoals a ha

/-- A numeric condition that is left is not violated. -/
theorem isViolated_of_substituteNumericCondition {c c' : NumericCondition}
    (h : (substituteNumericCondition replaced c).run = .ok (some c')) : c'.isViolated = false := by
  obtain ⟨terms, -, h⟩ := residue_bind_eq_some.mp h
  dsimp only at h
  split at h
  · cases h
  next hviolated =>
    cases h
    exact Bool.eq_false_iff.mpr hviolated

/-- Every numeric condition of an action that is left is what is left of one. -/
theorem IsRemainder.exists_numericCondition (h : IsRemainder replaced a b) {c : NumericCondition}
    (hc : c ∈ b.numericConditions) :
    ∃ c₀, (substituteNumericCondition replaced c₀).run = .ok (some c) := by
  simp only [Action.numericConditions, List.mem_append] at hc
  rcases hc with (hc | hc) | hc
  · exact (exists_of_forall₂ h.startNumericConditions hc).imp fun _ => And.right
  · exact (exists_of_forall₂ h.numericInvariants hc).imp fun _ => And.right
  · exact (exists_of_forall₂ h.endNumericConditions hc).imp fun _ => And.right

theorem IsExamined.isViolated (h : IsExamined b) :
    ∀ c ∈ b.numericConditions, c.isViolated = false := by
  intro c hc
  obtain ⟨replaced, a, hremainder⟩ := h.remainder
  obtain ⟨c₀, hc₀⟩ := hremainder.exists_numericCondition hc
  exact isViolated_of_substituteNumericCondition hc₀

end Examined

/-! ## Repeated passes -/

section Passes

variable {t t' : Task} {passes removed removed' : Nat}

/-- **Passes end when every variable changes**, if there are more passes than variables. They
remove nothing at all, or the last one that removes something looks at all actions and goals. -/
theorem removePasses_eq_ok (hpasses : t.vars.size < passes)
    (h : removePasses passes removed t = .ok (t', removed')) :
    AllChange t' ∧ (t' = t ∧ removed' = removed ∨
      removed < removed' ∧ ∀ a ∈ t'.actions ++ t'.goals, IsExamined a) := by
  induction passes generalizing t removed with
  | zero => omega
  | succ passes ih =>
    obtain ⟨⟨t₁, count⟩, hpass, h⟩ := except_bind_eq_ok.mp h
    dsimp only at h
    split at h
    next hcount =>
      subst hcount
      obtain ⟨hsame, hall⟩ := of_removeStaticPass_eq_zero hpass
      cases h
      exact ⟨hsame ▸ hall, Or.inl ⟨hsame, rfl⟩⟩
    next hcount =>
      have hsize := size_of_removeStaticPass hpass
      obtain ⟨hall, hlast⟩ := ih (by omega) h
      refine ⟨hall, Or.inr ?_⟩
      rcases hlast with ⟨rfl, rfl⟩ | ⟨hremoved, hexamined⟩
      · exact ⟨by omega, isExamined_of_removeStaticPass hpass (by omega)⟩
      · exact ⟨by omega, hexamined⟩

/-- Passes do not touch the number of removed variables, which is entered after them. -/
theorem staticVariables_of_pass (h : Pass t t') :
    t'.stats.staticVariables = t.stats.staticVariables := by
  obtain ⟨count, h⟩ := h
  unfold removeStaticPass at h
  dsimp only at h
  split at h
  · cases h
    rfl
  · obtain ⟨_, -, h⟩ := except_bind_eq_ok.mp h
    obtain ⟨_, -, h⟩ := except_bind_eq_ok.mp h
    obtain ⟨_, -, h⟩ := except_bind_eq_ok.mp h
    cases h
    rfl

theorem staticVariables_of_passes (h : Relation.ReflTransGen Pass t t') :
    t'.stats.staticVariables = t.stats.staticVariables := by
  induction h with
  | refl => rfl
  | tail _ hpass ih => rw [staticVariables_of_pass hpass, ih]

end Passes

/-! ## After the passes -/

section Decided

variable {a b : Action} {cs cs' : List NumericCondition}

theorem openConditions_eq_none_iff :
    openConditions cs = none ↔ ∃ c ∈ cs, c.isViolated = true := by
  rw [openConditions, ← List.any_eq_true]
  split <;> simp [*]

/-- No condition between numbers stays open. -/
theorem isConstant_of_openConditions (h : openConditions cs = some cs') :
    ∀ c ∈ cs', c.isConstant = false := by
  unfold openConditions at h
  split at h
  · cases h
  · cases h
    exact fun c hc => by simpa using (List.mem_filter.mp hc).2

/-- An action that is decided has no conditions between numbers, and is the same otherwise but for
its number. -/
structure IsDecided (a b : Action) : Prop where
  eq : b = { a with
    index := b.index
    startNumericConditions := b.startNumericConditions
    numericInvariants := b.numericInvariants
    endNumericConditions := b.endNumericConditions }
  subset : b.numericConditions ⊆ a.numericConditions
  isConstant : ∀ c ∈ b.numericConditions, c.isConstant = false

theorem isDecided_of_decideConditions (h : decideConditions a = some b) : IsDecided a b := by
  obtain ⟨cs₁, h₁, h⟩ := Option.bind_eq_some_iff.mp h
  obtain ⟨cs₂, h₂, h⟩ := Option.bind_eq_some_iff.mp h
  obtain ⟨cs₃, h₃, h⟩ := Option.bind_eq_some_iff.mp h
  cases h
  refine ⟨rfl, fun c hc => ?_, fun c hc => ?_⟩
  · simp only [Action.numericConditions, List.mem_append] at hc ⊢
    rcases hc with (hc | hc) | hc
    · exact Or.inl (Or.inl (openConditions_subset h₁ hc))
    · exact Or.inl (Or.inr (openConditions_subset h₂ hc))
    · exact Or.inr (openConditions_subset h₃ hc)
  · simp only [Action.numericConditions, List.mem_append] at hc
    rcases hc with (hc | hc) | hc
    · exact isConstant_of_openConditions h₁ c hc
    · exact isConstant_of_openConditions h₂ c hc
    · exact isConstant_of_openConditions h₃ c hc

/-- An action is dropped for a violated condition between numbers, and for nothing else. -/
theorem decideConditions_eq_none_iff :
    decideConditions a = none ↔ ∃ c ∈ a.numericConditions, c.isViolated = true := by
  have hparts : decideConditions a = none ↔ openConditions a.startNumericConditions = none ∨
      openConditions a.numericInvariants = none ∨ openConditions a.endNumericConditions = none := by
    unfold decideConditions
    cases openConditions a.startNumericConditions <;> cases openConditions a.numericInvariants <;>
      cases openConditions a.endNumericConditions <;> simp
  rw [hparts]
  simp only [openConditions_eq_none_iff, Action.numericConditions, List.mem_append, or_and_right,
    exists_or, or_assoc]

end Decided

/-! ## Grounded tasks -/

section Tasks

variable {p : Lifted.Problem} {t t' : Task}

/-- Saturation counts neither removed variables nor dropped actions. -/
theorem saturate_stats (p : Lifted.Problem) : (saturate p).Ensures {} fun t _ =>
    t.stats.staticVariables = 0 ∧ t.stats.droppedActions = 0 := by
  unfold saturate
  iterate 9 refine Step.ensures_bind.mpr fun _ _ _ => ?_
  exact Step.ensures_pure.mpr ⟨rfl, rfl⟩

/-- Removal leaves variables that change, and if it removes any, it looks at all actions and
goals. -/
theorem removeStatics_eq_ok (h : removeStatics t = .ok t') : AllChange t' ∧
    (t' = t ∨ t.stats.staticVariables < t'.stats.staticVariables ∧
      ∀ a ∈ t'.actions ++ t'.goals, IsExamined a) := by
  obtain ⟨⟨t₁, removed⟩, hpasses, heq⟩ := except_bind_eq_ok.mp h
  cases heq
  obtain ⟨hall, hlast⟩ := removePasses_eq_ok (Nat.lt_succ_self _) hpasses
  refine ⟨fun i entry hi => changes_of_eq (hall i entry hi) rfl rfl, ?_⟩
  rcases hlast with ⟨rfl, rfl⟩ | ⟨hremoved, hexamined⟩
  · exact Or.inl rfl
  · have hstats : t₁.stats.staticVariables = t.stats.staticVariables :=
      staticVariables_of_passes (passes_of_removePasses hpasses)
    exact Or.inr ⟨by dsimp only; omega, hexamined⟩

/-- A task that is grounded without its static variables comes from one whose variables all change:
the saturated task itself, or one all of whose actions and goals have been looked at. -/
theorem exists_reduced_of_ground (h : ground p false = .ok t) : ∃ saturated reduced,
    (saturate p).run' {} = .ok saturated ∧ t = setInitialValues (decideNumericConditions reduced) ∧
    AllChange reduced ∧
    (reduced = saturated ∧ reduced.stats.staticVariables = 0 ∧ reduced.stats.droppedActions = 0 ∨
      0 < reduced.stats.staticVariables ∧ ∀ a ∈ reduced.actions ++ reduced.goals, IsExamined a) := by
  obtain ⟨-, saturated, s, reduced, hrun, hreduced, rfl⟩ := ground_eq_ok h
  obtain ⟨hstatic, hdropped⟩ := saturate_stats p _ _ hrun
  obtain ⟨hall, hlast⟩ := removeStatics_eq_ok hreduced
  refine ⟨saturated, reduced, except_bind_eq_ok.mpr ⟨_, hrun, rfl⟩, rfl, hall, ?_⟩
  rcases hlast with rfl | ⟨hremoved, hexamined⟩
  · exact Or.inl ⟨rfl, hstatic, hdropped⟩
  · exact Or.inr ⟨by omega, hexamined⟩

/-- If deciding the conditions of actions drops none, none of them is violated. -/
theorem isViolated_of_droppedActions
    (h : (decideNumericConditions t).stats.droppedActions = t.stats.droppedActions) :
    ∀ a ∈ t.actions, ∀ c ∈ a.numericConditions, c.isViolated = false := by
  have hsub : t.actions.length - (t.actions.filterMap decideConditions).length = 0 :=
    Nat.add_eq_left.mp h
  intro a ha c hc
  by_contra hviolated
  have hnone := decideConditions_eq_none_iff.mpr ⟨c, hc, Bool.not_eq_false _ ▸ hviolated⟩
  have hlt := List.length_filterMap_lt_length_iff_exists.mpr ⟨a, ha, hnone⟩
  omega

/-- What follows the passes keeps a variable changing, unless it drops what writes the variable. -/
theorem changes_of_decided {i : Nat} {entry : Variable} (h : t.Changes ⟨i⟩ entry)
    (hkept : ∀ a ∈ t.actions, a.writes ⟨i⟩ = true →
      ∀ c ∈ a.numericConditions, c.isViolated = false) (values : List (Float × Value)) :
    (setInitialValues (decideNumericConditions t)).Changes ⟨i⟩
      { entry with initialValues := values } := by
  cases h with
  | written a ha h =>
    obtain ⟨b, hb⟩ : ∃ b, decideConditions a = some b := by
      rw [← Option.ne_none_iff_exists']
      intro hnone
      obtain ⟨c, hc, hviolated⟩ := decideConditions_eq_none_iff.mp hnone
      rw [hkept a ha h c hc] at hviolated
      cases hviolated
    obtain ⟨b', hb', hindex⟩ :=
      exists_of_forall₂_left (forall₂_renumber _) (List.mem_filterMap.mpr ⟨a, ha, hb⟩)
    refine .written _ hb' ?_
    rw [hindex, (isDecided_of_decideConditions hb).eq]
    exact h
  | facts h => exact .facts h
  | later fact h htime => exact .later fact h htime

/-- Without dropped actions, every variable goes on changing. -/
theorem exists_entry_of_decided {i : Nat} {entry : Variable}
    (h : (setInitialValues (decideNumericConditions t)).vars[i]? = some entry) :
    ∃ entry₀, t.vars[i]? = some entry₀ ∧
      entry = { entry₀ with initialValues := entry.initialValues } := by
  rw [getElem?_setInitialValues] at h
  obtain ⟨entry₀, hentry₀, rfl⟩ := Option.map_eq_some_iff.mp h
  exact ⟨entry₀, hentry₀, rfl⟩

/-- **No static variable is left of a grounded task** if a variable has been removed or no action
has been dropped. Otherwise all actions that write a variable which is left may have been dropped
for numeric conditions between numbers. -/
theorem ground_leaves_no_statics (h : ground p false = .ok t) :
    ((0 < t.stats.staticVariables ∨ t.stats.droppedActions = 0) →
      AllChange t ∧ removeStaticPass t = .ok (t, 0)) ∧
    ∀ (i : Nat) (entry : Variable), t.vars[i]? = some entry → ¬t.Changes ⟨i⟩ entry →
      ∃ saturated, (saturate p).run' {} = .ok saturated ∧ ∃ a ∈ saturated.actions,
        a.writes ⟨i⟩ = true ∧ ∃ c ∈ a.numericConditions, c.isViolated = true := by
  obtain ⟨saturated, reduced, hrun, rfl, hall, hlast⟩ := exists_reduced_of_ground h
  constructor
  · intro hstats
    have hkept : ∀ a ∈ reduced.actions, ∀ c ∈ a.numericConditions, c.isViolated = false := by
      rcases hlast with ⟨-, hstatic, hdropped⟩ | ⟨-, hexamined⟩
      · refine isViolated_of_droppedActions ?_
        rcases hstats with hpositive | hzero
        · exact absurd hstatic (Nat.ne_of_gt hpositive)
        · exact hzero.trans hdropped.symm
      · exact fun a ha => (hexamined a (List.mem_append_left _ ha)).isViolated
    have hall' : AllChange (setInitialValues (decideNumericConditions reduced)) := by
      intro i entry hi
      obtain ⟨entry₀, hentry₀, heq⟩ := exists_entry_of_decided hi
      rw [heq]
      exact changes_of_decided (hall i entry₀ hentry₀) (fun a ha _ => hkept a ha) _
    exact ⟨hall', removeStaticPass_of_allChange hall'⟩
  · intro i entry hi hchanges
    obtain ⟨entry₀, hentry₀, heq⟩ := exists_entry_of_decided hi
    rw [heq] at hchanges
    have hwriter := mt (fun hkept => changes_of_decided (hall i entry₀ hentry₀) hkept _) hchanges
    push Not at hwriter
    obtain ⟨a, ha, hwrites, c, hc, hviolated⟩ := hwriter
    rcases hlast with ⟨rfl, -⟩ | ⟨-, hexamined⟩
    · exact ⟨reduced, hrun, a, ha, hwrites, c, hc, by simpa using hviolated⟩
    · exact absurd ((hexamined a (List.mem_append_left _ ha)).isViolated c hc) hviolated

end Tasks

/-- Grounding the lamp that has power removes the power, and only the lamp is left, which changes. -/
theorem lamp_has_no_statics : ∃ t, ground poweredLamp false = .ok t ∧ t.stats.staticVariables = 1 ∧
    t.vars.size = 1 ∧ AllChange t ∧ removeStaticPass t = .ok (t, 0) := by
  have hrun : ∃ t ∈ (ground poweredLamp false).toOption,
      t.stats.staticVariables = 1 ∧ t.vars.size = 1 := by decide +kernel
  obtain ⟨t, ht, hstatic, hsize⟩ := hrun
  have hground := eq_ok_of_mem_toOption ht
  obtain ⟨hall, hpass⟩ := (ground_leaves_no_statics hground).1 (Or.inl (by omega))
  exact ⟨t, hground, hstatic, hsize, hall, hpass⟩

open Lifted in
/-- A lamp can be switched on if one is less than zero. -/
def brokenLamp : Problem where
  task := .ofPropositions ["on"] []
  operators := [.ofHappenings "switch-on"
    ⟨[], [⟨.less, [.atom (.number 1.0), .atom (.number 0.0)]⟩], [.ofProposition 0 .truth], []⟩
    .empty]

/-- The first pass finds nothing to remove, and the only action that writes the lamp is dropped
after it: the lamp is left although it never changes, and one more pass would remove it. -/
theorem exists_static_left : ∃ t, ground brokenLamp false = .ok t ∧ t.actions.length = 0 ∧
    t.stats.staticVariables = 0 ∧ t.stats.droppedActions = 1 ∧
    (∃ entry, t.vars[0]? = some entry ∧ ¬t.Changes ⟨0⟩ entry) ∧
    ∃ t', removeStaticPass t = .ok (t', 1) ∧ t'.vars.size = 0 := by
  have hrun : ∃ t ∈ (ground brokenLamp false).toOption, t.actions.length = 0 ∧
      t.stats.staticVariables = 0 ∧ t.stats.droppedActions = 1 ∧
      (∃ entry ∈ t.vars[0]?, ¬t.Changes ⟨0⟩ entry) ∧
      ∃ result ∈ (removeStaticPass t).toOption, result.2 = 1 ∧ result.1.vars.size = 0 := by
    decide +kernel
  obtain ⟨t, ht, hactions, hstatic, hdropped, ⟨entry, hentry, hchanges⟩, ⟨t', _⟩, hpass, rfl,
    hsize⟩ := hrun
  exact ⟨t, eq_ok_of_mem_toOption ht, hactions, hstatic, hdropped, ⟨entry, hentry, hchanges⟩, t',
    eq_ok_of_mem_toOption hpass, hsize⟩

end TemporalPlanning.Grounding
