import Mathlib.Data.List.Induction
import TemporalPlanning.Proofs.FiniteDomain.InitialValues
import TemporalPlanning.Proofs.FiniteDomain.Operations
/-!
When costs are computed from the current initial state.

The numbers of numeric variables at time zero are kept beside the variables. Before costs are
computed the numbers are determined again, but only if there are not as many of them as variables.
So after a variable has been created they will be determined again, and after they have been
determined they are current, until a number for time zero is given to a variable. Then they are
outdated, and nobody notices.
-/
set_option autoImplicit false

namespace TemporalPlanning.FiniteDomain

/-! ## Operations that keep the numbers -/

/-- The numeric variables of a task, and the numbers that are kept beside them. -/
def Task.numbers (t : Task) : Array NumericVariable × Array Float :=
  (t.numericVars, t.numericInitialState)

theorem numbers_after_costs (keepStatic : Bool) (t : Task) :
    (t.after (.derive (.costs keepStatic))).numbers = t.withCurrentNumbers.numbers := by
  have hrun := runOn_computeCosts keepStatic t
  rw [Task.after, Edit.update, Derivation.update, hrun]
  split <;> rfl

/-- A number that is entered is one of an existing variable, and must be consistent. -/
theorem after_addInitialNumber_cases (t : Task) (var : Nat) (number time : Float) :
    t.after (.addInitialNumber var number time) = t ∨
      ∃ n n', t.numericVars[var]? = some n ∧ n.addInitialValue number time = .ok n' ∧
        t.after (.addInitialNumber var number time) =
          { t with numericVars := t.numericVars.modify var fun _ => n' } := by
  have hensures : (updateNumericVariable var fun n => n.addInitialValue number time).Ensures t
      fun _ t' => t' = t ∨ ∃ n n', t.numericVars[var]? = some n ∧
        n.addInitialValue number time = .ok n' ∧
        t' = { t with numericVars := t.numericVars.modify var fun _ => n' } := by
    refine Update.ensures_bind.mpr (Update.ensures_get.mpr ?_)
    split
    next n hn =>
      refine Update.ensures_bind.mpr (Update.ensures_lift.mpr fun n' hadd => ?_)
      exact Update.ensures_modify.mpr (Or.inr ⟨n, n', hn, hadd, rfl⟩)
    next => exact Update.ensures_pure.mpr (Or.inl rfl)
  rcases hrun : (Edit.addInitialNumber var number time).update.runOn t with ⟨e | a, t'⟩ <;>
    rw [Task.after, hrun]
  · exact Or.inl (Edit.update_leaves (.addInitialNumber var number time) t e t' hrun)
  · exact hensures a t' hrun

/-- Entering a number changes no number but one for time zero. -/
theorem initialValue_of_addInitialValue {n n' : NumericVariable} {number time : Float}
    (h : n.addInitialValue number time = .ok n') (htime : ¬(time == 0.0) = true) :
    n'.initialValue = n.initialValue := by
  rw [NumericVariable.initialValue, NumericVariable.valueAtStart_of_addInitialValue h,
    if_neg htime, Option.or_none, NumericVariable.initialValue]

theorem map_modify_of_initialValue_eq {vars : Array NumericVariable} {var : Nat}
    {n n' : NumericVariable} (hn : vars[var]? = some n) (h : n'.initialValue = n.initialValue) :
    (vars.modify var fun _ => n').map NumericVariable.initialValue =
      vars.map NumericVariable.initialValue := by
  refine Array.ext_getElem? fun i => ?_
  rw [Array.getElem?_map, Array.getElem?_map, Array.getElem?_modify]
  split
  next hi =>
    subst hi
    rw [hn, Option.map_some, Option.map_some, Option.map_some, h]
  next => rfl

/-! ## Freshness -/

/-- How the numbers of a task are related to its numeric variables. -/
inductive Freshness where
  /-- The numbers are those of all variables at time zero. -/
  | current
  /-- There are fewer numbers than variables. -/
  | pending
  /-- A variable has received another number for time zero. -/
  | outdated
deriving DecidableEq

namespace Freshness

/-- The freshness after an operation. -/
def after (f : Freshness) : Edit → Freshness
  | .createNumericVariable _ => .pending
  | .computeInitialState => .current
  | .derive (.costs _) => if f = .pending then .current else f
  | .addInitialNumber _ _ time => if f = .current ∧ (time == 0.0) = true then .outdated else f
  | _ => f

/-- What the freshness of some numbers says. -/
def Relates : Freshness → Array NumericVariable → Array Float → Prop
  | .current, vars, numbers => numbers = vars.map NumericVariable.initialValue
  | .pending, vars, numbers => numbers.size < vars.size
  | .outdated, vars, numbers => numbers.size = vars.size

/-- What the freshness of a task says. -/
def Describes (f : Freshness) (t : Task) : Prop := f.Relates t.numericVars t.numericInitialState

variable {f : Freshness} {t t' : Task}

theorem Describes.congr (h : f.Describes t) (hnumbers : t'.numbers = t.numbers) :
    f.Describes t' := by
  have hvars : t'.numericVars = t.numericVars := congrArg Prod.fst hnumbers
  have hstate : t'.numericInitialState = t.numericInitialState := congrArg Prod.snd hnumbers
  rwa [Describes, hvars, hstate]

theorem Describes.size_le (h : f.Describes t) :
    t.numericInitialState.size ≤ t.numericVars.size := by
  cases f with
  | current => exact Nat.le_of_eq ((congrArg Array.size h).trans Array.size_map)
  | pending => exact Nat.le_of_lt h
  | outdated => exact Nat.le_of_eq h

theorem Describes.size_eq (h : f.Describes t) (hf : f ≠ .pending) :
    t.numericInitialState.size = t.numericVars.size := by
  cases f with
  | current => exact (congrArg Array.size h).trans Array.size_map
  | pending => exact absurd rfl hf
  | outdated => exact h

/-- Numbers may become outdated when a variable receives a number for time zero. -/
theorem Describes.addInitialNumber (h : f.Describes t) (var : Nat) (number time : Float) :
    (f.after (.addInitialNumber var number time)).Describes
      (t.after (.addInitialNumber var number time)) := by
  rcases after_addInitialNumber_cases t var number time with hafter | ⟨n, n', hn, hadd, hafter⟩
  · rw [hafter, Freshness.after]
    split
    next hf => exact h.size_eq (by rw [hf.1]; exact Freshness.noConfusion)
    next => exact h
  rw [hafter, Freshness.after]
  have hsize : (t.numericVars.modify var fun _ => n').size = t.numericVars.size :=
    Array.size_modify
  split
  next hf => exact (h.size_eq (by rw [hf.1]; exact Freshness.noConfusion)).trans hsize.symm
  next hf =>
    cases f with
    | current =>
      -- the number is not one for time zero
      have htime : ¬(time == 0.0) = true := fun htime => hf ⟨rfl, htime⟩
      refine Eq.trans h (map_modify_of_initialValue_eq hn ?_).symm
      exact initialValue_of_addInitialValue hadd htime
    | pending => exact Nat.lt_of_lt_of_eq h hsize.symm
    | outdated => exact Eq.trans h hsize.symm

/-- Costs are computed from current numbers, unless they are outdated. -/
theorem Describes.costs (h : f.Describes t) (keepStatic : Bool) :
    (f.after (.derive (.costs keepStatic))).Describes (t.after (.derive (.costs keepStatic))) := by
  have hnumbers := numbers_after_costs keepStatic t
  by_cases hf : f = .pending
  · have hfewer : t.numericInitialState.size < t.numericVars.size := by
      rw [hf] at h
      exact h
    rw [Task.withCurrentNumbers, if_neg (Nat.ne_of_lt hfewer)] at hnumbers
    rw [Freshness.after, if_pos hf]
    exact Describes.congr (t := t.withInitialState) rfl hnumbers
  · rw [Task.withCurrentNumbers_of_size (h.size_eq hf)] at hnumbers
    rw [Freshness.after, if_neg hf]
    exact h.congr hnumbers

/-- What the freshness says is kept up by every operation. -/
theorem Describes.after (h : f.Describes t) (edit : Edit) :
    (f.after edit).Describes (t.after edit) := by
  cases edit with
  | createNumericVariable name =>
    refine Nat.lt_of_le_of_lt h.size_le ?_
    show t.numericVars.size < (t.numericVars.push ⟨t.numericVars.size, name, []⟩).size
    rw [Array.size_push]
    exact Nat.lt_succ_self _
  | addInitialNumber var number time => exact h.addInitialNumber var number time
  | computeInitialState => rfl
  | derive d =>
    cases d with
    | costs keepStatic => exact h.costs keepStatic
    | requirers =>
      exact h.congr (part_after_of_keeps
        (computeRequirers_keeps (fun _ _ => rfl) fun _ _ => rfl) rfl)
    | producers =>
      exact h.congr (part_after_of_keeps (computeProducers_keeps fun _ _ => rfl) rfl)
    | permanentMutex =>
      refine h.congr (part_after_of_keeps
        (computePermanentMutex_keeps (fun _ _ => rfl) fun _ _ => rfl) ?_)
      rw [Edit.leftover, Derivation.leftover]
      split <;> rfl
  -- the other operations do not touch the numbers
  | createValue name function =>
    exact h.congr (part_after_of_keeps
      ((createValue_keeps (fun _ _ => rfl) name function).map _) rfl)
  | createVariable name =>
    exact h.congr (part_after_of_keeps
      ((createVariable_keeps (fun _ _ _ => rfl) name).map _) rfl)
  | createAnonymousVariable =>
    exact h.congr (part_after_of_keeps
      ((Update.keeps_get.bind fun _ => createVariable_keeps (fun _ _ _ => rfl) _).map _) rfl)
  | createAction a =>
    exact h.congr (part_after_of_keeps ((createAction_keeps (fun _ _ => rfl) a).map _) rfl)
  | createGoal a =>
    exact h.congr (part_after_of_keeps ((createGoal_keeps (fun _ _ => rfl) a).map _) rfl)
  | addInitialValue var =>
    exact h.congr (part_after_of_keeps (updateVariable_keeps (fun _ _ => rfl) _) rfl)
  | addValue | addMutex | setMetric | addConstraint | setPreferenceNames =>
    exact h.congr (part_after_of_keeps (Update.keeps_modify fun _ => rfl) rfl)

end Freshness

/-- The freshness after some operations on the empty task. -/
def freshnessOf (edits : List Edit) : Freshness := edits.foldl Freshness.after .current

theorem freshnessOf_describes (edits : List Edit) :
    (freshnessOf edits).Describes (taskOf edits) := by
  induction edits using List.reverseRecOn with
  | nil =>
    show (#[] : Array Float) = Array.map NumericVariable.initialValue #[]
    exact Array.map_empty.symm
  | append_singleton edits edit ih =>
    rw [freshnessOf, List.foldl_append, taskOf_append_singleton]
    exact ih.after edit

/-! ## Costs -/

/-- The task with another initial state of its variables that are not numeric. -/
def Task.withState (t : Task) (initialState : Array (Option ValueId)) : Task :=
  { t with initialState }

/-- If the numbers are not outdated, determining the initial state before costs are computed changes
nothing but the initial state. -/
theorem beforeCosts_withInitialState {f : Freshness} {t : Task} (h : f.Describes t)
    (hf : f ≠ .outdated) : t.withInitialState.beforeCosts =
      t.beforeCosts.withState t.withInitialState.initialState := by
  have hsize : t.withInitialState.numericInitialState.size =
      t.withInitialState.numericVars.size := Array.size_map
  rw [Task.beforeCosts, Task.withCurrentNumbers_of_size hsize, Task.beforeCosts]
  cases f with
  | current =>
    have hnumbers : t.numericInitialState = t.numericVars.map NumericVariable.initialValue := h
    rw [Task.withCurrentNumbers_of_size (h.size_eq Freshness.noConfusion), Task.withState,
      Task.withInitialState, ← hnumbers]
    rfl
  | pending =>
    have hfewer : t.numericInitialState.size < t.numericVars.size := h
    rw [Task.withCurrentNumbers, if_neg (Nat.ne_of_lt hfewer)]
    rfl
  | outdated => exact absurd rfl hf

/-- Costs are computed from the current initial state, unless a number for time zero has been given
to a numeric variable since the initial state was determined. Determining it again then changes
neither the result nor the task, in particular no cost, but for the initial state itself. -/
theorem runOn_computeCosts_withInitialState {edits : List Edit}
    (h : freshnessOf edits ≠ .outdated) (keepStatic : Bool) :
    (computeCosts keepStatic).runOn (taskOf edits).withInitialState =
      (((computeCosts keepStatic).runOn (taskOf edits)).1,
        ((computeCosts keepStatic).runOn (taskOf edits)).2.withState
          (taskOf edits).withInitialState.initialState) := by
  rw [runOn_computeCosts, runOn_computeCosts,
    beforeCosts_withInitialState (freshnessOf_describes edits) h]
  -- costs do not depend on the initial state of variables that are not numeric
  have hcosts : ((taskOf edits).beforeCosts.withState
      (taskOf edits).withInitialState.initialState).costs keepStatic =
      (taskOf edits).beforeCosts.costs keepStatic := rfl
  rw [hcosts]
  cases (taskOf edits).beforeCosts.costs keepStatic <;> rfl

/-! ## A road -/

namespace Road

/-- The length of a road is given after the initial state has been determined. -/
def edits : List Edit := [
  .createNumericVariable "length",
  .computeInitialState,
  .addInitialNumber 0 10.0 0.0,
  .createAction { Action.empty 0 "travel" false with
    durations := [⟨.unspecified, .eq, .atom (.var 0)⟩] }]

/-- The values of the bounds on the durations of actions. -/
def durationsOf (t : Task) : List (List Float) := t.actions.toList.map (·.cost.durations)

/-- Once the initial state has been determined again, the duration is the length of the road. -/
theorem durations_current :
    freshnessOf (edits ++ [.computeInitialState]) ≠ .outdated ∧
    durationsOf ((computeCosts true).runOn (taskOf (edits ++ [.computeInitialState]))).2 =
      [[10.0]] := by
  have hfresh : freshnessOf (edits ++ [.computeInitialState]) ≠ .outdated := by decide +kernel
  have hdurations : durationsOf ((computeCosts true).runOn
      (taskOf (edits ++ [.computeInitialState])).withInitialState).2 = [[10.0]] := by
    decide +kernel
  rw [runOn_computeCosts_withInitialState hfresh true] at hdurations
  exact ⟨hfresh, hdurations⟩

/-- Before that, the duration is computed from the outdated length. -/
theorem exists_outdated_duration : ∃ edits : List Edit,
    ((computeCosts true).runOn (taskOf edits)).1 = .ok () ∧
    durationsOf ((computeCosts true).runOn (taskOf edits)).2 = [[0.0]] ∧
    ((computeCosts true).runOn (taskOf edits).withInitialState).1 = .ok () ∧
    durationsOf ((computeCosts true).runOn (taskOf edits).withInitialState).2 = [[10.0]] := by
  refine ⟨edits, ?_⟩
  decide +kernel

end Road

end TemporalPlanning.FiniteDomain
