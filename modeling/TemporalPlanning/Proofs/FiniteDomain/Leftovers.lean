import TemporalPlanning.Proofs.FiniteDomain.Histories
import TemporalPlanning.Proofs.FiniteDomain.Updates
/-!
What a failed derivation leaves.

An update keeps what it has written before it fails. A failed derivation of producers has written
nothing. That of requirers has begun a new list of the actions without conditions, that of permanent
mutexes may have replaced those of facts before it turns to those of actions, and that of costs may
have determined the initial state and whether the metric reads the makespan. These parts are the
ones that a second attempt writes again, so it fails in the same way and changes nothing more.
-/
set_option autoImplicit false

namespace TemporalPlanning.FiniteDomain

variable {α β : Type}

/-! ## Failing updates -/

namespace Update

/-- Whenever an update fails, it leaves a certain task. -/
def Leaves (u : Update α) (t left : Task) : Prop :=
  ∀ e t', u.runOn t = (.error e, t') → t' = left

variable {t left : Task}

theorem Leaves.bind {u : Update α} {f : α → Update β} (hu : u.Leaves t left)
    (hf : ∀ a t', u.runOn t = (.ok a, t') → (f a).Leaves t' left) : Leaves (u >>= f) t left := by
  intro e t'' hrun
  rw [runOn_bind] at hrun
  split at hrun
  next a t' ha => exact hf a t' ha e t'' hrun
  next e' t' he =>
    cases hrun
    exact hu _ _ he

theorem Leaves.map {u : Update α} (h : u.Leaves t left) (f : α → β) : Leaves (f <$> u) t left := by
  rw [map_eq_pure_bind]
  exact h.bind fun _ _ _ _ _ hrun => by cases hrun

theorem leaves_pure (a : α) : Leaves (pure a) t left := fun _ _ h => by cases h

theorem leaves_throw (e : Error) : Leaves (throw e : Update α) t t := fun _ _ h => by
  cases h
  rfl

theorem leaves_modify (f : Task → Task) : Leaves (modify f) t left := fun _ _ h => by cases h

theorem leaves_modify_bind {f : Task → Task} {g : PUnit → Update β}
    (h : (g ⟨⟩).Leaves (f t) left) : Leaves (modify f >>= g) t left := h

theorem leaves_get_bind {f : Task → Update β} (h : (f t).Leaves t left) :
    Leaves (get >>= f) t left := h

/-- A computation that does not write leaves the task as it is. -/
theorem leaves_lift_bind {x : Except Error α} {f : α → Update β}
    (herror : ∀ e, x = .error e → t = left) (hok : ∀ a, x = .ok a → (f a).Leaves t left) :
    Leaves (liftExcept x >>= f) t left := by
  intro e t' hrun
  cases x with
  | error e' =>
    cases hrun
    exact herror _ rfl
  | ok a => exact hok a rfl e t' hrun

end Update

/-! ## Actions without conditions -/

namespace ActionIndex

/-- Recording an action succeeds if all conditions can be packed. -/
theorem isOk_addAll (index : ActionIndex) (action : Nat) (cs : List Condition) :
    (index.addAll cs action).isOk = cs.all fun c => c.fact.isOk := by
  induction cs generalizing index with
  | nil => rfl
  | cons c cs ih =>
    rw [List.all_cons, ActionIndex.addAll, List.foldlM_cons]
    cases hc : c.fact with
    | error e => rfl
    | ok f => exact ih _

end ActionIndex

/-- All conditions of an action can be packed. -/
def Action.isPackable (a : Action) : Bool := a.conditions.all fun c => c.fact.isOk

/-- The actions without conditions that come before the first action that cannot be packed. -/
def unconditionedBefore (actions : List Action) : List Nat :=
  ((actions.takeWhile Action.isPackable).filter fun a => a.conditions.isEmpty).map Action.index

/-- The task with more actions noted as ones without conditions. -/
def Task.noteUnconditioned (t : Task) (actions : List Nat) : Task :=
  { t with unconditioned := t.unconditioned ++ actions.toArray }

theorem Task.noteUnconditioned_nil (t : Task) : t.noteUnconditioned [] = t := by
  rw [noteUnconditioned, Array.append_empty]

theorem Task.noteUnconditioned_push (t : Task) (action : Nat) (actions : List Nat) :
    ({ t with unconditioned := t.unconditioned.push action } : Task).noteUnconditioned actions =
      t.noteUnconditioned (action :: actions) := by
  rw [noteUnconditioned, noteUnconditioned, List.toArray_cons, ← Array.append_assoc,
    Array.push_eq_append]

theorem foldlM_indexConditions_leaves (actions : List Action) (index : ActionIndex) (t : Task) :
    Update.Leaves (actions.foldlM indexConditions index) t
      (t.noteUnconditioned (unconditionedBefore actions)) := by
  induction actions generalizing index t with
  | nil => exact fun _ _ h => by cases h
  | cons a actions ih =>
    intro e t' hrun
    rw [List.foldlM_cons, indexConditions] at hrun
    cases hempty : a.conditions.isEmpty with
    | true =>
      have hpackable : a.isPackable = true := by
        rw [Action.isPackable, List.isEmpty_iff.mp hempty]
        rfl
      rw [if_pos hempty] at hrun
      have hleft := ih index _ e t' hrun
      rw [unconditionedBefore, List.takeWhile_cons_of_pos hpackable,
        List.filter_cons_of_pos (p := fun a : Action => a.conditions.isEmpty) hempty,
        List.map_cons, ← Task.noteUnconditioned_push]
      exact hleft
    | false =>
      have hfilled : ¬a.conditions.isEmpty = true := by
        rw [hempty]
        exact Bool.false_ne_true
      have hpackable : _ = a.isPackable := index.isOk_addAll a.index a.conditions
      rw [if_neg hfilled] at hrun
      cases hadd : index.addAll a.conditions a.index with
      | error e' =>
        rw [hadd] at hrun hpackable
        cases hrun
        have hunpackable : ¬a.isPackable = true := by
          rw [← hpackable]
          exact Bool.false_ne_true
        rw [unconditionedBefore, List.takeWhile_cons_of_neg hunpackable]
        exact t.noteUnconditioned_nil.symm
      | ok index' =>
        rw [hadd] at hrun hpackable
        rw [unconditionedBefore, List.takeWhile_cons_of_pos hpackable.symm,
          List.filter_cons_of_neg (p := fun a : Action => a.conditions.isEmpty) hfilled]
        exact ih index' t e t' hrun

/-! ## Permanent mutexes -/

/-- Which facts are permanently mutex does not depend on which ones were so before. -/
theorem permanentFacts_congr (t : Task) (pairs : PairSet) :
    permanentFacts { t with permanentMutex := pairs } = permanentFacts t := by
  have hrun : ∀ rounds facts s, Search.run { t with permanentMutex := pairs } rounds facts s =
      Search.run t rounds facts s := by
    intro rounds
    induction rounds with
    | zero => exact fun facts s => rfl
    | succ rounds ih =>
      intro facts s
      rw [Search.run, Search.run]
      split
      · rfl
      · exact bind_congr fun s' => ih _ _
  have hunreachable : unreachable { t with permanentMutex := pairs } = unreachable t := by
    funext fact targets
    rw [unreachable, unreachable, hrun]
    rfl
  rw [permanentFacts, permanentFacts, hunreachable]

/-! ## Costs -/

namespace Task

/-- The task with the numbers from which costs are computed. -/
def withCurrentNumbers (t : Task) : Task :=
  if t.numericInitialState.size = t.numericVars.size then t else t.withInitialState

/-- The task when costs are about to be computed. -/
def beforeCosts (t : Task) : Task :=
  { t.withCurrentNumbers with metricDependsOnTime := metricReadsTime t }

/-- The task with the given costs of its actions, and those of its goals. -/
def withCosts (t : Task) (costs : List (Cost Float)) : Task :=
  { t with
    actions := t.actions.zipWith (fun a cost => { a with cost }) costs.toArray
    goals := t.goals.map fun goal => { goal with cost := goalCost }
    hasVariableCosts := costs.any fun cost => !cost.isFixed }

/-- The costs of all actions, computed from the numbers that are there. -/
def costs (t : Task) (keepStatic : Bool) : Except Error (List (Cost Float)) :=
  t.actions.toList.mapM (costOf (.ofTask t keepStatic) t.metric t.numericInitialState)

variable {t : Task}

theorem withCurrentNumbers_of_size (h : t.numericInitialState.size = t.numericVars.size) :
    t.withCurrentNumbers = t :=
  if_pos h

theorem size_withCurrentNumbers (t : Task) :
    t.withCurrentNumbers.numericInitialState.size = t.withCurrentNumbers.numericVars.size := by
  unfold withCurrentNumbers
  split
  next h => exact h
  next => exact Array.size_map

theorem metricReadsTime_withCurrentNumbers (t : Task) :
    metricReadsTime t.withCurrentNumbers = metricReadsTime t := by
  unfold withCurrentNumbers
  split <;> rfl

end Task

/-- Costs are computed when the numbers, and whether the metric reads the makespan, are known. -/
theorem runOn_computeCosts (keepStatic : Bool) (t : Task) :
    (computeCosts keepStatic).runOn t = match t.beforeCosts.costs keepStatic with
      | .ok costs => (.ok (), t.beforeCosts.withCosts costs)
      | .error e => (.error e, t.beforeCosts) := by
  have hrun : (computeCosts keepStatic).runOn t =
      (liftExcept (t.beforeCosts.costs keepStatic) >>= fun costs =>
        modify fun t => t.withCosts costs : Update Unit).runOn t.beforeCosts := by
    rw [Task.beforeCosts, ← t.metricReadsTime_withCurrentNumbers]
    rfl
  rw [hrun]
  cases t.beforeCosts.costs keepStatic <;> rfl

/-! ## Failed derivations -/

namespace Derivation

/-- The task that a derivation leaves if it fails. -/
def leftover : Derivation → Task → Task
  | .requirers, t => { t with unconditioned := (unconditionedBefore t.actions.toList).toArray }
  | .producers, t => t
  | .permanentMutex, t =>
    match permanentFacts t with
    | .ok pairs => { t with permanentMutex := pairs }
    | .error _ => t
  | .costs _, t => t.beforeCosts

/-- What a derivation writes before it can fail is what the task says already. -/
def IsPrepared : Derivation → Task → Prop
  | .requirers, t => t.unconditioned.toList = unconditionedBefore t.actions.toList
  | .producers, _ => True
  | .permanentMutex, t => ∀ pairs, permanentFacts t = .ok pairs → t.permanentMutex = pairs
  | .costs _, t => t.numericInitialState.size = t.numericVars.size ∧
      t.metricDependsOnTime = metricReadsTime t

theorem update_leaves (d : Derivation) (t : Task) : d.update.Leaves t (d.leftover t) := by
  cases d with
  | requirers =>
    refine Update.leaves_modify_bind (Update.leaves_get_bind (Update.Leaves.bind ?_ ?_))
    · have hleft := foldlM_indexConditions_leaves t.actions.toList ∅
        { t with unconditioned := #[] }
      rwa [Task.noteUnconditioned, Array.empty_append] at hleft
    · exact fun _ _ _ => Update.leaves_modify _
  | producers =>
    exact Update.leaves_get_bind (Update.leaves_lift_bind (fun _ _ => rfl) fun _ _ =>
      Update.leaves_modify _)
  | permanentMutex =>
    refine Update.leaves_get_bind (Update.leaves_lift_bind (fun e he => ?_) fun pairs hpairs => ?_)
    · rw [leftover, he]
    have hleft : leftover .permanentMutex t = { t with permanentMutex := pairs } := by
      rw [leftover, hpairs]
    rw [hleft]
    refine Update.leaves_modify_bind (Update.leaves_get_bind ?_)
    dsimp only
    split
    · exact Update.leaves_modify _
    · exact Update.leaves_lift_bind (fun _ _ => rfl) fun _ _ => Update.leaves_modify _
  | costs keepStatic =>
    refine Update.leaves_modify_bind (Update.leaves_modify_bind (Update.leaves_get_bind ?_))
    have hleft : metricReadsTime (if t.numericInitialState.size = t.numericVars.size then t
        else t.withInitialState) = metricReadsTime t := by
      split <;> rfl
    rw [hleft]
    exact Update.leaves_lift_bind (fun _ _ => rfl) fun _ _ => Update.leaves_modify _

theorem leftover_eq_iff (d : Derivation) (t : Task) : d.leftover t = t ↔ d.IsPrepared t := by
  cases d with
  | requirers =>
    constructor
    · intro h
      exact (congrArg (·.unconditioned.toList) h).symm
    · intro h
      rw [leftover, ← show _ = _ from h]
  | producers => exact iff_of_true rfl trivial
  | permanentMutex =>
    rw [leftover, IsPrepared]
    cases permanentFacts t with
    | error e => exact iff_of_true rfl fun pairs h => by cases h
    | ok pairs =>
      constructor
      · rintro h pairs' hpairs
        cases hpairs
        exact (congrArg Task.permanentMutex h).symm
      · intro h
        dsimp only
        rw [← h pairs rfl]
  | costs keepStatic =>
    constructor
    · intro h
      have hsize := t.size_withCurrentNumbers
      have hstate : t.beforeCosts.numericInitialState = t.numericInitialState :=
        congrArg Task.numericInitialState h
      have hvars : t.beforeCosts.numericVars = t.numericVars := congrArg Task.numericVars h
      rw [Task.beforeCosts] at hstate hvars
      rw [hstate, hvars] at hsize
      exact ⟨hsize, (congrArg Task.metricDependsOnTime h).symm⟩
    · rintro ⟨hsize, htime⟩
      rw [leftover, Task.beforeCosts, Task.withCurrentNumbers_of_size hsize, ← htime]

/-- A second attempt does what the first one did. -/
theorem runOn_leftover (d : Derivation) {t t' : Task} {e : Error}
    (h : d.update.runOn t = (.error e, t')) : d.update.runOn (d.leftover t) = (.error e, t') := by
  cases d with
  | requirers => exact h
  | producers => exact h
  | permanentMutex =>
    rw [leftover]
    split
    next pairs hpairs =>
      have hsame : computePermanentMutex.runOn { t with permanentMutex := pairs } =
          computePermanentMutex.runOn t := by
        show Update.runOn (liftExcept (permanentFacts { t with permanentMutex := pairs }) >>= _)
          { t with permanentMutex := pairs } = Update.runOn (liftExcept (permanentFacts t) >>= _) t
        rw [permanentFacts_congr, hpairs]
        rfl
      exact hsame.trans h
    · exact h
  | costs keepStatic =>
    have hagain : t.beforeCosts.beforeCosts = t.beforeCosts :=
      (leftover_eq_iff (.costs keepStatic) _).mpr
        ⟨t.size_withCurrentNumbers, t.metricReadsTime_withCurrentNumbers.symm⟩
    rw [update, runOn_computeCosts] at h ⊢
    rwa [leftover, hagain]

/-! ## Partial failures -/

/-- A derivation that fails changes nothing if and only if what it has written was in the task
already. It changes nothing but that in any case, and trying again changes nothing more. -/
theorem eq_iff_of_failed {d : Derivation} {t t' : Task} {e : Error}
    (h : d.update.runOn t = (.error e, t')) :
    (t' = t ↔ d.IsPrepared t) ∧ t' = d.leftover t ∧ d.update.runOn t' = (.error e, t') := by
  have hleft := d.update_leaves t e t' h
  subst hleft
  exact ⟨d.leftover_eq_iff t, rfl, d.runOn_leftover h⟩

end Derivation

/-! ## A detour -/

namespace Detour

/-- An action that can always be carried out, and one with a condition that cannot be packed and a
duration that cannot be computed. -/
def edits : List Edit := [
  .createNumericVariable "distance",
  .createAction { Action.empty 0 "wait" false with startEffects := [.plain 0 ⟨0⟩] },
  .createAction { Action.empty 1 "detour" false with
    startConditions := [.plain 70000 ⟨0⟩]
    durations := [⟨.unspecified, .eq,
      .node .quotient [.atom (.number 1.0), .atom (.number 0.0)]⟩] },
  .addMutex ⟨0⟩ ⟨1⟩]

/-- A failed derivation has changed the task, a second attempt changes nothing more. -/
theorem requirers_fail_twice : ∃ e t',
    Derivation.requirers.update.runOn (taskOf edits) = (.error e, t') ∧ t' ≠ taskOf edits ∧
      Derivation.requirers.update.runOn t' = (.error e, t') := by
  have hrun : Derivation.requirers.update.runOn (taskOf edits) =
      (.error (.capacityExceeded .vars 70000),
        (Derivation.requirers.update.runOn (taskOf edits)).2) :=
    Prod.ext (by decide +kernel) rfl
  have hunprepared : ¬Derivation.requirers.IsPrepared (taskOf edits) := by
    show ¬(taskOf edits).unconditioned.toList = unconditionedBefore (taskOf edits).actions.toList
    decide +kernel
  obtain ⟨hiff, -, hagain⟩ := Derivation.eq_iff_of_failed hrun
  exact ⟨_, _, hrun, fun h => hunprepared (hiff.mp h), hagain⟩

/-- All derivations but that of producers can fail and leave a changed task. -/
theorem exists_changed_by_failure : ∃ edits : List Edit,
    ∀ d ∈ [Derivation.requirers, .permanentMutex, .costs true], ∃ e t',
      d.update.runOn (taskOf edits) = (.error e, t') ∧ t' ≠ taskOf edits := by
  have hrun : ∀ d ∈ [Derivation.requirers, .permanentMutex, .costs true],
      (d.update.runOn (taskOf edits)).1.isOk = false ∧
      ((d.update.runOn (taskOf edits)).2.unconditioned,
        (d.update.runOn (taskOf edits)).2.permanentMutex.toList,
        (d.update.runOn (taskOf edits)).2.numericInitialState) ≠
      ((taskOf edits).unconditioned, (taskOf edits).permanentMutex.toList,
        (taskOf edits).numericInitialState) := by
    decide +kernel
  refine ⟨edits, fun d hd => ?_⟩
  obtain ⟨hfailed, hchanged⟩ := hrun d hd
  rcases hleft : d.update.runOn (taskOf edits) with ⟨e | a, t'⟩ <;> rw [hleft] at hfailed hchanged
  · exact ⟨e, t', rfl, fun h => hchanged (by rw [h])⟩
  · cases hfailed

end Detour

end TemporalPlanning.FiniteDomain
