import Mathlib.Logic.Relation
import TemporalPlanning.Proofs.Expression
import TemporalPlanning.Proofs.FiniteDomain.Derived
/-!
Numeric variables while actions are executed, and what the cost of an action is computed from.

A numeric state changes by the effects of actions, one at a time and whatever the duration of the
action, and by numbers that the initial state gives variables for a later time. A variable that no
action modifies keeps its number unless it receives such a number. The flags that a cost carries
say which variables the bounds on the duration and the numeric effects read.
-/
set_option autoImplicit false

namespace TemporalPlanning

namespace Expression

variable {α ν : Type}

/-- Leaves that agree on the atoms of an expression give it the same value. -/
theorem foldM_congr {m : Type → Type} [Monad m] [LawfulMonad m] {leaf leaf' : α → m ν}
    {combine : Operation → List (Expression α) → List ν → m ν} {e : Expression α}
    (h : ∀ a ∈ e.atoms, leaf a = leaf' a) : e.foldM leaf combine = e.foldM leaf' combine := by
  induction e using operandsInduction with
  | atom a => exact h a (mem_atoms_atom.mpr rfl)
  | node op es ih =>
    have hoperands : es.mapM (foldM leaf combine) = es.mapM (foldM leaf' combine) :=
      mapM_congr fun e he => ih e he fun a ha => h a (mem_atoms_node.mpr ⟨e, he, ha⟩)
    rw [foldM_node, foldM_node, hoperands]

end Expression

namespace FiniteDomain

/-! ## What expressions read -/

/-- An expression reads the duration of its action. -/
def readsDuration (e : Expression Quantity) : Prop := .duration ∈ e.atoms ∨ .elapsed ∈ e.atoms

instance (e : Expression Quantity) : Decidable (readsDuration e) :=
  inferInstanceAs (Decidable (_ ∨ _))

theorem mem_varsOf {e : Expression Quantity} {v : Nat} : v ∈ varsOf e ↔ .var v ∈ e.atoms := by
  rw [varsOf, List.mem_filterMap]
  constructor
  · rintro ⟨q, hq, hv⟩
    cases q with
    | var w =>
      cases hv
      exact hq
    | _ => cases hv
  · intro hv
    exact ⟨.var v, hv, rfl⟩

section Evaluation

variable {α : Type} [Arithmetic α]

/-- States that agree on the variables of an expression, and durations that agree if it reads the
duration, give it the same value. -/
theorem evaluate_congr {x y : Array α} {d d' : α} {e : Expression Quantity}
    (hvars : ∀ v ∈ varsOf e, x[v]? = y[v]?) (hduration : readsDuration e → d = d') :
    evaluate x d e = evaluate y d' e := by
  refine Expression.foldM_congr fun q hq => ?_
  cases q with
  | number n => rfl
  | var v =>
    have hv := hvars v (mem_varsOf.mpr hq)
    show numberOf x v = numberOf y v
    rw [numberOf, numberOf, hv]
  | duration => exact congrArg Except.ok (hduration (Or.inl hq))
  | elapsed => exact congrArg Except.ok (hduration (Or.inr hq))

/-! ## Numeric runs -/

/-- No action has an effect on a numeric variable. -/
def Task.IsUnmodified (t : Task) (v : Nat) : Prop :=
  ∀ a ∈ t.actions, ∀ effect ∈ a.numericEffects, effect.var ≠ v

/-- A numeric effect of some action leads from one state to another. -/
def Task.AppliesEffect (t : Task) (x y : Array α) : Prop :=
  ∃ a ∈ t.actions, ∃ effect ∈ a.numericEffects, ∃ duration, applyEffect duration x effect = .ok y

/-- A variable receives a number that the initial state gives it for another time than zero. -/
def Task.ReceivesNumber (t : Task) (x y : Array α) : Prop :=
  ∃ v entry time number, t.numericVars[v]? = some entry ∧ (time, number) ∈ entry.initialValues ∧
    (time == 0.0) = false ∧ y = x.setIfInBounds v (Arithmetic.ofFloat number)

theorem getElem?_applyEffect {x y : Array α} {duration : α} {effect : NumericEffect}
    (h : applyEffect duration x effect = .ok y) : ∃ value,
      evaluate x duration effect.expression = .ok value ∧ ∀ v : Nat,
        y[v]? = if effect.var = v then
          x[v]?.map fun current => effect.assignment.apply current value else x[v]? := by
  obtain ⟨value, hvalue, hy⟩ := Grounding.except_bind_eq_ok.mp h
  cases hy
  exact ⟨value, hvalue, fun v => Array.getElem?_modify⟩

/-- Effects leave variables alone that no action modifies. -/
theorem Task.AppliesEffect.getElem?_eq {t : Task} {x y : Array α} (h : t.AppliesEffect x y)
    {v : Nat} (hv : t.IsUnmodified v) : y[v]? = x[v]? := by
  obtain ⟨a, ha, effect, heffect, duration, happly⟩ := h
  obtain ⟨value, -, hget⟩ := getElem?_applyEffect happly
  rw [hget, if_neg (hv a ha effect heffect)]

/-- A variable keeps its number while others receive numbers, or if it receives its own one. -/
theorem Task.ReceivesNumber.getElem?_eq {t : Task} {x y : Array α} (h : t.ReceivesNumber x y)
    {v : Nat} (hv : ∀ entry, t.numericVars[v]? = some entry → ∀ time number,
      (time, number) ∈ entry.initialValues → (time == 0.0) = false →
        x[v]? = some (Arithmetic.ofFloat number)) : y[v]? = x[v]? := by
  obtain ⟨w, entry, time, number, hentry, hmem, htime, rfl⟩ := h
  rw [Array.getElem?_setIfInBounds]
  split
  next hw =>
    subst hw
    have hx := hv entry hentry time number hmem htime
    rw [hx]
    split
    · rfl
    next hbound => exact absurd (Array.getElem?_eq_some_iff.mp hx).1 hbound
  next => rfl

end Evaluation

/-! ## Static variables -/

theorem getD_foldl_setIfInBounds (effects : List NumericEffect) (marks : Array Bool) (v : Nat) :
    (effects.foldl (fun marks effect => marks.setIfInBounds effect.var false) marks).getD v false =
      true ↔ marks.getD v false = true ∧ ∀ effect ∈ effects, effect.var ≠ v := by
  induction effects generalizing marks with
  | nil => simp only [List.foldl_nil, List.not_mem_nil, false_implies, implies_true, and_true]
  | cons effect effects ih =>
    have hset : (marks.setIfInBounds effect.var false).getD v false = true ↔
        marks.getD v false = true ∧ effect.var ≠ v := by
      rw [Array.getD_eq_getD_getElem?, Array.getD_eq_getD_getElem?, Array.getElem?_setIfInBounds]
      by_cases hv : effect.var = v
      · rw [if_pos hv]
        split <;> simp [hv]
      · rw [if_neg hv]
        simp only [ne_eq, hv, not_false_eq_true, and_true]
    rw [List.foldl_cons, ih, hset, List.forall_mem_cons, and_assoc]

/-- A static variable is one that no action modifies. -/
theorem staticVariables_iff (t : Task) (v : Nat) :
    (staticVariables t).getD v false = true ↔ v < t.numericVars.size ∧ t.IsUnmodified v := by
  have hmarks : (Array.replicate t.numericVars.size true).getD v false = true ↔
      v < t.numericVars.size := by
    rw [Array.getD_eq_getD_getElem?, Array.getElem?_replicate]
    split
    next hv => simp only [Option.getD_some, hv]
    next hv => simp only [Option.getD_none, Bool.false_eq_true, hv]
  rw [staticVariables, getD_foldl_setIfInBounds, hmarks]
  simp only [List.mem_flatMap, Array.mem_toList_iff, Task.IsUnmodified]
  refine and_congr_right fun _ => ⟨?_, ?_⟩
  · intro h a ha effect heffect
    exact h effect ⟨a, ha, heffect⟩
  · rintro h effect ⟨a, ha, heffect⟩
    exact h a ha effect heffect

namespace Dependence

/-- Nothing but static variables is read by what does not depend on the state, and these are only
known if they are kept. -/
theorem of_not_dependsOnState {t : Task} {keepStatic : Bool} {e : Expression Quantity}
    (h : (ofTask t keepStatic).dependsOnState e = false) {v : Nat} (hv : v ∈ varsOf e) :
    keepStatic = true ∧ v < t.numericVars.size ∧ t.IsUnmodified v := by
  have hstatic : (ofTask t keepStatic).isStatic.getD v false = true := by
    simpa using List.any_eq_false.mp h v hv
  rw [ofTask] at hstatic
  cases keepStatic with
  | false => exact absurd hstatic (by simp)
  | true => exact ⟨rfl, (staticVariables_iff t v).mp hstatic⟩

end Dependence

/-! ## Costs -/

/-- What the cost of an action that could be computed is. -/
structure Cost.Describes {α : Type} [Arithmetic α] (cost : Cost α) (d : Dependence)
    (metric : Option Metric) (state : Array α) (a : Action) : Prop where
  hasFixedDuration : cost.hasFixedDuration = d.hasFixedDuration a
  durations : cost.hasFixedDuration = true → List.Forall₂ (fun bound x =>
    evaluate state (Arithmetic.ofFloat 0.0) bound.expression = .ok x) a.durations cost.durations
  isFixed : cost.isFixed = d.hasFixedCost a
  value : cost.isFixed = true → costIn metric a state (Arithmetic.ofFloat 0.0)
    (cost.durations.headD (Arithmetic.ofFloat 0.0)) = .ok cost.value

theorem costOf_eq {α : Type} [Arithmetic α] (d : Dependence) (metric : Option Metric)
    (state : Array α) (a : Action) : costOf d metric state a =
      (if d.hasFixedDuration a then
        a.durations.mapM fun bound => evaluate state (Arithmetic.ofFloat 0.0) bound.expression
        else pure []) >>= fun durations =>
      (if d.hasFixedCost a then
        costIn metric a state (Arithmetic.ofFloat 0.0) (durations.headD (Arithmetic.ofFloat 0.0))
        else pure (Arithmetic.ofFloat 0.0)) >>= fun value =>
      pure ⟨d.hasFixedDuration a, durations, d.hasFixedCost a, value⟩ := by
  unfold costOf
  dsimp only
  cases d.hasFixedDuration a <;> cases d.hasFixedCost a <;> rfl

theorem costOf_eq_ok {α : Type} [Arithmetic α] {d : Dependence} {metric : Option Metric}
    {state : Array α} {a : Action} {cost : Cost α} (h : costOf d metric state a = .ok cost) :
    cost.Describes d metric state a := by
  rw [costOf_eq] at h
  obtain ⟨durations, hdurations, h⟩ := Grounding.except_bind_eq_ok.mp h
  obtain ⟨value, hvalue, h⟩ := Grounding.except_bind_eq_ok.mp h
  cases h
  refine ⟨rfl, fun hfixed => ?_, rfl, fun hfixed => ?_⟩
  · rw [if_pos hfixed] at hdurations
    exact Grounding.except_mapM_eq_ok hdurations
  · rw [if_pos hfixed] at hvalue
    exact hvalue

theorem Dependence.ofTask_congr {t t' : Task} (keepStatic : Bool)
    (heffects : t'.actions.toList.map Action.numericEffects =
      t.actions.toList.map Action.numericEffects)
    (hvars : t'.numericVars = t.numericVars) (hmetric : t'.metric = t.metric) :
    ofTask t' keepStatic = ofTask t keepStatic := by
  have hstatic : staticVariables t' = staticVariables t := by
    rw [staticVariables, staticVariables, List.flatMap_def, List.flatMap_def, heffects, hvars]
  rw [ofTask, ofTask, hstatic, metricVariables, metricVariables, metricReadsTime, metricReadsTime,
    hvars, hmetric]

theorem describes_of_forall₂ {d : Dependence} {metric : Option Metric} {state : Array Float}
    {actions : List Action} {costs : List (Cost Float)}
    (h : List.Forall₂ (fun a cost => costOf d metric state a = .ok cost) actions costs) :
    ∀ b ∈ actions.zipWith (fun a cost => { a with cost }) costs,
      b.cost.Describes d metric state b := by
  induction h with
  | nil => exact fun b hb => absurd hb List.not_mem_nil
  | @cons a cost actions costs hcost _ ih =>
    intro b hb
    rcases List.mem_cons.mp hb with rfl | hb
    · -- the cost that an action carries plays no part in its computation
      exact costOf_eq_ok (a := { a with cost }) hcost
    · exact ih b hb

/-- The costs that are entered have been computed in the initial state. -/
theorem computeCosts_describes (keepStatic : Bool) (t : Task) :
    (computeCosts keepStatic).Ensures t fun _ T => ∀ a ∈ T.actions,
      a.cost.Describes (Dependence.ofTask T keepStatic) T.metric T.numericInitialState a := by
  refine Update.ensures_bind.mpr (Update.ensures_modify.mpr ?_)
  refine Update.ensures_bind.mpr (Update.ensures_modify.mpr ?_)
  -- whatever the task is when the costs are computed
  refine (fun t' => ?_ : ∀ t' : Task, Update.Ensures _ t' _) _
  refine Update.ensures_bind.mpr (Update.ensures_get.mpr ?_)
  refine Update.ensures_bind.mpr (Update.ensures_lift.mpr fun costs hcosts => ?_)
  refine Update.ensures_modify.mpr fun a ha => ?_
  have hall := Grounding.except_mapM_eq_ok hcosts
  have hentered := forall₂_withCosts hall.length_eq
  have heffects : (t'.actions.toList.zipWith (fun a cost => { a with cost }) costs).map
      Action.numericEffects = t'.actions.toList.map Action.numericEffects := by
    refine map_eq_map_of_forall₂ (hentered.imp fun a b hb => ?_)
    rw [hb]
    rfl
  rw [Dependence.ofTask_congr (t := t') keepStatic ?_ ?_ ?_]
  · refine describes_of_forall₂ hall a ?_
    have hmem := Array.mem_toList_iff.mpr ha
    rw [Array.toList_zipWith] at hmem
    exact hmem
  · rw [Array.toList_zipWith]
    exact heffects
  · rfl
  · rfl

end FiniteDomain

end TemporalPlanning
