import TemporalPlanning.Proofs.FiniteDomain.ClosedTables
import TemporalPlanning.Proofs.FiniteDomain.Derived
import TemporalPlanning.Proofs.FiniteDomain.InitialValues
/-!
References of a finite-domain task.

Conditions, effects and goals name a variable and one of its values, expressions read numeric
variables, and mutex facts are codes of such pairs. A task is closed if all of these exist. What
refers to a task still does so after the task has been extended, so a task that is closed remains
closed while its tables change under what has been built already.
-/
set_option autoImplicit false

namespace TemporalPlanning.FiniteDomain

namespace Task

/-- A task has all values that the variables of another one have, and its numeric variables. -/
structure Extends (t t' : Task) : Prop where
  held : ∀ var value, t.HasValueAt var value → t'.HasValueAt var value
  numericSize : t.numericVars.size ≤ t'.numericVars.size

theorem Extends.of_eq {t t' : Task} (hvars : t'.vars = t.vars)
    (hnumericVars : t'.numericVars = t.numericVars) : t.Extends t' := by
  refine ⟨fun var value h => ?_, Nat.le_of_eq (by rw [hnumericVars])⟩
  rwa [HasValueAt, hvars]

theorem Widens.toExtends {t t' : Task} (h : t.Widens t') : t.Extends t' :=
  ⟨fun _ _ => h.held, Nat.le_of_eq h.numericSize.symm⟩

end Task

/-! ## What refers to a task -/

/-- A leaf of an expression reads no numeric variable, or an existing one. -/
def Quantity.IsClosedIn (t : Task) : Quantity → Prop
  | .var v => v < t.numericVars.size
  | .number _ | .duration | .elapsed => True

/-- A leaf of a metric reads no numeric variable, or an existing one. -/
def Measure.IsClosedIn (t : Task) : Measure → Prop
  | .var v => v < t.numericVars.size
  | .number _ | .totalTime | .isViolated _ => True

/-- A condition or effect is about a value of an existing variable. -/
def Condition.IsClosedIn (t : Task) (c : Condition) : Prop := t.HasValueAt c.var c.value

/-- All facts and comparisons of a goal refer to what exists. -/
inductive Goal.IsClosedIn (t : Task) : Goal → Prop where
  | fact {var : Nat} {value : ValueId} (h : t.HasValueAt var value) :
    IsClosedIn t (.fact var value)
  | constant (holds : Bool) : IsClosedIn t (.constant holds)
  | and {goals : List Goal} (h : ∀ g ∈ goals, IsClosedIn t g) : IsClosedIn t (.and goals)
  | or {goals : List Goal} (h : ∀ g ∈ goals, IsClosedIn t g) : IsClosedIn t (.or goals)
  | not {goal : Goal} (h : IsClosedIn t goal) : IsClosedIn t (.not goal)
  | compare {terms : List (Expression Quantity)} (comparator : Comparator)
    (h : ∀ e ∈ terms, ∀ q ∈ e.atoms, q.IsClosedIn t) : IsClosedIn t (.compare comparator terms)
  | timed {goal : Goal} (time : TimePoint) (h : IsClosedIn t goal) : IsClosedIn t (.timed time goal)

/-- All goals of a constraint refer to what exists. -/
inductive Constraint.IsClosedIn (t : Task) : Constraint → Prop where
  | and {constraints : List Constraint} (h : ∀ c ∈ constraints, IsClosedIn t c) :
    IsClosedIn t (.and constraints)
  | preference {constraint : Constraint} (nameIndex : Nat) (h : IsClosedIn t constraint) :
    IsClosedIn t (.preference nameIndex constraint)
  | goalPreference {goal : Goal} (nameIndex : Nat) (h : goal.IsClosedIn t) :
    IsClosedIn t (.goalPreference nameIndex goal)
  | temporal {goals : List Goal} (modality : Modality) (times : List Float)
    (h : ∀ g ∈ goals, g.IsClosedIn t) : IsClosedIn t (.temporal modality times goals)

/-- An action refers to what exists. -/
structure Action.IsClosedIn (t : Task) (a : Action) : Prop where
  durations : ∀ d ∈ a.durations, ∀ q ∈ d.expression.atoms, q.IsClosedIn t
  conditions : ∀ c ∈ a.conditions, c.IsClosedIn t
  numericConditions : ∀ c ∈ a.startNumericConditions ++ a.numericInvariants
    ++ a.endNumericConditions, ∀ e ∈ c.terms, ∀ q ∈ e.atoms, q.IsClosedIn t
  effects : ∀ c ∈ a.effects, c.IsClosedIn t
  numericEffects : ∀ e ∈ a.numericEffects,
    e.var < t.numericVars.size ∧ ∀ q ∈ e.expression.atoms, q.IsClosedIn t
  preferences : ∀ p ∈ a.preferences, p.goal.IsClosedIn t

/-- The actions of a table carry their positions, and refer to what exists. -/
def AreClosedIn (t : Task) (actions : Array Action) : Prop :=
  ∀ (i : Nat) a, actions[i]? = some a → a.index = i ∧ a.IsClosedIn t

/-- Both of two facts are about existing values of variables. -/
def ArePairedIn (t : Task) (f g : FactCode) : Prop :=
  t.HasValueAt f.var f.value ∧ t.HasValueAt g.var g.value

/-- Actions, goals, constraints, the metric and mutex facts refer to what exists, in closed tables. -/
structure Task.HasClosedConstructs (t : Task) : Prop extends t.HasClosedTables where
  actions : AreClosedIn t t.actions
  goals : AreClosedIn t t.goals
  constraints : ∀ c ∈ t.constraints, c.IsClosedIn t
  metric : ∀ m, t.metric = some m → ∀ q ∈ m.expression.atoms, q.IsClosedIn t
  mutex : ∀ f g, t.isMutex f g = true → ArePairedIn t f g

/-- **Everything that a task refers to exists**, also where it has been derived from the task. -/
structure Task.IsClosed (t : Task) : Prop extends t.HasClosedConstructs where
  permanentMutex : ∀ f g, t.isPermanentMutex f g = true → ArePairedIn t f g
  initialState : ∀ (i : Nat) value, t.initialState[i]? = some (some value) → t.HasValueAt i value

/-! ## Extended tasks -/

section Extending

variable {t t' : Task} (hext : t.Extends t')
include hext

theorem Quantity.IsClosedIn.mono {q : Quantity} (h : q.IsClosedIn t) : q.IsClosedIn t' := by
  cases q with
  | var v => exact Nat.lt_of_lt_of_le h hext.numericSize
  | number | duration | elapsed => trivial

theorem Measure.IsClosedIn.mono {q : Measure} (h : q.IsClosedIn t) : q.IsClosedIn t' := by
  cases q with
  | var v => exact Nat.lt_of_lt_of_le h hext.numericSize
  | number | totalTime | isViolated => trivial

theorem Condition.IsClosedIn.mono {c : Condition} (h : c.IsClosedIn t) : c.IsClosedIn t' :=
  hext.held c.var c.value h

theorem Goal.IsClosedIn.mono {g : Goal} (h : g.IsClosedIn t) : g.IsClosedIn t' := by
  induction h with
  | fact h => exact .fact (hext.held _ _ h)
  | constant holds => exact .constant holds
  | and _ ih => exact .and ih
  | or _ ih => exact .or ih
  | not _ ih => exact .not ih
  | compare comparator h => exact .compare comparator fun e he q hq => (h e he q hq).mono hext
  | timed time _ ih => exact .timed time ih

theorem Constraint.IsClosedIn.mono {c : Constraint} (h : c.IsClosedIn t) : c.IsClosedIn t' := by
  induction h with
  | and _ ih => exact .and ih
  | preference nameIndex _ ih => exact .preference nameIndex ih
  | goalPreference nameIndex h => exact .goalPreference nameIndex (h.mono hext)
  | temporal modality times h => exact .temporal modality times fun g hg => (h g hg).mono hext

theorem Action.IsClosedIn.mono {a : Action} (h : a.IsClosedIn t) : a.IsClosedIn t' where
  durations d hd q hq := (h.durations d hd q hq).mono hext
  conditions c hc := (h.conditions c hc).mono hext
  numericConditions c hc e he q hq := (h.numericConditions c hc e he q hq).mono hext
  effects c hc := (h.effects c hc).mono hext
  numericEffects e he :=
    ⟨Nat.lt_of_lt_of_le (h.numericEffects e he).1 hext.numericSize, fun q hq =>
      ((h.numericEffects e he).2 q hq).mono hext⟩
  preferences p hp := (h.preferences p hp).mono hext

theorem AreClosedIn.mono {actions : Array Action} (h : AreClosedIn t actions) :
    AreClosedIn t' actions := fun i a ha => ⟨(h i a ha).1, (h i a ha).2.mono hext⟩

theorem ArePairedIn.mono {f g : FactCode} (h : ArePairedIn t f g) : ArePairedIn t' f g :=
  ⟨hext.held _ _ h.1, hext.held _ _ h.2⟩

omit hext in
/-- An action is added at the end of a table. -/
theorem AreClosedIn.push {actions : Array Action} (h : AreClosedIn t actions) {a : Action}
    (hindex : a.index = actions.size) (ha : a.IsClosedIn t) : AreClosedIn t (actions.push a) := by
  intro i b hb
  rw [Array.getElem?_push] at hb
  by_cases hi : i = actions.size
  · rw [if_pos hi] at hb
    cases hb
    exact ⟨hindex.trans hi.symm, ha⟩
  · rw [if_neg hi] at hb
    exact h i b hb

end Extending

/-- What is built on the tables of a task. -/
def Task.constructs (t : Task) :
    Array Action × Array Action × List Constraint × Option Metric × PairSet :=
  (t.actions, t.goals, t.constraints, t.metric, t.mutex)

/-- Constructs remain closed while only the tables change, as long as nothing is taken out. -/
theorem Task.HasClosedConstructs.of_constructs_eq {t t' : Task} (h : t.HasClosedConstructs)
    (htables : t'.HasClosedTables) (hext : t.Extends t') (hsame : t'.constructs = t.constructs) :
    t'.HasClosedConstructs := by
  simp only [constructs, Prod.mk.injEq] at hsame
  obtain ⟨hactions, hgoals, hconstraints, hmetric, hmutex⟩ := hsame
  refine ⟨htables, ?_, ?_, fun c hc => ?_, fun m hm q hq => ?_, fun f g hfg => ?_⟩
  · rw [hactions]
    exact h.actions.mono hext
  · rw [hgoals]
    exact h.goals.mono hext
  · exact (h.constraints c (hconstraints ▸ hc)).mono hext
  · exact (h.metric m (hmetric ▸ hm) q hq).mono hext
  · rw [isMutex, hmutex] at hfg
    exact (h.mutex f g hfg).mono hext

/-- What is built on tables may be exchanged for something else that refers to what exists. -/
theorem Task.HasClosedConstructs.exchange {t t' : Task} (h : t.HasClosedTables)
    (htables : t'.tables = t.tables) (hactions : AreClosedIn t t'.actions)
    (hgoals : AreClosedIn t t'.goals) (hconstraints : ∀ c ∈ t'.constraints, c.IsClosedIn t)
    (hmetric : ∀ m, t'.metric = some m → ∀ q ∈ m.expression.atoms, q.IsClosedIn t)
    (hmutex : ∀ f g, t'.isMutex f g = true → ArePairedIn t f g) : t'.HasClosedConstructs := by
  obtain ⟨hvalues, hrest⟩ := Prod.mk.inj htables
  obtain ⟨hvars, hnumericVars⟩ := Prod.mk.inj hrest
  have hwidens : t.Widens t' := .of_eq hvalues hvars hnumericVars
  have hext := hwidens.toExtends
  exact ⟨h.widen hwidens, hactions.mono hext, hgoals.mono hext,
    fun c hc => (hconstraints c hc).mono hext, fun m hm q hq => (hmetric m hm q hq).mono hext,
    fun f g hfg => (hmutex f g hfg).mono hext⟩

/-- On closed tables nothing has been built yet. -/
theorem Task.HasClosedTables.hasClosedConstructs {t : Task} (h : t.HasClosedTables)
    (hnothing : t.constructs = Task.empty.constructs) : t.HasClosedConstructs := by
  simp only [constructs, Prod.mk.injEq] at hnothing
  obtain ⟨hactions, hgoals, hconstraints, hmetric, hmutex⟩ := hnothing
  refine ⟨h, fun i a ha => ?_, fun i a ha => ?_, fun c hc => ?_, fun m hm => ?_, fun f g hfg => ?_⟩
  · rw [hactions] at ha
    cases ha
  · rw [hgoals] at ha
    cases ha
  · rw [hconstraints] at hc
    cases hc
  · rw [hmetric] at hm
    cases hm
  · rw [isMutex, hmutex, Std.TreeSet.contains_iff_mem] at hfg
    exact absurd hfg Std.TreeSet.not_mem_emptyc

/-! ## Derived data -/

/-- Only costs are entered in actions, so that they refer to what they referred to. -/
theorem Action.IsClosedIn.of_sameButCost {t : Task} {a b : Action} (h : a.IsClosedIn t)
    (hsame : a.SameButCost b) : b.index = a.index ∧ b.IsClosedIn t := by
  rw [hsame]
  exact ⟨rfl, h.durations, h.conditions, h.numericConditions, h.effects, h.numericEffects,
    h.preferences⟩

theorem AreClosedIn.of_sameButCost {t : Task} {actions actions' : Array Action}
    (h : AreClosedIn t actions)
    (hsame : List.Forall₂ Action.SameButCost actions.toList actions'.toList) :
    AreClosedIn t actions' := by
  intro i b hb
  have hlength := hsame.length_eq
  rw [Array.length_toList, Array.length_toList] at hlength
  obtain ⟨hi, rfl⟩ := Array.getElem?_eq_some_iff.mp hb
  have hi' : i < actions.size := hlength ▸ hi
  obtain ⟨hindex, ha⟩ := h i _ (Array.getElem?_eq_getElem hi')
  have hget := hsame.get (by simpa using hi') (by simpa using hi)
  simp only [List.get_eq_getElem, Array.getElem_toList] at hget
  obtain ⟨hindex', hb'⟩ := ha.of_sameButCost hget
  exact ⟨hindex'.trans hindex, hb'⟩

/-- An initial state consists of initial values, so of values of the variables. -/
theorem Task.HasClosedTables.hasValueAt_of_initialState {t : Task} (h : t.HasClosedTables)
    (hinitial : t.HasInitialState) {i : Nat} {value : ValueId}
    (hvalue : t.initialState[i]? = some (some value)) : t.HasValueAt i value := by
  rw [hinitial.values, Array.getElem?_map] at hvalue
  obtain ⟨x, hx, hstart⟩ := Option.map_eq_some_iff.mp hvalue
  obtain ⟨time, hmem, -⟩ := exists_mem_of_valueAtStart hstart
  exact ⟨x, hx, h.initial i x hx _ hmem⟩

end TemporalPlanning.FiniteDomain
