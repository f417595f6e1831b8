import TemporalPlanning.Grounding.Saturation
import TemporalPlanning.Proofs.Grounding.Table
/-!
Goals, constraints and the metric only create.

Preferences are grounded together with the actions they belong to, constraints and the metric after
all actions. None of them reaches a value or adds an action: they refer to variables and preference
names, which are created on first use.
-/
set_option autoImplicit false

namespace TemporalPlanning.Grounding

open Grounded

/-! ## Goals -/

/-- A fluent creates its variable if its arguments and its value are objects. Otherwise one of them
is a quantified parameter, and nothing is created. -/
theorem fluentGoal_onlyCreates (task : Lifted.Task) (arguments : List ObjectId)
    (literal : Lifted.Literal) (value : Lifted.Term) (equal : Bool) :
    (fluentGoal task arguments literal value equal).OnlyCreates task := by
  unfold fluentGoal
  dsimp only
  split
  · exact (variableOf_onlyCreates task _ _).bind fun _ => onlyCreates_pure _
  · exact onlyCreates_pure _

/-- The leaves of numeric comparisons are treated alike; durations have no place there. -/
theorem partialQuantity_onlyCreates (task : Lifted.Task) (arguments : List ObjectId)
    (q : Lifted.Quantity) : (partialQuantity task arguments q).OnlyCreates task := by
  cases q with
  | number x => exact onlyCreates_pure _
  | term t => exact onlyCreates_pure _
  | fluent l =>
    rw [partialQuantity]
    split
    · exact (variableOf_onlyCreates task _ _).bind fun _ => onlyCreates_pure _
    · exact onlyCreates_pure _
  | duration => exact onlyCreates_throw _
  | elapsed => exact onlyCreates_throw _

section Lists

variable {α β : Type} {task : Lifted.Task}

mutual

/-- An expression is ground leaf by leaf, so it suffices to look at the leaves. -/
theorem mapM_expression_onlyCreates {f : α → Step β} (hf : ∀ a, (f a).OnlyCreates task) :
    ∀ e : Expression α, Step.OnlyCreates (e.mapM f) task
  | .atom a => Step.OnlyCreates.map _ (hf a)
  | .node _ es => (mapM_operands_onlyCreates hf es).bind fun _ => onlyCreates_pure _

theorem mapM_operands_onlyCreates {f : α → Step β} (hf : ∀ a, (f a).OnlyCreates task) :
    ∀ es : List (Expression α), Step.OnlyCreates
      (Expression.foldListM (fun a => Expression.atom <$> f a)
        (fun op _ operands => pure (.node op operands)) es) task
  | [] => onlyCreates_pure _
  | e :: es => (mapM_expression_onlyCreates hf e).bind fun _ =>
    (mapM_operands_onlyCreates hf es).bind fun _ => onlyCreates_pure _

end

/-- What comes to nothing is left out, but what it has created stays. -/
theorem collect_onlyCreates {f : α → Step (Option β)} (hf : ∀ a, (f a).OnlyCreates task)
    (as : List α) : (collect f as).OnlyCreates task := by
  induction as with
  | nil => exact onlyCreates_pure _
  | cons a as ih =>
    rw [collect]
    refine (hf a).bind fun b? => ?_
    cases b? with
    | none => exact ih
    | some b => exact ih.bind fun _ => onlyCreates_pure _

/-- A single element that comes to nothing ends the collection. -/
theorem collectAll_onlyCreates {f : α → Step (Option β)} (hf : ∀ a, (f a).OnlyCreates task)
    (as : List α) : (collectAll f as).OnlyCreates task := by
  induction as with
  | nil => exact onlyCreates_pure _
  | cons a as ih =>
    rw [collectAll]
    refine (hf a).bind fun b? => ?_
    cases b? with
    | none => exact onlyCreates_pure _
    | some b => exact ih.bind fun _ => onlyCreates_pure _

end Lists

/-- A comparison is one of numbers, one of a fluent with a term, or one of two terms, which creates
nothing. -/
theorem compareGoal_onlyCreates (task : Lifted.Task) (arguments : List ObjectId)
    (comparator : Comparator) (left right : Expression Lifted.Quantity) :
    (compareGoal task arguments comparator left right).OnlyCreates task := by
  have hside := mapM_expression_onlyCreates (partialQuantity_onlyCreates task arguments)
  have hnumeric := (hside left).bind fun l => (hside right).bind fun r =>
    onlyCreates_pure (Goal.compare comparator [l, r])
  -- comparisons by order are numeric, equations of a function with a term or of terms need not be
  unfold compareGoal
  dsimp only
  split
  · exact hnumeric
  · split
    · split
      · exact hnumeric
      · exact fluentGoal_onlyCreates task arguments _ _ _
    · split
      · exact hnumeric
      · exact fluentGoal_onlyCreates task arguments _ _ _
    · exact onlyCreates_pure _
    · exact hnumeric

mutual

/-- **Grounding a goal only creates**, which is settled at its literals and comparisons. -/
theorem groundGoal_onlyCreates (task : Lifted.Task) (arguments : List ObjectId) :
    ∀ g : Lifted.Goal, (groundGoal task arguments g).OnlyCreates task
  | .literal _ | .negLiteral _ => by
    rw [groundGoal]
    exact fluentGoal_onlyCreates task arguments _ _ _
  | .and gs | .or gs => by
    rw [groundGoal]
    exact (groundGoals_onlyCreates task arguments gs).bind fun _ => onlyCreates_pure _
  | .not g | .existential _ g | .universal _ g | .timed _ g => by
    rw [groundGoal]
    exact (groundGoal_onlyCreates task arguments g).bind fun _ => onlyCreates_pure _
  | .imply g h => by
    rw [groundGoal]
    exact (groundGoal_onlyCreates task arguments g).bind fun _ =>
      (groundGoal_onlyCreates task arguments h).bind fun _ => onlyCreates_pure _
  | .compare _ _ _ => by
    rw [groundGoal]
    exact compareGoal_onlyCreates task arguments _ _ _
  | .equality _ _ | .inequality _ _ => by
    rw [groundGoal]
    exact onlyCreates_pure _

theorem groundGoals_onlyCreates (task : Lifted.Task) (arguments : List ObjectId) :
    ∀ gs : List Lifted.Goal, (groundGoals task arguments gs).OnlyCreates task
  | [] => by
    rw [groundGoals]
    exact onlyCreates_pure _
  | g :: gs => by
    rw [groundGoals]
    exact (groundGoal_onlyCreates task arguments g).bind fun _ =>
      (groundGoals_onlyCreates task arguments gs).bind fun _ => onlyCreates_pure _

end

/-- The name of a preference is created before its goal is looked at. -/
theorem groundPreference_onlyCreates (task : Lifted.Task) (arguments : List ObjectId)
    (p : Lifted.Preference) : (groundPreference task arguments p).OnlyCreates task :=
  (preferenceIndex_onlyCreates task p.name).bind fun _ =>
    (groundGoal_onlyCreates task arguments p.goal).bind fun _ => onlyCreates_pure _

/-! ## Constraints -/

/-- The quantifiers of a ground goal are expanded over the variables that there are by then, which
reads the state but does not change it. -/
theorem groundConstraintGoal_onlyCreates (setting : Setting) (arguments : List ObjectId)
    (goal : Lifted.Goal) : (groundConstraintGoal setting arguments goal).OnlyCreates setting.task :=
  (groundGoal_onlyCreates setting.task arguments goal).bind fun _ =>
    onlyCreates_get.bind fun _ => onlyCreates_lift _

mutual

/-- **Grounding a constraint only creates**, for any objects in the place of its quantified
parameters. -/
theorem groundConstraint_onlyCreates (setting : Setting) :
    ∀ (c : Lifted.Constraint) (arguments : List ObjectId),
      (groundConstraint setting arguments c).OnlyCreates setting.task
  | .and cs, arguments => by
    rw [groundConstraint]
    refine (groundConstraints_onlyCreates setting cs arguments).bind fun cs? => ?_
    -- one constraint that comes to nothing makes the conjunction do so
    split
    · exact onlyCreates_pure _
    · exact onlyCreates_pure _
    · exact onlyCreates_pure _
  | .universal _ c, arguments => by
    rw [groundConstraint]
    exact (collect_onlyCreates
      (fun objects => groundConstraint_onlyCreates setting c (arguments ++ objects)) _).bind
      fun _ => onlyCreates_pure _
  | .preference name c, arguments => by
    rw [groundConstraint]
    exact (preferenceIndex_onlyCreates _ name).bind fun _ =>
      (groundConstraint_onlyCreates setting c arguments).bind fun _ => onlyCreates_pure _
  | .goalPreference name g, arguments => by
    rw [groundConstraint]
    exact (preferenceIndex_onlyCreates _ name).bind fun _ =>
      (groundConstraintGoal_onlyCreates setting arguments g).bind fun _ => onlyCreates_pure _
  | .temporal _ _ gs, arguments => by
    rw [groundConstraint]
    exact (collectAll_onlyCreates (groundConstraintGoal_onlyCreates setting arguments) gs).bind
      fun _ => onlyCreates_pure _

theorem groundConstraints_onlyCreates (setting : Setting) :
    ∀ (cs : List Lifted.Constraint) (arguments : List ObjectId),
      (groundConstraints setting arguments cs).OnlyCreates setting.task
  | [], arguments => by
    rw [groundConstraints]
    exact onlyCreates_pure _
  | c :: cs, arguments => by
    rw [groundConstraints]
    refine (groundConstraint_onlyCreates setting c arguments).bind fun c? => ?_
    cases c? with
    | none => exact onlyCreates_pure _
    | some c =>
      exact (groundConstraints_onlyCreates setting cs arguments).bind fun _ => onlyCreates_pure _

end

/-! ## Preferences of actions and the metric -/

/-- The preferences of actions are resolved after saturation. This reads the variables and creates
none, and preferences that cannot be resolved are left out. -/
theorem resolvePreferences_onlyCreates (setting : Setting) (preferences : List Preference) :
    (resolvePreferences setting preferences).OnlyCreates setting.task :=
  collect_onlyCreates (fun _ => onlyCreates_get.bind fun _ =>
    (onlyCreates_lift _).bind fun _ => onlyCreates_pure _) preferences

/-- The metric creates no variables: a fluent without one is an error. -/
theorem groundMeasure_onlyCreates (task : Lifted.Task) (m : Lifted.Measure) :
    (groundMeasure task m).OnlyCreates task := by
  cases m with
  | number x => exact onlyCreates_pure _
  | totalTime => exact onlyCreates_pure _
  | isViolated name =>
    exact (preferenceIndex_onlyCreates task name).bind fun _ => onlyCreates_pure _
  | fluent f as =>
    refine onlyCreates_get.bind fun state => ?_
    split
    · exact onlyCreates_pure _
    · exact onlyCreates_throw _

theorem groundMetric_onlyCreates (task : Lifted.Task) (metric : Lifted.Metric) :
    (groundMetric task metric).OnlyCreates task :=
  (mapM_expression_onlyCreates (groundMeasure_onlyCreates task) metric.expression).bind
    fun _ => onlyCreates_pure _

end TemporalPlanning.Grounding
