import TemporalPlanning.Grounding.Statics
import TemporalPlanning.Proofs.Expression
import TemporalPlanning.Proofs.Grounding.Goals
/-!
States of grounding are in order.

A variable is created with the position that it takes in the table, and with the knowledge whether
its function is numeric; no step of grounding changes either. An action is numbered when it is
added, and it is added only when its name is looked at for the first time, so no two actions have
one name. All of this still holds of the saturated task, which is made from the last state.
-/
set_option autoImplicit false

namespace TemporalPlanning.Grounding

open Grounded

/-! ## Attempts that only create -/

/-- An attempt changes nothing but that it creates variables and preference names for a task. -/
def Attempt.OnlyCreates {α : Type} (x : Attempt α) (task : Lifted.Task) : Prop :=
  Step.OnlyCreates x.run task

section Attempts

variable {α β : Type} {task : Lifted.Task}

theorem attempt_pure_onlyCreates (a : α) : Attempt.OnlyCreates (pure a) task :=
  onlyCreates_pure (some a)

theorem attempt_failure_onlyCreates : Attempt.OnlyCreates (failure : Attempt α) task :=
  onlyCreates_pure (none : Option α)

/-- An attempt may use a step that only creates. -/
theorem attempt_step_onlyCreates {x : Step α} (hx : x.OnlyCreates task) :
    Attempt.OnlyCreates (liftM x) task := fun s =>
  Attempt.ensures_step.mpr (hx s)

theorem attempt_lift_onlyCreates (x : Except Error α) : Attempt.OnlyCreates (liftM x) task :=
  attempt_step_onlyCreates (onlyCreates_lift x)

/-- Attempts that only create may follow each other, also if the second is given up. -/
theorem Attempt.OnlyCreates.bind {x : Attempt α} {f : α → Attempt β} (hx : x.OnlyCreates task)
    (hf : ∀ a, (f a).OnlyCreates task) : OnlyCreates (x >>= f) task := by
  intro s
  refine Attempt.ensures_bind.mpr ((hx s).mono fun a? s' hs' => ?_)
  cases a? with
  | none => exact hs'
  | some a => exact (hf a s').mono fun _ _ hs'' => hs'.trans hs''

theorem Attempt.OnlyCreates.mapM {f : α → Attempt β} (hf : ∀ a, (f a).OnlyCreates task)
    (l : List α) : OnlyCreates (l.mapM f) task := by
  induction l with
  | nil => exact attempt_pure_onlyCreates _
  | cons a l ih =>
    rw [List.mapM_cons]
    exact (hf a).bind fun _ => ih.bind fun _ => attempt_pure_onlyCreates _

end Attempts

section Operators

variable (task : Lifted.Task) (arguments : List ObjectId)

theorem groundFluent_onlyCreates (c : Lifted.Fluent) :
    (groundFluent task arguments c).OnlyCreates task :=
  (onlyCreates_lift _).bind fun _ => (variableOf_onlyCreates task _ _).bind fun _ =>
    (onlyCreates_lift _).bind fun _ => onlyCreates_pure _

theorem existingVariable_onlyCreates (f : FunctionId) (as : List ObjectId) :
    (existingVariable f as).OnlyCreates task :=
  (attempt_step_onlyCreates onlyCreates_get).bind fun _ => onlyCreates_pure _

theorem groundQuantity_onlyCreates (q : Lifted.Quantity) :
    (groundQuantity arguments q).OnlyCreates task := by
  cases q with
  | number x => exact attempt_pure_onlyCreates _
  | duration => exact attempt_pure_onlyCreates _
  | elapsed => exact attempt_pure_onlyCreates _
  | term t => exact (attempt_lift_onlyCreates _).bind fun _ => attempt_pure_onlyCreates _
  | fluent l =>
    refine (attempt_lift_onlyCreates _).bind fun _ => ?_
    exact (existingVariable_onlyCreates task _ _).bind fun _ => attempt_pure_onlyCreates _

mutual

theorem groundExpression_onlyCreates :
    ∀ e : Expression Lifted.Quantity, (groundExpression arguments e).OnlyCreates task
  | .atom q => by
    show Attempt.OnlyCreates (Expression.atom <$> groundQuantity arguments q) task
    rw [map_eq_pure_bind]
    exact (groundQuantity_onlyCreates task arguments q).bind fun _ => attempt_pure_onlyCreates _
  | .node _ es => (groundOperands_onlyCreates es).bind fun _ => attempt_pure_onlyCreates _

theorem groundOperands_onlyCreates : ∀ es : List (Expression Lifted.Quantity),
    Attempt.OnlyCreates (Expression.foldListM
      (fun q => Expression.atom <$> groundQuantity arguments q)
      (fun op _ operands => pure (.node op operands)) es) task
  | [] => attempt_pure_onlyCreates _
  | e :: es => (groundExpression_onlyCreates e).bind fun _ =>
    (groundOperands_onlyCreates es).bind fun _ => attempt_pure_onlyCreates _

end

theorem groundNumericCondition_onlyCreates (c : Lifted.NumericCondition) :
    (groundNumericCondition arguments c).OnlyCreates task :=
  (Attempt.OnlyCreates.mapM (groundExpression_onlyCreates task arguments) _).bind fun _ =>
    attempt_pure_onlyCreates _

theorem groundEffects_onlyCreates (fluents : List Lifted.Fluent) (grounded : List Condition) :
    (groundEffects task arguments fluents grounded).OnlyCreates task := by
  induction fluents generalizing grounded with
  | nil => exact attempt_pure_onlyCreates _
  | cons c rest ih =>
    refine (attempt_step_onlyCreates (groundFluent_onlyCreates task arguments c)).bind fun e => ?_
    split
    · split
      · exact ih _
      · exact attempt_failure_onlyCreates
    · exact ih _

theorem groundNumericEffect_onlyCreates (e : Lifted.NumericEffect) :
    (groundNumericEffect arguments e).OnlyCreates task := by
  refine (attempt_lift_onlyCreates _).bind fun _ => ?_
  refine (existingVariable_onlyCreates task _ _).bind fun _ => ?_
  split
  · exact (attempt_lift_onlyCreates _).bind fun _ => attempt_pure_onlyCreates _
  · exact (groundExpression_onlyCreates task arguments _).bind fun _ => attempt_pure_onlyCreates _

/-- Grounding an operator creates variables and names, even if no action comes of it. -/
theorem groundOperator_onlyCreates (s : Schema) (name : String) :
    (groundOperator task arguments s name).OnlyCreates task := by
  have hfluents := Attempt.OnlyCreates.mapM fun c =>
    attempt_step_onlyCreates (groundFluent_onlyCreates task arguments c)
  have hnumeric := Attempt.OnlyCreates.mapM (groundNumericCondition_onlyCreates task arguments)
  have heffects := fun fluents => groundEffects_onlyCreates task arguments fluents []
  have hchanges := Attempt.OnlyCreates.mapM (groundNumericEffect_onlyCreates task arguments)
  have hpreferences := Attempt.OnlyCreates.mapM fun p =>
    attempt_step_onlyCreates (groundPreference_onlyCreates task arguments p)
  have hdurations := Attempt.OnlyCreates.mapM fun d : Lifted.DurationBound =>
    (groundExpression_onlyCreates task arguments d.expression).bind fun e =>
      attempt_pure_onlyCreates (DurationBound.mk d.time d.comparator e)
  refine (hfluents _).bind fun _ => (hfluents _).bind fun _ => (hfluents _).bind fun _ => ?_
  refine (hnumeric _).bind fun _ => (hnumeric _).bind fun _ => (hnumeric _).bind fun _ => ?_
  refine (heffects _).bind fun _ => (heffects _).bind fun _ => ?_
  refine (hchanges _).bind fun _ => (hchanges _).bind fun _ => ?_
  exact (hpreferences _).bind fun _ => (hdurations _).bind fun _ => attempt_pure_onlyCreates _

end Operators

/-- Whatever an operator becomes has the name that is given and belongs where the operator does. -/
theorem groundOperator_returns (task : Lifted.Task) (arguments : List ObjectId) (schema : Schema)
    (name : String) (s : State) : (groundOperator task arguments schema name).Ensures s fun a? _ =>
      ∀ a ∈ a?, a.name = name ∧ a.isGoal = schema.operator.isGoal := by
  have hbind : ∀ {α : Type} {x : Attempt α} {f : α → Attempt Action} {P : Action → Prop},
      (∀ b s, (f b).Ensures s fun a? _ => ∀ a ∈ a?, P a) →
        ∀ s, (x >>= f).Ensures s fun a? _ => ∀ a ∈ a?, P a := by
    refine fun hf s => Attempt.ensures_bind.mpr fun b? s' _ => ?_
    cases b? with
    | none => exact fun a ha => by cases ha
    | some b => exact hf b s'
  -- whatever the parts become
  refine hbind (fun _ => hbind fun _ => hbind fun _ => hbind fun _ => hbind fun _ => ?_) s
  refine hbind fun _ => hbind fun _ => hbind fun _ => hbind fun _ => hbind fun _ => hbind fun _ =>
    hbind fun _ s => Attempt.ensures_pure.mpr fun a ha => ?_
  cases ha
  exact ⟨rfl, rfl⟩

/-! ## Steps that keep a state in order -/

/-- Actions and goals carry their positions, and actions have different names, under which they have
been looked at. -/
structure State.IsListed (s : State) : Prop where
  actions : ∀ (i : Nat) a, s.actions[i]? = some a → a.index = i
  goals : ∀ (i : Nat) a, s.goals[i]? = some a → a.index = i
  tried : ∀ a ∈ s.actions.toList, a.name ∈ s.triedActions
  names : (s.actions.toList.map (·.name)).Nodup

/-- The variables of a state carry their positions and know whether their functions are numeric, and
its actions and goals are listed. -/
structure State.IsOrderly (s : State) (task : Lifted.Task) : Prop extends s.IsListed where
  numbered : s.IsNumbered
  typed : s.IsTyped task

section Order

variable {task : Lifted.Task} {s s' : State}

/-- It does not matter how many instances have been tried, as long as none is forgotten. -/
theorem State.IsListed.of_eq (h : s.IsListed) (hactions : s'.actions = s.actions)
    (hgoals : s'.goals = s.goals) (htried : ∀ name ∈ s.triedActions, name ∈ s'.triedActions) :
    s'.IsListed :=
  ⟨hactions ▸ h.actions, hgoals ▸ h.goals, fun a ha => htried _ (h.tried a (hactions ▸ ha)),
    hactions ▸ h.names⟩

/-- To create keeps a state in order. -/
theorem State.CreatesFor.isOrderly (h : s.CreatesFor task s') (hs : s.IsOrderly task) :
    s'.IsOrderly task := by
  refine ⟨hs.toIsListed.of_eq ?_ ?_ fun name hname => ?_, h.isNumbered hs.numbered,
    h.isTyped hs.typed⟩
  · rw [h.frame]
  · rw [h.frame]
  · rw [h.frame]
    exact hname

/-- Appending an action that is numbered. -/
theorem index_eq_of_getElem?_push {actions : Array Action} {a : Action}
    (h : ∀ (i : Nat) b, actions[i]? = some b → b.index = i) (i : Nat) (b : Action)
    (hb : (actions.push { a with index := actions.size })[i]? = some b) : b.index = i := by
  rw [Array.getElem?_push] at hb
  split at hb
  next hi =>
    cases hb
    exact hi.symm
  · exact h i b hb

/-- Adding an action keeps a state in order if it has been looked at under a name that no other
action has. -/
theorem addAction_isOrderly (hs : s.IsOrderly task) {a : Action}
    (ha : a.isGoal = false →
      a.name ∈ s.triedActions ∧ ∀ b ∈ s.actions.toList, b.name ≠ a.name) :
    (addAction a).Ensures s fun _ s' => s'.IsOrderly task := by
  refine Step.ensures_modify.mpr ?_
  split
  · exact ⟨⟨hs.actions, index_eq_of_getElem?_push hs.goals, hs.tried, hs.names⟩, hs.numbered,
      hs.typed⟩
  next hordinary =>
    obtain ⟨htried, hnew⟩ := ha (Bool.eq_false_iff.mpr hordinary)
    refine ⟨⟨index_eq_of_getElem?_push hs.actions, hs.goals, fun b hb => ?_, ?_⟩, hs.numbered,
      hs.typed⟩
    · rw [Array.toList_push] at hb
      rcases List.mem_append.mp hb with hb | hb
      · exact hs.tried b hb
      · rw [List.mem_singleton.mp hb]
        exact htried
    · rw [Array.toList_push, List.map_append]
      refine List.nodup_append.mpr ⟨hs.names, List.pairwise_singleton _ _, ?_⟩
      intro name hname name' hname'
      obtain ⟨b, hb, rfl⟩ := List.mem_map.mp hname
      rw [List.map_singleton, List.mem_singleton] at hname'
      rw [hname']
      exact hnew b hb

end Order

/-! ## What exploration keeps -/

/-- The actions of a task have been looked for: the first phase of saturation. -/
def explore (p : Lifted.Problem) : Step Unit := do
  start p.task
  groundUnconditional (Setting.ofTask p.task) (schemasOf (Setting.ofTask p.task) p.operators)
  runLevels (Setting.ofTask p.task) (schemasOf (Setting.ofTask p.task) p.operators)
    (valueBound p.task + 1)

/-- A step leads from states with a property to such states. -/
def Step.Keeps {α : Type} (x : Step α) (Q : State → Prop) : Prop :=
  ∀ s : State, Q s → x.Ensures s fun _ s' => Q s'

section Keeps

variable {α β : Type} {Q : State → Prop}

theorem pure_keeps (a : α) : Step.Keeps (pure a) Q := fun _ hs => Step.ensures_pure.mpr hs

theorem get_keeps : Step.Keeps get Q := fun _ hs => Step.ensures_get.mpr hs

theorem lift_keeps (x : Except Error α) : Step.Keeps (liftM x) Q := fun _ hs =>
  Step.ensures_lift.mpr fun _ _ => hs

theorem modify_keeps {f : State → State} (hf : ∀ s, Q s → Q (f s)) : Step.Keeps (modify f) Q :=
  fun s hs => Step.ensures_modify.mpr (hf s hs)

/-- A step that only creates variables and names keeps what this keeps. -/
theorem Step.OnlyCreates.keeps {task : Lifted.Task} {x : Step α} (hx : x.OnlyCreates task)
    (hQ : ∀ {s s' : State}, s.CreatesFor task s' → Q s → Q s') : x.Keeps Q := fun s hs =>
  (hx s).mono fun _ _ hs' => hQ hs' hs

theorem Step.Keeps.bind {x : Step α} {f : α → Step β} (hx : x.Keeps Q)
    (hf : ∀ a, (f a).Keeps Q) : Keeps (x >>= f) Q := fun s hs =>
  Step.ensures_bind.mpr ((hx s hs).mono fun a s' hs' => hf a s' hs')

theorem Step.Keeps.forM {f : α → Step PUnit} {l : List α} (hf : ∀ a ∈ l, (f a).Keeps Q) :
    Keeps (l.forM f) Q := fun _ hs =>
  Step.ensures_forM (fun a ha s hs => hf a ha s hs) hs

end Keeps

/-- What creating variables and names, reaching a value, moving on to another level and looking at
an instance of an operator keep. -/
structure IsInvariant (p : Lifted.Problem) (Q : State → Prop) : Prop where
  creates : ∀ {s s' : State}, s.CreatesFor p.task s' → Q s → Q s'
  reaches : ∀ (level : Nat) (c : Condition), (reach level c).Keeps Q
  moves : ∀ {s : State} (level first last counted : Nat) (levels : Array LevelStats), Q s →
    Q { s with level := level, levelStart := first, levelEnd := last, counted := counted,
               levels := levels }
  looks : ∀ schema ∈ schemasOf (Setting.ofTask p.task) p.operators, ∀ arguments,
    (groundInstance p.task arguments schema).Keeps Q

namespace IsInvariant

variable {p : Lifted.Problem} {Q : State → Prop} (h : IsInvariant p Q)
include h

theorem start : (start p.task).Keeps Q := by
  have hcreate : ∀ fact : Lifted.Fact,
      Step.Keeps (discard (variableOf p.task fact.function fact.arguments)) Q := fun fact =>
    ((variableOf_onlyCreates p.task _ _).map _).keeps h.creates
  refine (Step.Keeps.forM fun fact _ => hcreate fact).bind fun _ => ?_
  refine (Step.Keeps.forM fun fact _ => ?_).bind fun _ => modify_keeps fun s hs =>
    h.moves s.level s.levelStart s.values.size s.counted s.levels hs
  split
  · exact ((variableOf_onlyCreates p.task _ _).keeps h.creates).bind fun _ => h.reaches 0 _
  · exact pure_keeps _

theorem runLevels (fuel : Nat) : (runLevels (Setting.ofTask p.task)
    (schemasOf (Setting.ofTask p.task) p.operators) fuel).Keeps Q := by
  induction fuel with
  | zero => exact pure_keeps _
  | succ fuel ih =>
    refine get_keeps.bind fun state => ?_
    split
    · refine (get_keeps.bind fun state' => ?_).bind fun _ => ih
      refine (Step.Keeps.forM fun trigger _ => ?_).bind fun _ => modify_keeps fun s hs =>
        h.moves (s.level + 1) s.levelEnd s.values.size _ _ hs
      exact Step.Keeps.forM fun schema hschema => Step.Keeps.forM fun arguments _ =>
        h.looks schema hschema arguments
    · exact pure_keeps _

/-- **Exploration keeps it.** -/
theorem explore : (explore p).Keeps Q := by
  refine h.start.bind fun _ => Step.Keeps.bind ?_ fun _ => h.runLevels _
  exact Step.Keeps.forM fun schema hschema => Step.Keeps.forM fun arguments _ =>
    h.looks schema (List.mem_filter.mp hschema).1 arguments

end IsInvariant

/-! ## Exploration keeps states in order -/

section Instances

variable {task : Lifted.Task}

/-- Reaching a value keeps a state in order, and leaves its actions alone. -/
theorem reach_isOrderly (level : Nat) (c : Condition) {s : State} (hs : s.IsOrderly task) :
    (reach level c).Ensures s fun _ s' =>
      s'.IsOrderly task ∧ s'.actions = s.actions ∧ s'.triedActions = s.triedActions := by
  refine (reach_ensures level c s).mono ?_
  rintro _ s' (⟨rfl, -⟩ | ⟨v, hv, -, htable, hframe⟩)
  · exact ⟨hs, rfl, rfl⟩
  -- the variable whose value is recorded keeps its position and its kind
  have hentry : ∀ i w, s'.vars.get? i = some w →
      ∃ w', s.vars.get? i = some w' ∧ w.index = w'.index ∧ w.isNumeric = w'.isNumeric ∧
        w.function = w'.function := by
    intro i w hw
    rw [htable] at hw
    split at hw
    next hi =>
      cases hw
      exact ⟨v, hi ▸ hv, rfl, rfl, rfl⟩
    · exact ⟨w, hw, rfl, rfl, rfl⟩
  have hactions : s'.actions = s.actions := by rw [hframe]
  have htried : s'.triedActions = s.triedActions := by rw [hframe]
  refine ⟨⟨hs.toIsListed.of_eq hactions (by rw [hframe]) fun _ => htried ▸ id, fun i w hw => ?_,
    fun i w hw => ?_⟩, hactions, htried⟩
  · obtain ⟨w', hw', hindex, -⟩ := hentry i w hw
    rw [hindex]
    exact hs.numbered i w' hw'
  · obtain ⟨w', hw', -, hnumeric, hfunction⟩ := hentry i w hw
    rw [hnumeric, hfunction]
    exact hs.typed i w' hw'

theorem forM_reach_isOrderly (level : Nat) (cs : List Condition) {s : State}
    (hs : s.IsOrderly task) : Step.Ensures (cs.forM (reach level)) s fun _ s' =>
      s'.IsOrderly task ∧ s'.actions = s.actions ∧ s'.triedActions = s.triedActions :=
  Step.ensures_forM (fun c _ _ ⟨hs', hactions, htried⟩ => (reach_isOrderly level c hs').mono
    fun _ _ ⟨hs'', hactions', htried'⟩ => ⟨hs'', hactions'.trans hactions, htried'.trans htried⟩)
    ⟨hs, rfl, rfl⟩

/-- Looking at an instance for the first time keeps a state in order. No action has its name yet. -/
theorem State.IsOrderly.markTried {s : State} (hs : s.IsOrderly task) {schema : Schema}
    {name : String} {arguments : List ObjectId} (hnew : ¬s.HasTried schema name arguments) :
    (s.markTried schema name arguments).IsOrderly task ∧
      (schema.operator.isGoal = false →
        name ∈ (s.markTried schema name arguments).triedActions ∧
          ∀ b ∈ (s.markTried schema name arguments).actions.toList, b.name ≠ name) := by
  cases hgoal : schema.operator.isGoal with
  | true =>
    rw [markTried_of_goal hgoal]
    exact ⟨⟨⟨hs.actions, hs.goals, hs.tried, hs.names⟩, hs.numbered, hs.typed⟩, fun h => by cases h⟩
  | false =>
    rw [markTried_of_ordinary hgoal]
    rw [hasTried_of_ordinary hgoal] at hnew
    refine ⟨⟨⟨hs.actions, hs.goals, fun a ha => ?_, hs.names⟩, hs.numbered, hs.typed⟩,
      fun _ => ⟨Std.TreeSet.mem_insert_self, fun b hb hname => hnew (hname ▸ hs.tried b hb)⟩⟩
    exact Std.TreeSet.mem_insert.mpr (Or.inr (hs.tried a ha))

variable (task)

/-- An instance is marked as tried before its action is added, so no action is listed twice. -/
theorem groundInstance_keepsOrder (arguments : List ObjectId) (schema : Schema) :
    (groundInstance task arguments schema).Keeps (·.IsOrderly task) := by
  intro s hs
  refine Step.ensures_bind.mpr ((claim_ensures schema _ arguments s).mono ?_)
  rintro fresh s₀ (⟨rfl, -, rfl⟩ | ⟨rfl, hnew, rfl⟩)
  · exact Step.ensures_pure.mpr hs
  obtain ⟨h₀, hname⟩ := hs.markTried hnew
  refine Step.ensures_bind.mpr (Step.ensures_lift.mpr fun holds _ => ?_)
  split
  · refine Step.ensures_bind.mpr fun a? s₁ hrun => ?_
    have hcreates := groundOperator_onlyCreates task arguments schema _ _ a? s₁ hrun
    have h₁ := hcreates.isOrderly h₀
    cases a? with
    | none => exact Step.ensures_pure.mpr h₁
    | some a =>
      obtain ⟨haname, hagoal⟩ := groundOperator_returns task arguments schema _ _ _ s₁ hrun a rfl
      refine Step.ensures_bind.mpr (Step.ensures_get.mpr ?_)
      refine Step.ensures_bind.mpr ((forM_reach_isOrderly _ _ h₁).mono ?_)
      rintro _ s₂ ⟨h₂, hactions, htried⟩
      -- neither grounding the operator nor reaching its effects adds actions
      refine addAction_isOrderly h₂ fun hordinary => ?_
      rw [hactions, htried, haname, hcreates.frame]
      exact hname (hagoal.symm.trans hordinary)
  · exact Step.ensures_pure.mpr h₀

end Instances

/-- Exploration keeps the state in order from beginning to end. -/
theorem explore_keepsOrder (p : Lifted.Problem) : (explore p).Keeps (·.IsOrderly p.task) :=
  IsInvariant.explore
    { creates := fun hcreates hs => hcreates.isOrderly hs
      reaches := fun level c _ hs => (reach_isOrderly level c hs).mono fun _ _ h => h.1
      moves := fun _ _ _ _ _ hs =>
        ⟨⟨hs.actions, hs.goals, hs.tried, hs.names⟩, hs.numbered, hs.typed⟩
      looks := fun schema _ arguments => groundInstance_keepsOrder p.task arguments schema }

/-! ## The phases of saturation -/

/-- Only the preferences of actions may differ. -/
def SameButPreferences (a b : Action) : Prop := b = { a with preferences := b.preferences }

/-- The task that is made from a state in which all actions have been found, if `s'` is the state
after goals, constraints and metric have been grounded. -/
structure IsResult (p : Lifted.Problem) (s s' : State) (t : Task) : Prop where
  creates : s.CreatesFor p.task s'
  task_eq : t.task = p.task
  vars_eq : t.vars = s'.vars.entries
  preferenceNames_eq : t.preferenceNames = s'.preferenceNames.entries.toList
  actions : List.Forall₂ SameButPreferences s.actions.toList t.actions
  goals : List.Forall₂ SameButPreferences s.goals.toList t.goals

theorem resolveActions_ensures (setting : Setting) (actions : List Action) (s : State) :
    Step.Ensures (actions.mapM (resolveAction setting)) s fun bs s' =>
      s.CreatesFor setting.task s' ∧ List.Forall₂ SameButPreferences actions bs := by
  induction actions generalizing s with
  | nil => exact Step.ensures_pure.mpr ⟨.refl _ s, List.Forall₂.nil⟩
  | cons a actions ih =>
    rw [List.mapM_cons]
    have hhead : (resolveAction setting a).Ensures s fun b s' =>
        s.CreatesFor setting.task s' ∧ SameButPreferences a b := by
      refine Step.ensures_bind.mpr ((resolvePreferences_onlyCreates setting _ s).mono ?_)
      exact fun ps s' hs' => Step.ensures_pure.mpr ⟨hs', rfl⟩
    refine Step.ensures_bind.mpr (hhead.mono fun b s' ⟨hs', hb⟩ => ?_)
    refine Step.ensures_bind.mpr ((ih s').mono fun bs s'' ⟨hs'', hbs⟩ => ?_)
    exact Step.ensures_pure.mpr ⟨hs'.trans hs'', List.Forall₂.cons hb hbs⟩

theorem groundMetric?_onlyCreates (task : Lifted.Task) (metric : Option Lifted.Metric) :
    Step.OnlyCreates (metric.mapM (groundMetric task)) task := by
  cases metric with
  | none => exact onlyCreates_pure _
  | some metric => exact (groundMetric_onlyCreates task metric).bind fun _ => onlyCreates_pure _

/-- What holds when all actions have been found decides about the saturated task and the levels it
reports. -/
theorem saturate_ensures_levels {p : Lifted.Problem} {s : State} {Q : Task → Prop}
    (h : (explore p).Ensures s fun _ s₁ => ∀ s' t, IsResult p s₁ s' t →
      t.stats.levels = s'.levels.toList → Q t) :
    (saturate p).Ensures s fun t _ => Q t := by
  simp only [explore, Step.ensures_bind] at h
  -- three phases of exploration, then the actions and the goals
  refine Step.ensures_bind.mpr (h.mono fun _ _ h => ?_)
  refine Step.ensures_bind.mpr (h.mono fun _ _ h => ?_)
  refine Step.ensures_bind.mpr (h.mono fun _ s₁ h => ?_)
  refine Step.ensures_bind.mpr (Step.ensures_get.mpr ?_)
  refine Step.ensures_bind.mpr ((resolveActions_ensures _ _ s₁).mono ?_)
  rintro actions s₂ ⟨h₂, hactions⟩
  refine Step.ensures_bind.mpr ((resolveActions_ensures _ _ s₂).mono ?_)
  rintro goals s₃ ⟨h₃, hgoals⟩
  have hconstraints := collect_onlyCreates (fun c => groundConstraint_onlyCreates
    (Setting.ofTask p.task) c []) p.task.constraints
  -- what comes after the actions only creates variables and preference names
  refine Step.ensures_bind.mpr ((hconstraints s₃).mono fun constraints s₄ h₄ => ?_)
  refine Step.ensures_bind.mpr ((groundMetric?_onlyCreates _ _ s₄).mono fun metric s₅ h₅ => ?_)
  refine Step.ensures_bind.mpr (Step.ensures_get.mpr (Step.ensures_pure.mpr ?_))
  exact h s₅ _ ⟨((h₂.trans h₃).trans h₄).trans h₅, rfl, rfl, rfl, hactions, hgoals⟩ rfl

/-- What holds when all actions have been found decides about the saturated task. -/
theorem saturate_ensures {p : Lifted.Problem} {s : State} {Q : Task → Prop}
    (h : (explore p).Ensures s fun _ s₁ => ∀ s' t, IsResult p s₁ s' t → Q t) :
    (saturate p).Ensures s fun t _ => Q t :=
  saturate_ensures_levels (h.mono fun _ _ h s' t ht _ => h s' t ht)

theorem isOrderly_empty (task : Lifted.Task) : State.IsOrderly {} task :=
  ⟨⟨fun _ _ ha => (by cases ha), fun _ _ ha => (by cases ha), fun _ ha => (by cases ha), .nil⟩,
    fun _ _ hv => (by cases hv), fun _ _ hv => (by cases hv)⟩

/-- Only preferences may differ, so positions do not. -/
theorem index_eq_of_forall₂ {as bs : List Action} (h : List.Forall₂ SameButPreferences as bs)
    (has : ∀ (i : Nat) a, as[i]? = some a → a.index = i) (i : Nat) (b : Action)
    (hb : bs[i]? = some b) : b.index = i := by
  obtain ⟨hi, rfl⟩ := List.getElem?_eq_some_iff.mp hb
  have hlt : i < as.length := h.length_eq ▸ hi
  have hsame : SameButPreferences as[i] bs[i] := h.get hlt hi
  rw [hsame]
  exact has i as[i] (List.getElem?_eq_getElem hlt)

/-- **Saturated tasks are in order.** -/
theorem saturate_isOrderly (p : Lifted.Problem) :
    (saturate p).Ensures {} fun t _ => t.IsOrderly := by
  refine saturate_ensures ((explore_keepsOrder p {} (isOrderly_empty p.task)).mono ?_)
  intro _ s hs s' t ht
  have hs' := ht.creates.isOrderly hs
  have hvar : ∀ {i : Nat} {v : Variable}, t.vars[i]? = some v → s'.vars.get? i = some v :=
    fun hv => by rwa [ht.vars_eq] at hv
  refine ⟨fun i v hv => hs'.numbered i v (hvar hv), fun i v hv => ?_,
    fun i j v w hv hw hf has => ?_,
    index_eq_of_forall₂ ht.actions fun i a ha => hs.actions i a (Array.getElem?_toList ▸ ha),
    index_eq_of_forall₂ ht.goals fun i a ha => hs.goals i a (Array.getElem?_toList ▸ ha), ?_, ?_⟩
  · rw [ht.task_eq]
    exact hs'.typed i v (hvar hv)
  · refine s'.vars.position_unique (hvar hv) (hvar hw) ?_
    rw [variableKey, variableKey, hf, has]
  · have hnames : t.actions.map (·.name) = s.actions.toList.map (·.name) :=
      map_eq_map_of_forall₂ (ht.actions.imp fun a b hab => by rw [hab])
    rw [hnames]
    exact hs.names
  · rw [ht.preferenceNames_eq]
    exact s'.preferenceNames.nodup_entries

/-! ## Phases of grounding -/

/-- Numbering actions anew changes nothing but their numbers. -/
theorem forall₂_renumber (actions : List Action) :
    List.Forall₂ (fun a b => b = { a with index := b.index }) actions (renumber actions) := by
  refine List.forall₂_iff_get.mpr ⟨by simp [renumber], fun i hi hi' => ?_⟩
  simp [renumber]

/-- The phases of grounding, if it succeeds. -/
theorem ground_eq_ok {p : Lifted.Problem} {keepStatic : Bool} {t : Task}
    (h : ground p keepStatic = .ok t) :
    p.validate = .ok () ∧ ∃ saturated s reduced, (saturate p).run {} = .ok (saturated, s) ∧
      (if keepStatic then reduced = saturated else removeStatics saturated = .ok reduced) ∧
      t = setInitialValues (decideNumericConditions reduced) := by
  obtain ⟨⟨⟩, hvalid, h⟩ := except_bind_eq_ok.mp h
  obtain ⟨_, hsaturated, h⟩ := except_bind_eq_ok.mp h
  obtain ⟨⟨saturated, s⟩, hrun, hresult⟩ := except_bind_eq_ok.mp hsaturated
  cases hresult
  refine ⟨hvalid, saturated, s, ?_⟩
  cases keepStatic with
  | true =>
    cases h
    exact ⟨saturated, hrun, rfl, rfl⟩
  | false =>
    obtain ⟨reduced, hreduced, h⟩ := except_bind_eq_ok.mp h
    cases h
    exact ⟨reduced, hrun, hreduced, rfl⟩

end TemporalPlanning.Grounding
