import TemporalPlanning.FiniteDomain.Cost
import TemporalPlanning.FiniteDomain.PermanentMutex
import TemporalPlanning.Proofs.FiniteDomain.Updates
/-!
Parts of a finite-domain task that updates do not touch.

`Update.Keeps` is about any part of a task. Creating values and variables keeps whatever does not
depend on their tables, and what is derived from a task leaves its goals and constraints alone.
-/
set_option autoImplicit false

namespace TemporalPlanning.FiniteDomain

variable {α β γ : Type} {part : Task → γ}

/-- An update leaves a part of the task as it is. -/
def Update.Keeps (part : Task → γ) (u : Update α) : Prop :=
  ∀ t, u.Ensures t fun _ t' => part t' = part t

namespace Update

theorem keeps_pure (a : α) : Keeps part (pure a) := fun _ => ensures_pure.mpr rfl

/-- What comes second keeps the part whatever task the first update has left. -/
theorem Keeps.bind {u : Update α} {f : α → Update β} (hu : u.Keeps part)
    (hf : ∀ a, (f a).Keeps part) : Keeps part (u >>= f) := fun t =>
  ensures_bind.mpr ((hu t).mono fun a t' h => (hf a t').mono fun _ _ h' => h'.trans h)

theorem Keeps.map {u : Update α} (hu : u.Keeps part) (f : α → β) : Keeps part (f <$> u) :=
  fun t => ensures_map.mpr (hu t)

theorem keeps_get : Keeps part get := fun _ => ensures_get.mpr rfl

theorem keeps_modify {f : Task → Task} (h : ∀ t, part (f t) = part t) : Keeps part (modify f) :=
  fun t => ensures_modify.mpr (h t)

/-- An update that fails is not asked what it leaves. -/
theorem keeps_throw (e : Error) : Keeps part (throw e : Update α) := fun _ => ensures_throw

theorem keeps_lift (x : Except Error α) : Keeps part (liftExcept x) := fun _ =>
  ensures_lift.mpr fun _ _ => rfl

/-- Repetitions keep what each of them keeps. -/
theorem keeps_foldlM {f : β → α → Update β} {l : List α} (h : ∀ b a, (f b a).Keeps part) (b : β) :
    Keeps part (l.foldlM f b) := fun t =>
  ensures_foldlM (I := fun _ t' => part t' = part t)
    (fun b a _ _ ht' => (h b a _).mono fun _ _ ht'' => ht''.trans ht') rfl

theorem keeps_forM {f : α → Update PUnit} {l : List α} (h : ∀ a, (f a).Keeps part) :
    Keeps part (l.forM f) := fun _ =>
  ensures_forM (fun a _ _ ht' => (h a _).mono fun _ _ ht'' => ht''.trans ht') rfl

end Update

open Update

/-- A part of a task does not depend on its tables of values and variables. -/
structure IgnoresTables (part : Task → γ) : Prop where
  values : ∀ t values, part { t with values } = part t
  vars : ∀ t vars, part { t with vars } = part t
  numericVars : ∀ t numericVars, part { t with numericVars } = part t

/-- A part of a task does not depend on the domains of variables. -/
def IgnoresDomains (part : Task → γ) : Prop :=
  ∀ t var f, (∀ x : Variable, (f x).initialValues = x.initialValues) →
    part { t with vars := t.vars.modify var f } = part t

/-- A part of a task depends neither on its values nor on variables without initial values. -/
structure IgnoresCreation (part : Task → γ) : Prop where
  domains : IgnoresDomains part
  values : ∀ t values, part { t with values } = part t
  push : ∀ t v, v.initialValues = [] → part { t with vars := t.vars.push v } = part t

/-- Neither does it depend on numeric variables without initial values. -/
structure IgnoresPlacing (part : Task → γ) : Prop extends IgnoresCreation part where
  pushNumeric : ∀ t v, v.initialValues = [] →
    part { t with numericVars := t.numericVars.push v } = part t

theorem IgnoresTables.domains (h : IgnoresTables part) : IgnoresDomains part :=
  fun t _ _ _ => h.vars t _

/-- What does not depend on the tables at all depends neither on what is created nor on domains. -/
theorem IgnoresTables.placing (h : IgnoresTables part) : IgnoresPlacing part :=
  ⟨⟨h.domains, h.values, fun t _ _ => h.vars t _⟩, fun t _ _ => h.numericVars t _⟩

/-! ## Creation and changes

Each update needs to know only that the part ignores the table that it changes. -/

/-- New variables have no initial values, which is what a part may rely on. -/
theorem createNumericVariable_keeps
    (h : ∀ t v, v.initialValues = [] → part { t with numericVars := t.numericVars.push v } = part t)
    (name : String) : (createNumericVariable name).Keeps part :=
  keeps_get.bind fun _ => (keeps_modify fun t => h t _ rfl).bind fun _ => keeps_pure _

theorem createAction_keeps (h : ∀ t actions, part { t with actions } = part t) (a : Action) :
    (createAction a).Keeps part :=
  keeps_get.bind fun _ => (keeps_modify fun t => h t _).bind fun _ => keeps_pure _

theorem createGoal_keeps (h : ∀ t goals, part { t with goals } = part t) (a : Action) :
    (createGoal a).Keeps part :=
  keeps_get.bind fun _ => (keeps_modify fun t => h t _).bind fun _ => keeps_pure _

/-- Where there is no variable, nothing is changed. -/
theorem updateNumericVariable_keeps
    (h : ∀ t numericVars, part { t with numericVars } = part t) (var : Nat)
    (f : NumericVariable → Except Error NumericVariable) :
    (updateNumericVariable var f).Keeps part := by
  refine keeps_get.bind fun t => ?_
  split
  · exact (keeps_lift _).bind fun _ => keeps_modify fun t => h t _
  · exact keeps_pure _

/-- There may be no room for a further variable; this is an error. -/
theorem createVariable_keeps
    (h : ∀ t v, v.initialValues = [] → part { t with vars := t.vars.push v } = part t)
    (name : String) : (createVariable name).Keeps part := by
  refine keeps_get.bind fun t => ?_
  dsimp only
  split
  · exact (keeps_throw _).bind fun _ => (keeps_modify fun t => h t _ rfl).bind fun _ =>
      keeps_pure _
  · exact (keeps_modify fun t => h t _ rfl).bind fun _ => keeps_pure _

theorem modifyVariable_keeps {var : Nat} {f : Variable → Variable}
    (h : ∀ t, part { t with vars := t.vars.modify var f } = part t) :
    (modifyVariable var f).Keeps part := keeps_modify h

theorem updateVariable_keeps {var : Nat}
    (h : ∀ t f, part { t with vars := t.vars.modify var f } = part t)
    (f : Variable → Except Error Variable) : (updateVariable var f).Keeps part := by
  refine keeps_get.bind fun t => ?_
  split
  · exact (keeps_lift _).bind fun _ => modifyVariable_keeps fun t => h t _
  · exact keeps_pure _

/-- A value of the same name is used again, and then nothing is created. -/
theorem createValue_keeps (h : ∀ t values, part { t with values } = part t) (name : String)
    (function : Option FunctionId) : (createValue name function).Keeps part := by
  refine keeps_get.bind fun t => ?_
  split
  · exact keeps_pure _
  · refine keeps_get.bind fun t' => ?_
    dsimp only
    split
    · exact (keeps_throw _).bind fun _ => (keeps_modify fun t => h t _).bind fun _ => keeps_pure _
    · exact (keeps_modify fun t => h t _).bind fun _ => keeps_pure _

/-- A change of a domain is not noticed where domains are ignored. -/
theorem IgnoresDomains.keeps (h : IgnoresDomains part) {var : Nat} {f : Variable → Variable}
    (hf : ∀ x, (f x).initialValues = x.initialValues) : (modifyVariable var f).Keeps part :=
  modifyVariable_keeps fun t => h t var f hf

/-! ## Indexes and mutexes -/

/-- Actions without conditions are listed while the index is built. -/
theorem computeRequirers_keeps
    (hunconditioned : ∀ t unconditioned, part { t with unconditioned } = part t)
    (hrequirers : ∀ t requirers, part { t with requirers } = part t) :
    computeRequirers.Keeps part := by
  refine (keeps_modify fun t => hunconditioned t _).bind fun _ => keeps_get.bind fun t => ?_
  refine Keeps.bind (keeps_foldlM (fun index a => ?_) _) fun _ => keeps_modify fun t =>
    hrequirers t _
  unfold indexConditions
  -- an action without conditions is listed, another one indexed
  split
  · exact (keeps_modify fun t => hunconditioned t _).bind fun _ => keeps_pure _
  · exact keeps_lift _

theorem computeProducers_keeps (h : ∀ t producers, part { t with producers } = part t) :
    computeProducers.Keeps part :=
  keeps_get.bind fun _ => (keeps_lift _).bind fun _ => keeps_modify fun t => h t _

/-- The pairs of facts are stored before pairs of actions are looked for. -/
theorem computePermanentMutex_keeps
    (hpairs : ∀ t permanentMutex, part { t with permanentMutex } = part t)
    (hactions : ∀ t permanentMutexActions, part { t with permanentMutexActions } = part t) :
    computePermanentMutex.Keeps part := by
  refine keeps_get.bind fun _ => (keeps_lift _).bind fun _ => ?_
  refine (keeps_modify fun t => hpairs t _).bind fun _ => keeps_get.bind fun t => ?_
  dsimp only
  split
  · exact (keeps_pure _).bind fun _ => keeps_modify fun t => hactions t _
  · exact (keeps_lift _).bind fun _ => keeps_modify fun t => hactions t _

/-- Costs are entered into actions and goals alike. -/
theorem computeCosts_keeps (hinitial : ∀ t, part t.withInitialState = part t)
    (htime : ∀ t metricDependsOnTime, part { t with metricDependsOnTime } = part t)
    (hcosts : ∀ t actions goals hasVariableCosts,
      part { t with actions, goals, hasVariableCosts } = part t) (keepStatic : Bool) :
    (computeCosts keepStatic).Keeps part := by
  refine (keeps_modify fun t => ?_).bind fun _ => (keeps_modify fun t => htime t _).bind fun _ =>
    keeps_get.bind fun t => (keeps_lift _).bind fun costs => keeps_modify fun t => hcosts t _ _ _
  split
  · rfl
  · exact hinitial t

/-! ## Goals and constraints -/

/-- The goals and constraints of a task. -/
def Task.aims (t : Task) : Array Action × List Constraint := (t.goals, t.constraints)

theorem aims_ignoresTables : IgnoresTables Task.aims :=
  ⟨fun _ _ => rfl, fun _ _ => rfl, fun _ _ => rfl⟩

/-- Neither goals nor constraints are touched when a mutex pair is entered. -/
theorem addMutex_keepsAims (c d : FactCode) : (addMutex c d).Keeps Task.aims :=
  keeps_modify fun _ => rfl

/-- Of the goals only the costs change. -/
theorem computeCosts_aims (keepStatic : Bool) (t : Task) :
    (computeCosts keepStatic).Ensures t fun _ t' =>
      t'.goals = t.goals.map (fun goal => { goal with cost := goalCost }) ∧
        t'.constraints = t.constraints := by
  refine ensures_bind.mpr (ensures_modify.mpr (ensures_bind.mpr (ensures_modify.mpr ?_)))
  refine ensures_bind.mpr (ensures_get.mpr (ensures_bind.mpr (ensures_lift.mpr fun costs _ => ?_)))
  refine ensures_modify.mpr ?_
  -- the initial state may have been computed before
  dsimp only
  split <;> exact ⟨rfl, rfl⟩

end TemporalPlanning.FiniteDomain
