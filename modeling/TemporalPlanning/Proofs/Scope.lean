import TemporalPlanning.Proofs.Truth
/-!
What grounded constructs refer to.

A scope says which variables may be referred to, which of them goals may compare with objects, which
objects may be referred to as values, which functions of quantified parameters may still be
compared with objects, and which positions of preference names may be used. A construct is `Scoped`
if it stays within a scope. Larger scopes allow more, and the variables that a scoped action refers
to are variables of the scope.
-/
set_option autoImplicit false

namespace TemporalPlanning.Grounded

/-- What may be referred to. -/
structure Scope where
  var : VarId → Prop
  /-- Variables that goals may compare with objects. -/
  fluent : VarId → Prop
  object : ObjectId → Prop
  /-- Functions of quantified parameters that goals may compare with objects. -/
  function : FunctionId → Prop
  /-- Positions of preference names. -/
  preference : Nat → Prop

/-- A scope allows what another one does. -/
structure Scope.Le (S S' : Scope) : Prop where
  var : ∀ v, S.var v → S'.var v
  fluent : ∀ v, S.fluent v → S'.fluent v
  object : ∀ o, S.object o → S'.object o
  function : ∀ f, S.function f → S'.function f
  preference : ∀ i, S.preference i → S'.preference i

/-! ## Scoped constructs -/

def Quantity.Scoped (S : Scope) : Quantity → Prop
  | .var v => S.var v
  | .number _ | .object _ | .duration | .elapsed => True

/-- What depends on quantified parameters refers to no variable yet. -/
def PartialQuantity.Scoped (S : Scope) : PartialQuantity → Prop
  | .var v => S.var v
  | .number _ | .ungrounded .. | .term _ => True

def Condition.Scoped (S : Scope) (c : Condition) : Prop := S.var c.var ∧ S.object c.value

def NumericCondition.Scoped (S : Scope) (c : NumericCondition) : Prop :=
  ∀ e ∈ c.terms, ∀ q ∈ e.atoms, q.Scoped S

def NumericEffect.Scoped (S : Scope) (e : NumericEffect) : Prop :=
  S.var e.var ∧ ∀ q ∈ e.expression.atoms, q.Scoped S

def DurationBound.Scoped (S : Scope) (d : DurationBound) : Prop :=
  ∀ q ∈ d.expression.atoms, q.Scoped S

mutual

/-- A goal may compare a variable with an object only if the scope has it among its fluents; in a
numeric comparison any variable of the scope may stand. -/
def Goal.Scoped (S : Scope) : Goal → Prop
  | .fluent v o _ => S.var v ∧ S.fluent v ∧ S.object o
  | .ungroundedFluent f _ value _ => S.function f ∧ ∀ o, value = .object o → S.object o
  | .and goals | .or goals => Goal.ScopedAll S goals
  | .not goal | .timed _ goal | .existential _ goal | .universal _ goal => goal.Scoped S
  | .imply premise conclusion => premise.Scoped S ∧ conclusion.Scoped S
  | .compare _ terms => ∀ e ∈ terms, ∀ q ∈ e.atoms, q.Scoped S
  | .equality .. | .constant _ => True

def Goal.ScopedAll (S : Scope) : List Goal → Prop
  | [] => True
  | goal :: rest => goal.Scoped S ∧ Goal.ScopedAll S rest

end

mutual

def Constraint.Scoped (S : Scope) : Constraint → Prop
  | .and constraints => Constraint.ScopedAll S constraints
  | .preference i constraint => S.preference i ∧ constraint.Scoped S
  | .goalPreference i goal => S.preference i ∧ goal.Scoped S
  | .temporal _ _ goals => ∀ goal ∈ goals, goal.Scoped S

def Constraint.ScopedAll (S : Scope) : List Constraint → Prop
  | [] => True
  | constraint :: rest => constraint.Scoped S ∧ Constraint.ScopedAll S rest

end

def Preference.Scoped (S : Scope) (p : Preference) : Prop :=
  S.preference p.nameIndex ∧ p.goal.Scoped S

/-- Everything that an action consists of is scoped. -/
structure Action.Scoped (S : Scope) (a : Action) : Prop where
  durations : ∀ d ∈ a.durations, d.Scoped S
  conditions : ∀ c ∈ a.conditions, c.Scoped S
  effects : ∀ e ∈ a.effects, e.Scoped S
  numericConditions : ∀ c ∈ a.numericConditions, c.Scoped S
  numericEffects : ∀ e ∈ a.numericEffects, e.Scoped S
  preferences : ∀ p ∈ a.preferences, p.Scoped S

def Measure.Scoped (S : Scope) : Measure → Prop
  | .var v => S.var v
  | .isViolated i => S.preference i
  | .number _ | .totalTime => True

def Metric.Scoped (S : Scope) (m : Metric) : Prop := ∀ q ∈ m.expression.atoms, q.Scoped S

/-- Lists of goals have a predicate of their own only for the sake of the recursion. -/
theorem Goal.scopedAll_iff {S : Scope} {goals : List Goal} :
    Goal.ScopedAll S goals ↔ ∀ goal ∈ goals, goal.Scoped S := by
  induction goals with
  | nil => simp [Goal.ScopedAll]
  | cons goal goals ih => rw [Goal.ScopedAll, ih, List.forall_mem_cons]

theorem Constraint.scopedAll_iff {S : Scope} {constraints : List Constraint} :
    Constraint.ScopedAll S constraints ↔ ∀ constraint ∈ constraints, constraint.Scoped S := by
  induction constraints with
  | nil => simp [Constraint.ScopedAll]
  | cons constraint constraints ih => rw [Constraint.ScopedAll, ih, List.forall_mem_cons]

/-! ## Larger scopes

What is scoped stays so if the scope grows, which it does whenever grounding creates a variable or a
preference name. This is shown construct by construct, from the leaves up. -/

section Mono

variable {S S' : Scope}

theorem Quantity.Scoped.mono (hle : S.Le S') {q : Quantity} (h : q.Scoped S) : q.Scoped S' := by
  cases q with
  | var v => exact hle.var v h
  | _ => trivial

theorem PartialQuantity.Scoped.mono (hle : S.Le S') {q : PartialQuantity} (h : q.Scoped S) :
    q.Scoped S' := by
  cases q with
  | var v => exact hle.var v h
  | _ => trivial

theorem Condition.Scoped.mono (hle : S.Le S') {c : Condition} (h : c.Scoped S) : c.Scoped S' :=
  ⟨hle.var _ h.1, hle.object _ h.2⟩

theorem NumericCondition.Scoped.mono (hle : S.Le S') {c : NumericCondition} (h : c.Scoped S) :
    c.Scoped S' :=
  fun e he q hq => (h e he q hq).mono hle

theorem NumericEffect.Scoped.mono (hle : S.Le S') {e : NumericEffect} (h : e.Scoped S) :
    e.Scoped S' :=
  ⟨hle.var _ h.1, fun q hq => (h.2 q hq).mono hle⟩

theorem DurationBound.Scoped.mono (hle : S.Le S') {d : DurationBound} (h : d.Scoped S) :
    d.Scoped S' :=
  fun q hq => (h q hq).mono hle

mutual

/-- By recursion over the goal: the subgoals of a scoped goal are scoped, and the variables, objects
and functions at its leaves are allowed by the larger scope. -/
theorem Goal.Scoped.mono (hle : S.Le S') : ∀ {g : Goal}, g.Scoped S → g.Scoped S'
  | .fluent v o _, h => by
    rw [Goal.Scoped] at h ⊢
    exact ⟨hle.var v h.1, hle.fluent v h.2.1, hle.object o h.2.2⟩
  | .ungroundedFluent f _ _ _, h => by
    rw [Goal.Scoped] at h ⊢
    exact ⟨hle.function f h.1, fun o ho => hle.object o (h.2 o ho)⟩
  | .and _, h | .or _, h => by
    rw [Goal.Scoped] at h ⊢
    exact Goal.scopedAll_mono hle h
  | .not _, h | .timed _ _, h | .existential _ _, h | .universal _ _, h => by
    rw [Goal.Scoped] at h ⊢
    exact Goal.Scoped.mono hle h
  | .imply _ _, h => by
    rw [Goal.Scoped] at h ⊢
    exact ⟨Goal.Scoped.mono hle h.1, Goal.Scoped.mono hle h.2⟩
  | .compare _ _, h => by
    rw [Goal.Scoped] at h ⊢
    exact fun e he q hq => (h e he q hq).mono hle
  | .equality _ _ _, _ | .constant _, _ => by
    rw [Goal.Scoped]
    trivial

theorem Goal.scopedAll_mono (hle : S.Le S') :
    ∀ {gs : List Goal}, Goal.ScopedAll S gs → Goal.ScopedAll S' gs
  | [], _ => trivial
  | _ :: _, h => ⟨Goal.Scoped.mono hle h.1, Goal.scopedAll_mono hle h.2⟩

end

mutual

/-- Likewise for constraints, whose leaves are goals and names of preferences. -/
theorem Constraint.Scoped.mono (hle : S.Le S') : ∀ {c : Constraint}, c.Scoped S → c.Scoped S'
  | .and _, h => by
    rw [Constraint.Scoped] at h ⊢
    exact Constraint.scopedAll_mono hle h
  | .preference i _, h => by
    rw [Constraint.Scoped] at h ⊢
    exact ⟨hle.preference i h.1, Constraint.Scoped.mono hle h.2⟩
  | .goalPreference i _, h => by
    rw [Constraint.Scoped] at h ⊢
    exact ⟨hle.preference i h.1, h.2.mono hle⟩
  | .temporal _ _ _, h => by
    rw [Constraint.Scoped] at h ⊢
    exact fun g hg => (h g hg).mono hle

theorem Constraint.scopedAll_mono (hle : S.Le S') :
    ∀ {cs : List Constraint}, Constraint.ScopedAll S cs → Constraint.ScopedAll S' cs
  | [], _ => trivial
  | _ :: _, h => ⟨Constraint.Scoped.mono hle h.1, Constraint.scopedAll_mono hle h.2⟩

end

theorem Preference.Scoped.mono (hle : S.Le S') {p : Preference} (h : p.Scoped S) : p.Scoped S' :=
  ⟨hle.preference _ h.1, h.2.mono hle⟩

/-- **Actions** stay scoped part by part. -/
theorem Action.Scoped.mono (hle : S.Le S') {a : Action} (h : a.Scoped S) : a.Scoped S' where
  durations d hd := (h.durations d hd).mono hle
  conditions c hc := (h.conditions c hc).mono hle
  effects e he := (h.effects e he).mono hle
  numericConditions c hc := (h.numericConditions c hc).mono hle
  numericEffects e he := (h.numericEffects e he).mono hle
  preferences p hp := (h.preferences p hp).mono hle

theorem Measure.Scoped.mono (hle : S.Le S') {m : Measure} (h : m.Scoped S) : m.Scoped S' := by
  cases m with
  | var v => exact hle.var v h
  | isViolated i => exact hle.preference i h
  | _ => trivial

theorem Metric.Scoped.mono (hle : S.Le S') {m : Metric} (h : m.Scoped S) : m.Scoped S' :=
  fun q hq => (h q hq).mono hle

end Mono

/-! ## Variables of scoped constructs -/

section Variables

variable {S : Scope}

/-- The variables of an expression are those of its atoms. -/
theorem mem_varsOf {e : Expression Quantity} {v : VarId} : v ∈ varsOf e ↔ .var v ∈ e.atoms := by
  unfold varsOf
  rw [List.mem_filterMap]
  constructor
  · rintro ⟨q, hq, hv⟩
    cases q <;> cases hv
    exact hq
  · exact fun h => ⟨_, h, rfl⟩

/-- So are those of an expression whose terms have not all been replaced by objects. -/
theorem mem_partialVarsOf {e : Expression PartialQuantity} {v : VarId} :
    v ∈ partialVarsOf e ↔ .var v ∈ e.atoms := by
  unfold partialVarsOf
  rw [List.mem_filterMap]
  constructor
  · rintro ⟨q, hq, hv⟩
    cases q <;> cases hv
    exact hq
  · exact fun h => ⟨_, h, rfl⟩

mutual

/-- Literals and comparisons are where a goal refers to variables; goals that are still to be ground
and equations of terms refer to none. -/
theorem Goal.Scoped.variables : ∀ {g : Goal}, g.Scoped S → ∀ v ∈ g.variables, S.var v
  | .fluent v o _, h, w, hw => by
    rw [Goal.variables, List.mem_singleton] at hw
    rw [hw]
    rw [Goal.Scoped] at h
    exact h.1
  | .and _, h, w, hw | .or _, h, w, hw => by
    rw [Goal.variables] at hw
    rw [Goal.Scoped] at h
    exact Goal.ScopedAll.variables h w hw
  | .not _, h, w, hw | .timed _ _, h, w, hw | .existential _ _, h, w, hw
  | .universal _ _, h, w, hw => by
    rw [Goal.variables] at hw
    rw [Goal.Scoped] at h
    exact Goal.Scoped.variables h w hw
  | .imply _ _, h, w, hw => by
    rw [Goal.variables] at hw
    rw [Goal.Scoped] at h
    rcases List.mem_append.mp hw with hw | hw
    · exact Goal.Scoped.variables h.1 w hw
    · exact Goal.Scoped.variables h.2 w hw
  | .compare _ _, h, w, hw => by
    rw [Goal.variables] at hw
    rw [Goal.Scoped] at h
    obtain ⟨e, he, hw⟩ := List.mem_flatMap.mp hw
    exact h e he _ (mem_partialVarsOf.mp hw)
  | .ungroundedFluent _ _ _ _, _, w, hw | .equality _ _ _, _, w, hw | .constant _, _, w, hw => by
    rw [Goal.variables] at hw
    cases hw

theorem Goal.ScopedAll.variables :
    ∀ {gs : List Goal}, Goal.ScopedAll S gs → ∀ v ∈ Goal.variablesOfList gs, S.var v
  | [], _, w, hw => by
    rw [Goal.variablesOfList] at hw
    cases hw
  | _ :: _, h, w, hw => by
    rw [Goal.variablesOfList] at hw
    rcases List.mem_append.mp hw with hw | hw
    · exact Goal.Scoped.variables h.1 w hw
    · exact Goal.ScopedAll.variables h.2 w hw

end

/-- **The variables of a scoped action** are variables of the scope, wherever it refers to them. -/
theorem Action.Scoped.variables {a : Action} (h : a.Scoped S) : ∀ v ∈ a.variables, S.var v := by
  intro v hv
  simp only [Action.variables, List.mem_append, List.mem_flatMap, List.mem_map,
    List.mem_cons] at hv
  -- durations, conditions, effects, numeric conditions, numeric effects and preferences in turn
  rcases hv with (((⟨d, hd, hv⟩ | ⟨c, hc | hc, rfl⟩) | ⟨c, hc, e, he, hv⟩) |
    ⟨e, he, rfl | hv⟩) | ⟨p, hp, hv⟩
  · exact h.durations d hd _ (mem_varsOf.mp hv)
  · exact (h.conditions c hc).1
  · exact (h.effects c hc).1
  · exact h.numericConditions c hc e he _ (mem_varsOf.mp hv)
  · exact (h.numericEffects e he).1
  · exact (h.numericEffects e he).2 _ (mem_varsOf.mp hv)
  · exact (h.preferences p hp).2.variables v hv

end Variables

end TemporalPlanning.Grounded
