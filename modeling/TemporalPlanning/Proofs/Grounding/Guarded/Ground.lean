import TemporalPlanning.Proofs.Grounding.Guarded.Elimination
import TemporalPlanning.Proofs.Grounding.Guarded.Saturation
import TemporalPlanning.Proofs.Grounding.Guarded.Statics
/-!
Validation makes grounding safe.

What grounding reads in tables of a valid problem is there: guarded grounding ends as grounding
does, phase by phase. The states that saturation goes through are ready, the task that it leads to
is scoped, and removing static variables only needs the latter. What can still go wrong is what
validation does not look at: durations in goals, variables of the metric and divisions by zero.
Unbound parameters are not among the errors that are foreseen.
-/
set_option autoImplicit false

namespace TemporalPlanning.Grounding

open Grounded

/-! ## What can go wrong -/

/-- The errors that grounding a valid problem may report. -/
inductive IsForeseen (p : Lifted.Problem) (keepStatic : Bool) : Error → Prop where
  /-- A preference of an operator compares the duration or the elapsed time. -/
  | durationInPreference (op : Lifted.Operator) (hop : op ∈ p.operators)
    (q : Lifted.Preference) (hq : q ∈ op.preferences) (h : q.goal.ReadsDuration) :
    IsForeseen p keepStatic (.invalidTask .durationInGoal)
  /-- A goal of a constraint does. -/
  | durationInConstraint (c : Lifted.Constraint) (hc : c ∈ p.task.constraints)
    (g : Lifted.Goal) (hg : g ∈ c.goals) (h : g.ReadsDuration) :
    IsForeseen p keepStatic (.invalidTask .durationInGoal)
  /-- A variable that the metric reads is not found. -/
  | unknownMeasure (m : Lifted.Metric) (hm : p.task.metric = some m) (f : FunctionId)
    (as : List ObjectId) (h : .fluent f as ∈ m.expression.atoms) :
    IsForeseen p keepStatic (.unknownVariable (p.task.variableName f as))
  /-- A constant expression divides by zero when static variables are removed. -/
  | divisionByZero (hkeep : keepStatic = false) (e : Expression Quantity) (text : String)
    (h : evaluate none e = .error (.divisionByZero text)) :
    IsForeseen p keepStatic (.divisionByZero text)

namespace Guarded

/-! ## Definitions -/

/-- Grounds everything that is reachable. -/
def saturate (problem : Lifted.Problem) : Step Task := do
  let task := problem.task
  let hierarchy ← (hierarchy task : Guarded _)
  let setting : Setting := ⟨task, hierarchy⟩
  let schemas ← (schemasOf setting problem.operators : Guarded _)
  start task
  groundUnconditional setting schemas
  runLevels setting schemas (valueBound task + 1)
  let state ← get
  let actions ← state.actions.toList.mapM (resolveAction setting)
  let goals ← state.goals.toList.mapM (resolveAction setting)
  let constraints ← collect (groundConstraint setting []) task.constraints
  let metric ← report (task.metric.mapM (groundMetric task))
  let state ← get
  return {
    task
    vars := state.vars.entries
    actions
    goals
    preferenceNames := state.preferenceNames.entries.toList
    constraints
    metric
    stats := ⟨state.levels.toList, 0, 0⟩ }

/-- Grounds a problem. Unless `keepStatic`, variables that no action changes are removed. -/
def ground (problem : Lifted.Problem) (keepStatic : Bool) : Guarded Task := do
  unguarded problem.validate
  let saturated ← (saturate problem).run' {}
  let reduced ← if keepStatic then pure saturated else removeStatics saturated
  return setInitialValues (decideNumericConditions reduced)

/-! ## Preferences and the metric -/

section Leaves

variable {task : Lifted.Task} {E : Error → Prop}

/-- Resolving the preferences of actions leaves the state as it is. -/
theorem guards_resolveActions (htypes : task.HasClosedTypes) {s : State} {as : List Action}
    (hscoped : ∀ a ∈ as, a.Scoped (s.scope task fun _ => True))
    (hclosed : ∀ a ∈ as, ∀ q ∈ a.preferences, q.goal.IsClosed task 0) :
    Guards E s (as.mapM (resolveAction (Setting.ofTask task)))
      (as.mapM (Grounding.resolveAction (Setting.ofTask task))) fun _ s' => s' = s := by
  refine (guards_mapM (I := fun s' => s' = s) (P := fun _ => True) (fun a ha s' hs' => ?_)
    rfl).mono fun _ _ h => h.1
  subst hs'
  exact (guards_resolveAction htypes (hclosed a ha) fun q hq =>
    ((hscoped a ha).preferences q hq).1).mono fun _ _ h => ⟨h, trivial⟩

/-- A leaf of the metric only asks for its variable. -/
theorem groundMeasure_safe {m : Lifted.Measure}
    (hE : ∀ f as, m = .fluent f as → E (.unknownVariable (task.variableName f as))) :
    (groundMeasure task m).Safe E (·.HasSortedVariables task) fun _ => True := by
  cases m with
  | number x => exact Step.safe_pure trivial
  | totalTime => exact Step.safe_pure trivial
  | isViolated name => exact (preferenceIndex_safe name).bind fun _ _ => Step.safe_pure trivial
  | fluent f as =>
    refine Step.safe_get.bind fun s _ => ?_
    split
    · exact Step.safe_pure trivial
    · exact Step.safe_throw (hE f as rfl)

theorem groundMetric?_safe {metric : Option Lifted.Metric}
    (hE : ∀ m, metric = some m → ∀ f as, .fluent f as ∈ m.expression.atoms →
      E (.unknownVariable (task.variableName f as))) :
    Step.Safe E (·.HasSortedVariables task) (metric.mapM (groundMetric task)) fun _ => True := by
  cases metric with
  | none => exact Step.safe_pure trivial
  | some m =>
    have hmetric : (groundMetric task m).Safe E (·.HasSortedVariables task) fun _ => True := by
      refine (Step.safe_mapM_expression (Q := fun _ => True) fun leaf hleaf =>
        groundMeasure_safe ?_).bind fun _ _ => Step.safe_pure trivial
      rintro f as rfl
      exact hE m rfl f as hleaf
    exact hmetric.bind fun _ _ => Step.safe_pure trivial

end Leaves

/-! ## Valid problems -/

section Problems

variable {p : Lifted.Problem} (hvalid : p.validate = .ok ()) (keepStatic : Bool)
include hvalid

/-- Saturation of a valid problem reads nothing that is not there. -/
theorem guards_saturate :
    Guards (IsForeseen p keepStatic) {} (saturate p) (Grounding.saturate p) fun _ _ => True := by
  have htypes := hasClosedTypes_of_valid hvalid
  have hpreferences : ∀ op ∈ p.operators, ∀ q ∈ op.preferences, q.goal.ReadsDuration →
      IsForeseen p keepStatic (.invalidTask .durationInGoal) := fun op hop q hq h =>
    .durationInPreference op hop q hq h
  refine guards_bind_of_eq_ok (hierarchy_eq_ok htypes) ?_
  refine guards_bind_of_eq_ok
    (schemasOf_eq_ok htypes fun op hop => isMatchable_of_valid hvalid hop) ?_
  -- exploration keeps the state ready
  refine (guards_start hvalid).bind fun _ s₁ h₁ => ?_
  refine (guards_groundUnconditional hvalid hpreferences h₁).bind fun _ s₂ h₂ => ?_
  refine (guards_runLevels hvalid hpreferences _ h₂).bind fun _ s h => ?_
  refine guards_get_bind ?_
  refine (guards_resolveActions htypes h.inScope.actions h.actions).bind ?_
  rintro actions _ rfl
  refine (guards_resolveActions htypes h.inScope.goals h.goals).bind ?_
  rintro goals _ rfl
  -- constraints may create variables, but from here on only their types matter
  refine Guards.bind (Q := fun _ s' => s'.HasSortedVariables p.task)
    (guards_collect (fun c hc s' hs' => guards_groundConstraint htypes c [] s'
      (fun o ho => by cases ho) ((checks_of_valid hvalid).2.2.1 c hc)
      (fun g hg => .durationInConstraint c hc g hg) hs') h.vars) fun constraints s₄ h₄ => ?_
  refine (guards_safe (groundMetric?_safe fun m hm => .unknownMeasure m hm) h₄).bind
    fun metric s₅ _ => ?_
  exact guards_get_bind (guards_pure trivial)

theorem ground_mirrors :
    Mirrors (IsForeseen p keepStatic) (ground p keepStatic) (Grounding.ground p keepStatic) := by
  rw [ground, Grounding.ground, hvalid]
  refine mirrors_bind_of_eq_ok rfl ?_
  refine Mirrors.bind (f := fun saturated => _) ((guards_saturate hvalid keepStatic).mirrors.bind
    fun result _ => .ok result.1) fun saturated hsaturated => ?_
  obtain ⟨⟨_, s⟩, hrun, hresult⟩ := except_bind_eq_ok.mp hsaturated
  cases hresult
  cases keepStatic with
  | true => exact .ok _
  | false =>
    have hscoped := saturate_isScoped (K := fun _ => True) hvalid (fun _ _ => trivial)
      ⟨fun _ _ _ _ _ _ => trivial, fun _ _ _ _ => trivial⟩ _ s hrun
    refine (removeStatics_mirrors (fun e error h => ?_) hscoped).bind fun _ _ => .ok _
    obtain ⟨text, rfl⟩ := exists_of_evaluate_eq_error h
    exact .divisionByZero rfl e text h

end Problems

end Guarded

/-- **Validation makes grounding safe.** Whether static variables are kept or not, checking all
positions that grounding of a valid problem reads changes nothing: either there is a task, or one of
the foreseen errors is reported. -/
theorem ground_isSafe {p : Lifted.Problem} (hvalid : p.validate = .ok ()) (keepStatic : Bool) :
    (∃ t, ground p keepStatic = .ok t ∧ Guarded.ground p keepStatic = .ok t) ∨
      ∃ e, IsForeseen p keepStatic e ∧ ground p keepStatic = .error e ∧
        Guarded.ground p keepStatic = .error (.reported e) := by
  have hmirrors := Guarded.ground_mirrors hvalid keepStatic
  generalize hx : ground p keepStatic = x at hmirrors
  generalize hc : Guarded.ground p keepStatic = c at hmirrors
  cases hmirrors with
  | ok t => exact Or.inl ⟨t, rfl, rfl⟩
  | error e he => exact Or.inr ⟨e, he, rfl, rfl⟩

open Lifted in
/-- Lamps `a` and `b` are on and can be switched off, preferably while all others are on. In the end
no lamp should be on. What is switched off has a type, and the metric reads a measure. -/
def lamps (type : TypeId) (measure : Lifted.Measure) : Problem where
  task := { Task.ofPropositions [] [] with
    types := #[⟨"#boolean", []⟩, ⟨"number", []⟩, ⟨"lamp", []⟩]
    objects := #[⟨"#false", [TypeId.boolean]⟩, ⟨"#true", [TypeId.boolean]⟩, ⟨"a", [⟨2⟩]⟩,
      ⟨"b", [⟨2⟩]⟩]
    functions := #[⟨"on", [⟨"?x", [⟨2⟩]⟩], [TypeId.boolean]⟩, ⟨"power", [], [TypeId.number]⟩]
    init := [⟨⟨0⟩, [⟨2⟩], .object .truth, 0.0⟩, ⟨⟨0⟩, [⟨3⟩], .object .truth, 0.0⟩]
    constraints := [.universal [⟨"?x", [⟨2⟩]⟩]
      (.temporal .atEnd [] [.negLiteral ⟨⟨0⟩, [.param 0]⟩])]
    metric := some ⟨.minimize, .atom measure⟩ }
  operators := [
    { Operator.ofHappenings "switch-off" ⟨[⟨⟨⟨0⟩, [.param 0]⟩, .object .truth⟩], [],
        [⟨⟨⟨0⟩, [.param 0]⟩, .object .falsity⟩], []⟩ .empty with
      parameters := [⟨"?x", [type]⟩]
      preferences := [⟨"first", .universal [⟨"?y", [⟨2⟩]⟩]
        (.or [.equality (.param 0) (.param 1), .literal ⟨⟨0⟩, [.param 1]⟩])⟩] }]

/-- Lamps are grounded, unless the metric reads the power, which no fact is about. If their type is
not in the table, which validation finds out, checking positions makes a difference. -/
theorem lamps_areSafe :
    (∃ t, ground (lamps ⟨2⟩ .totalTime) false = .ok t ∧
      Guarded.ground (lamps ⟨2⟩ .totalTime) false = .ok t ∧ t.actions.length = 2) ∧
    Guarded.ground (lamps ⟨2⟩ (.fluent ⟨1⟩ [])) true =
      .error (.reported (.unknownVariable "(power)")) ∧
    (Guarded.saturate (lamps ⟨3⟩ .totalTime)).run {} = .error (.outOfBounds .types 3) := by
  have hrun : ∃ t ∈ (ground (lamps ⟨2⟩ .totalTime) false).toOption, t.actions.length = 2 := by
    decide +kernel
  have hfails : (match ground (lamps ⟨2⟩ (.fluent ⟨1⟩ [])) true with
      | .ok _ => none
      | .error e => some e) = some (.unknownVariable "(power)") := by
    decide +kernel
  refine ⟨?_, ?_, ?_⟩
  · obtain ⟨t, ht, hlength⟩ := hrun
    have hground := eq_ok_of_mem_toOption ht
    rcases ground_isSafe (p := lamps ⟨2⟩ .totalTime) (by decide +kernel) false with
      ⟨t', ht', hguarded⟩ | ⟨e, -, herror, -⟩
    · rw [hground] at ht'
      cases ht'
      exact ⟨t, hground, hguarded, hlength⟩
    · rw [hground] at herror
      cases herror
  · rcases ground_isSafe (p := lamps ⟨2⟩ (.fluent ⟨1⟩ [])) (by decide +kernel) true with
      ⟨t, ht, -⟩ | ⟨e, -, he, hguarded⟩
    · rw [ht] at hfails
      cases hfails
    · rw [he] at hfails
      cases hfails
      exact hguarded
  · rfl

end TemporalPlanning.Grounding
