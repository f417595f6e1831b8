import TemporalPlanning.Proofs.Grounding.Guarded.Instances
import TemporalPlanning.Proofs.Grounding.Guarded.Matching
/-!
Guarded saturation.

Looking for actions reads the variables that effects change and the functions that values are kept
under, besides what matching reads. A state is ready if its variables and values are sorted, its
actions are scoped and the goals of their preferences are closed. A ready state stays ready whatever
instance of a valid operator is looked at, and then all of it is there.
-/
set_option autoImplicit false

namespace TemporalPlanning.Grounding

open Grounded

namespace Guarded

/-! ## Definitions -/

section Definitions

variable (task : Lifted.Task)

/-- Records that a variable reaches a value at a level. Values are kept in a table by function. -/
def reach (level : Nat) (c : Condition) : Step Unit := do
  let state ← get
  let v ← (read .variables state.vars.entries c.var.index : Guarded _)
  let _ ← (read .functions task.functions v.function.index : Guarded _)
  report (Grounding.reach level c)

/-- Looks at an instance of an operator. -/
def groundInstance (arguments : List ObjectId) (s : Schema) : Step Unit := do
  let name := task.applied s.operator.name arguments
  if ← report (claim s name arguments) then
    if ← (unguarded (identitiesHold arguments s.operator.identities) : Guarded _) then
      match ← report (groundOperator task arguments s name).run with
      | none => return
      | some action => do
        let state ← get
        action.effects.forM (reach task (state.level + 1))
        report (addAction action)

/-- Reaches the objects that the facts have as values. -/
def reachInitialValues : Step Unit :=
  task.init.forM fun fact =>
    match fact.value with
    | .object object => do
      let var ← report (variableOf task fact.function fact.arguments)
      reach task 0 ⟨var, object⟩
    | .number _ => return

/-- Makes the values of the initial state the values of the first level. -/
def start : Step Unit := do
  report (createInitialVariables task)
  reachInitialValues task
  report (modify fun state => { state with levelEnd := state.values.size })

variable (setting : Setting) (schemas : List Schema)

/-- Looks at all instances of the operators that have no conditions to match. -/
def groundUnconditional : Step Unit :=
  (schemas.filter fun s => s.preconditions.isEmpty).forM fun s => do
    let instances ← (completions s.candidates 0 s.unbound : Guarded _)
    instances.forM fun arguments => groundInstance setting.task arguments s

/-- Looks at all instances that the value at a position triggers. -/
def groundTriggered (values : List ReachedValue) (start : Nat) (trigger : ReachedValue × Nat) :
    Step Unit :=
  schemas.forM fun s => do
    let allowed := allowedFrom values start trigger.2
    let instances ← (instancesOf setting s trigger.1 allowed : Guarded _)
    instances.forM fun arguments => groundInstance setting.task arguments s

/-- Looks at all instances that the values of the current level trigger. -/
def runLevel : Step Unit := do
  let state ← get
  let values := state.values.toList.take state.levelEnd
  ((values.drop state.levelStart).zipIdx state.levelStart).forM
    (groundTriggered setting schemas values state.levelStart)
  report finishLevel

/-- Runs levels until every value has triggered its matches. -/
def runLevels : Nat → Step Unit
  | 0 => return
  | fuel + 1 => do
    let state ← get
    if state.levelStart < state.values.size then
      runLevel setting schemas
      runLevels fuel

end Definitions

end Guarded

/-! ## Ready states -/

/-- Variables and values are sorted, actions and goals are scoped, and what their preferences ask
for is closed. -/
structure State.IsReady (task : Lifted.Task) (s : State) : Prop where
  inScope : s.IsScoped task fun _ => True
  vars : s.HasSortedVariables task
  values : ∀ v ∈ s.values.toList, IsSorted task v
  actions : ∀ a ∈ s.actions.toList, ∀ q ∈ a.preferences, q.goal.IsClosed task 0
  goals : ∀ a ∈ s.goals.toList, ∀ q ∈ a.preferences, q.goal.IsClosed task 0

namespace State.IsReady

variable {task : Lifted.Task} {s s' : State}

/-- Only the variables, the values, the actions and the goals matter. -/
theorem of_eq (h : s.IsReady task) (hvars : s'.vars = s.vars)
    (hnames : s'.preferenceNames = s.preferenceNames) (hvalues : s'.values = s.values)
    (hactions : s'.actions = s.actions) (hgoals : s'.goals = s.goals) : s'.IsReady task where
  inScope := h.inScope.of_grows (.of_eq hvars hnames) hactions hgoals
  vars := by
    rw [HasSortedVariables, hvars]
    exact h.vars
  values := hvalues ▸ h.values
  actions := hactions ▸ h.actions
  goals := hgoals ▸ h.goals

theorem creates (h : s.IsReady task) (hcreates : s.Creates s')
    (hvariables : s'.HasSortedVariables task) : s'.IsReady task where
  inScope := h.inScope.creates hcreates
  vars := hvariables
  values := by
    rw [hcreates.frame]
    exact h.values
  actions := by
    rw [hcreates.frame]
    exact h.actions
  goals := by
    rw [hcreates.frame]
    exact h.goals

theorem markTried (h : s.IsReady task) (schema : Schema) (name : String) (as : List ObjectId) :
    (s.markTried schema name as).IsReady task := by
  rw [State.markTried_frame]
  exact h.of_eq rfl rfl rfl rfl rfl

theorem add (h : s.IsReady task) {a : Action} (hscoped : a.Scoped (s.scope task fun _ => True))
    (hclosed : ∀ q ∈ a.preferences, q.goal.IsClosed task 0) : (s.add a).IsReady task := by
  have hpush : ∀ {as : Array Action} {i : Nat},
      (∀ b ∈ as.toList, ∀ q ∈ b.preferences, q.goal.IsClosed task 0) →
        ∀ b ∈ (as.push { a with index := i }).toList, ∀ q ∈ b.preferences,
          q.goal.IsClosed task 0 := by
    intro as i has b hb
    rw [Array.toList_push] at hb
    rcases List.mem_append.mp hb with hb | hb
    · exact has b hb
    · rw [List.mem_singleton.mp hb]
      exact hclosed
  have hadded := h.inScope.add hscoped
  unfold State.add at hadded ⊢
  split at hadded
  next hgoal =>
    rw [if_pos hgoal]
    exact ⟨hadded, h.vars, h.values, h.actions, hpush h.goals⟩
  next hgoal =>
    rw [if_neg hgoal]
    exact ⟨hadded, h.vars, h.values, hpush h.actions, h.goals⟩

end State.IsReady

variable {task : Lifted.Task} {s : State} {E : Error → Prop}

/-- Reaching an object keeps a state ready. -/
theorem reach_keepsReady {level : Nat} {c : Condition} (h : s.IsReady task)
    (hc : c.value.index < task.objects.size) :
    (reach level c).Ensures s fun _ s' => s'.IsReady task ∧ s.Grows s' := by
  intro u s' hrun
  obtain ⟨hscoped, hgrows⟩ := reach_keepsScope h.inScope u s' hrun
  rcases reach_ensures level c s u s' hrun with ⟨rfl, -⟩ | ⟨v, hv, -, htable, hframe⟩
  · exact ⟨h, hgrows⟩
  -- the variable keeps its function and arguments, and the value that is added is about them
  refine ⟨⟨hscoped, fun i w hw o ho => ?_, fun w hw => ?_, ?_, ?_⟩, hgrows⟩
  · rw [htable] at hw
    split at hw
    · cases hw
      exact h.vars _ v hv o ho
    · exact h.vars i w hw o ho
  · rw [hframe, Array.toList_push] at hw
    rcases List.mem_append.mp hw with hw | hw
    · exact h.values w hw
    · rw [List.mem_singleton.mp hw]
      exact h.vars _ v hv c.value hc
  · rw [hframe]
    exact h.actions
  · rw [hframe]
    exact h.goals

/-- Creating a sorted variable keeps a state ready. -/
theorem variableOf_keepsReady {f : FunctionId} {as : List ObjectId}
    (h : ∀ o, o.index < task.objects.size → IsSorted task ⟨f, as, o⟩) :
    (variableOf task f as).Safe E (·.IsReady task) fun _ => True := by
  refine fun s hs => ⟨fun _ hrun => (by cases hrun), fun v s' hrun => ⟨?_, trivial⟩⟩
  have hcreates := (variableOf_ensures task f as s v s' hrun).1.toCreates
  exact hs.creates hcreates ((variableOf_safe (E := E) h s hs.vars).2 v s' hrun).1

/-! ## Looking at instances -/

theorem claim_safe (schema : Schema) (name : String) (as : List ObjectId) :
    (claim schema name as).Safe E (fun _ => True) fun _ => True := by
  refine Step.safe_get.bind fun state _ => ?_
  dsimp only
  split
  · split
    · exact Step.safe_pure trivial
    · exact (Step.safe_set trivial).bind fun _ _ => Step.safe_pure trivial
  · split
    · exact Step.safe_pure trivial
    · exact (Step.safe_set trivial).bind fun _ _ => Step.safe_pure trivial

namespace Guarded

theorem guards_reach {level : Nat} {c : Condition} (h : s.IsReady task)
    (hc : c.Scoped (s.scope task fun _ => True)) :
    Guards E s (reach task level c) (Grounding.reach level c)
      fun _ s' => s'.IsReady task ∧ s.Grows s' := by
  obtain ⟨⟨v, hv⟩, ho⟩ := hc
  obtain ⟨f, hf, -⟩ := (h.vars _ v hv c.value ho).function
  have hvariable : read .variables s.vars.entries c.var.index = .ok v := read_eq_ok hv
  have hfunction : read .functions task.functions v.function.index = .ok f := read_eq_ok hf
  refine guards_bind_get (guards_bind_of_eq_ok hvariable (guards_bind_of_eq_ok hfunction ?_))
  exact guards_report (fun _ hrun => by cases hrun) (reach_keepsReady h ho)

theorem guards_reach_forM {level : Nat} {cs : List Condition} (h : s.IsReady task)
    (hcs : ∀ c ∈ cs, c.Scoped (s.scope task fun _ => True)) :
    Guards E s (cs.forM (reach task level)) (cs.forM (Grounding.reach level))
      fun _ s' => s'.IsReady task ∧ s.Grows s' := by
  refine guards_forM (I := fun s' => s'.IsReady task ∧ s.Grows s') (fun c hc s' ⟨hs', hgrows⟩ => ?_)
    ⟨h, .of_eq rfl rfl⟩
  exact (guards_reach hs' ((hcs c hc).mono hgrows.scope_le)).mono
    fun _ _ ⟨hs'', hgrows'⟩ => ⟨hs'', hgrows.trans hgrows'⟩

section Exploration

variable {p : Lifted.Problem} (hvalid : p.validate = .ok ())
  (hE : ∀ op ∈ p.operators, ∀ q ∈ op.preferences,
    q.goal.ReadsDuration → E (.invalidTask .durationInGoal))
include hvalid hE

/-- **Looking at an instance** of an operator of a valid problem reads nothing that is not there. -/
theorem guards_groundInstance {schema : Schema} (hop : schema.operator ∈ p.operators)
    {as : List ObjectId}
    (has : Instance.IsAdmissible (Setting.ofTask p.task) schema.operator as)
    (h : s.IsReady p.task) :
    Guards E s (groundInstance p.task as schema) (Grounding.groundInstance p.task as schema)
      fun _ s' => s'.IsReady p.task := by
  have hscopable : IsScopable p.task (fun _ => True) schema.operator as :=
    isScopable_of_valid hvalid hop (fun _ _ _ _ => trivial) has
  have hcheck := (checks_of_valid hvalid).2.2.2 _ hop
  refine Guards.bind (guards_report ((claim_safe schema _ as s trivial).1)
    (claim_ensures schema _ as s)) ?_
  rintro fresh s₀ (⟨rfl, -, rfl⟩ | ⟨rfl, -, rfl⟩)
  · exact guards_pure h
  have hmarked := h.markTried schema (p.task.applied schema.operator.name as) as
  have hobjects := hscopable.objects
  have hlength := has.length_eq
  have hidentities := exists_identitiesHold hobjects hcheck hlength
  refine Guards.bind (guards_unguarded (Q := fun _ s' => s' = _) hidentities fun _ => rfl) ?_
  rintro holds _ rfl
  split
  · set name := p.task.applied schema.operator.name as
    have hsafe := guards_safe (groundOperator_safe hobjects name hcheck hlength (hE _ hop))
      hmarked.vars
    refine Guards.bind (hsafe.and (groundOperator_gives (fun _ _ => trivial)
      (two_le_size_objects hvalid) hscopable)) ?_
    rintro a? s₁ ⟨⟨hvariables, hclosed⟩, hcreates, hscoped⟩
    have hready := hmarked.creates hcreates hvariables
    cases a? with
    | none => exact guards_pure hready
    | some a =>
      refine guards_get_bind (Guards.bind (guards_reach_forM hready (hscoped a rfl).effects) ?_)
      rintro _ s₂ ⟨hs₂, hgrows⟩
      refine guards_report (fun _ hrun => by cases hrun) (Step.ensures_modify.mpr ?_)
      exact hs₂.add ((hscoped a rfl).mono hgrows.scope_le) (hclosed a rfl)
  · exact guards_pure hmarked

/-- Looking at admissible instances of operators, for each of them those that a list has. -/
theorem guards_groundSchemas {schemas : List Schema}
    (hschemas : ∀ schema ∈ schemas,
      schema ∈ Grounding.schemasOf (Setting.ofTask p.task) p.operators)
    {c : Schema → Guarded (List (List ObjectId))} {l : Schema → List (List ObjectId)}
    (hc : ∀ i op, p.operators[i]? = some op →
      c (Grounding.schemaOf p i op) = .ok (l (Grounding.schemaOf p i op)) ∧
        ∀ as ∈ l (Grounding.schemaOf p i op),
          Instance.IsAdmissible (Setting.ofTask p.task) op as) (h : s.IsReady p.task) :
    Guards E s
      (schemas.forM fun schema => do
        let instances ← (c schema : Guarded _)
        instances.forM fun as => groundInstance p.task as schema)
      (schemas.forM fun schema => (l schema).forM fun as =>
        Grounding.groundInstance p.task as schema) fun _ s' => s'.IsReady p.task := by
  refine guards_forM (fun schema hschema s' hs' => ?_) h
  obtain ⟨i, op, hi, rfl⟩ := mem_schemasOf.mp (hschemas schema hschema)
  obtain ⟨hlist, hadmissible⟩ := hc i op hi
  refine guards_bind_of_eq_ok hlist (guards_forM (fun as has s'' hs'' => ?_) hs')
  exact guards_groundInstance hvalid hE (List.mem_of_getElem? hi) (hadmissible as has) hs''

/-- Operators that have no conditions to match are instantiated for all admissible arguments. -/
theorem guards_groundUnconditional (h : s.IsReady p.task) :
    Guards E s
      (groundUnconditional (Setting.ofTask p.task)
        (Grounding.schemasOf (Setting.ofTask p.task) p.operators))
      (Grounding.groundUnconditional (Setting.ofTask p.task)
        (Grounding.schemasOf (Setting.ofTask p.task) p.operators))
      fun _ s' => s'.IsReady p.task := by
  refine guards_groundSchemas hvalid hE (fun schema hschema => (List.mem_filter.mp hschema).1)
    (fun i op _ => ⟨?_, fun as has => mem_completions_unbound.mp has⟩) h
  have hlength : 0 + (Grounding.schemaOf p i op).unbound.length =
      (Grounding.schemaOf p i op).candidates.length := by
    rw [Nat.zero_add, Schema.unbound, List.length_map]
    exact (List.length_map _).symm
  exact completions_eq_ok hlength

/-- Running a level keeps a state ready. -/
theorem guards_runLevel (h : s.IsReady p.task) :
    Guards E s
      (runLevel (Setting.ofTask p.task) (Grounding.schemasOf (Setting.ofTask p.task) p.operators))
      (Grounding.runLevel (Setting.ofTask p.task)
        (Grounding.schemasOf (Setting.ofTask p.task) p.operators))
      fun _ s' => s'.IsReady p.task := by
  refine guards_get_bind ?_
  dsimp only
  set vs := s.values.toList.take s.levelEnd with hvs
  have hsorted : ∀ v ∈ vs, IsSorted p.task v := fun v hv => h.values v (List.mem_of_mem_take hv)
  refine Guards.bind (Q := fun _ s' => s'.IsReady p.task)
    (guards_forM (fun trigger htrigger s' hs' => ?_) h) fun _ s' hs' =>
      guards_report (fun _ hrun => by cases hrun)
        (Step.ensures_modify.mpr (hs'.of_eq rfl rfl rfl rfl rfl))
  -- only values that have been reached are looked at
  have hallowed : ∀ w ∈ allowedFrom vs s.levelStart trigger.2, IsSorted p.task w := fun w hw => by
    rcases List.mem_append.mp hw with hw | hw
    · exact hsorted w (List.mem_of_mem_take hw)
    · exact hsorted w (List.mem_of_mem_drop hw)
  have htrigger := hsorted _ (List.mem_of_mem_drop (List.fst_mem_of_mem_zipIdx htrigger))
  refine guards_groundSchemas hvalid hE (fun _ => id) (fun i op hi => ⟨?_, fun as has => ?_⟩) hs'
  · exact instancesOf_eq_ok (hasClosedTypes_of_valid hvalid)
      (isMatchable_of_valid hvalid (List.mem_of_getElem? hi)) i htrigger hallowed
  · exact ((mem_instancesOf (isFluentOf_of_valid hvalid (List.mem_of_getElem? hi))).mp has).1

theorem guards_runLevels (fuel : Nat) (h : s.IsReady p.task) :
    Guards E s
      (runLevels (Setting.ofTask p.task) (Grounding.schemasOf (Setting.ofTask p.task) p.operators)
        fuel)
      (Grounding.runLevels (Setting.ofTask p.task)
        (Grounding.schemasOf (Setting.ofTask p.task) p.operators) fuel)
      fun _ s' => s'.IsReady p.task := by
  induction fuel generalizing s with
  | zero => exact guards_pure h
  | succ fuel ih =>
    refine guards_get_bind ?_
    split
    · exact (guards_runLevel hvalid hE h).bind fun _ s' hs' => ih hs'
    · exact guards_pure h

omit hE in
theorem guards_start : Guards E {} (start p.task) (Grounding.start p.task)
    fun _ s => s.IsReady p.task := by
  have hempty : State.IsReady p.task {} :=
    ⟨⟨fun _ ha => (by cases ha), fun _ ha => (by cases ha)⟩, fun _ _ hv => (by cases hv),
      fun _ hv => (by cases hv), fun _ ha => (by cases ha), fun _ ha => (by cases ha)⟩
  have hfact : ∀ fact ∈ p.task.init, ∀ o, o.index < p.task.objects.size →
      IsSorted p.task ⟨fact.function, fact.arguments, o⟩ := fun fact hfact o ho => by
    obtain ⟨hfunction, hcheck⟩ := check_bind_eq_ok.mp ((checks_of_valid hvalid).2.1 fact hfact)
    obtain ⟨harguments, -⟩ := check_bind_eq_ok.mp hcheck
    exact ⟨exists_of_checkFunction hfunction, fun o ho =>
      of_decide_eq_true (require_eq_ok.mp (check_forM_eq_ok harguments o ho)), ho⟩
  have hcreate : (createInitialVariables p.task).Safe E (·.IsReady p.task) fun _ => True :=
    Step.safe_forM fun fact hmem s hs => ⟨fun _ hrun => (by cases hrun),
      Step.ensures_map.mpr (variableOf_keepsReady (E := E) (hfact fact hmem) s hs).2⟩
  refine Guards.bind (guards_safe hcreate hempty) fun _ s₁ ⟨h₁, _⟩ => ?_
  refine Guards.bind (Q := fun _ s' => s'.IsReady p.task)
    (guards_forM (fun fact hmem s hs => ?_) h₁) fun _ s₂ h₂ =>
      guards_report (fun _ hrun => by cases hrun)
        (Step.ensures_modify.mpr (h₂.of_eq rfl rfl rfl rfl rfl))
  have hvalue : ∀ o, fact.value = .object o → o.index < p.task.objects.size := fun o ho =>
    (isSorted_of_isInitialValue (v := ⟨fact.function, fact.arguments, o⟩) hvalid
      ⟨fact, hmem, ho, rfl, rfl⟩).value
  cases hobject : fact.value with
  | number x => exact guards_pure hs
  | object o =>
    -- the variable exists by then
    have hvariable := guards_safe (variableOf_keepsReady (E := E) (hfact fact hmem)) hs
    refine Guards.bind (hvariable.and (variableOf_ensures p.task _ _ s)) ?_
    rintro v s' ⟨⟨hs', -⟩, -, hnames⟩
    have hscoped : Condition.Scoped (s'.scope p.task fun _ => True) ⟨v, o⟩ :=
      ⟨scope_of_names hnames, hvalue o hobject⟩
    exact (guards_reach hs' hscoped).mono fun _ _ h => h.1

end Exploration

end Guarded

end TemporalPlanning.Grounding
