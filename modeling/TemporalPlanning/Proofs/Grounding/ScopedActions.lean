import TemporalPlanning.Proofs.Grounding.Levels
import TemporalPlanning.Proofs.Grounding.Quantifier
/-!
Grounded actions stay within the scope of their task.

The parts of an instance create the variables they mention or look them up, and what the terms of a
valid operator denote belongs to the task. So every action is scoped when it is added, and as scopes
only grow, all actions of a saturated task are scoped in the end.
-/
set_option autoImplicit false

namespace TemporalPlanning.Grounding

open Grounded

variable {task : Lifted.Task} {K : FunctionId → Prop} {arguments : List ObjectId} {s : State}

variable (task K) in
theorem condition_scoped_isStable : IsStable fun s (c : Condition) => c.Scoped (s.scope task K) :=
  fun _ _ _ hcreates hc => hc.mono hcreates.grows.scope_le

variable (task K) in
theorem preference_scoped_isStable :
    IsStable fun s (q : Preference) => q.Scoped (s.scope task K) :=
  fun _ _ _ hcreates hq => hq.mono hcreates.grows.scope_le

variable (task K) in
theorem quantity_scoped_isStable : IsStable fun s (q : Quantity) => q.Scoped (s.scope task K) :=
  fun _ _ _ hcreates hq => hq.mono hcreates.grows.scope_le

variable (task K) in
theorem expression_scoped_isStable :
    IsStable fun s (e : Expression Quantity) => ∀ q ∈ e.atoms, q.Scoped (s.scope task K) :=
  fun _ _ _ hcreates he q hq => (he q hq).mono hcreates.grows.scope_le

/-- What is stable of every element is stable of a list. -/
theorem IsStable.forall_mem {α : Type} {P : State → α → Prop} (hP : IsStable P) :
    IsStable fun s (as : List α) => ∀ a ∈ as, P s a :=
  fun _ _ _ hcreates has a ha => hP _ _ _ hcreates (has a ha)

/-! ## Conditions and effects -/

/-- A condition is over a variable that now exists. -/
theorem groundFluent_gives {c : Lifted.Fluent}
    (hvalue : (denote arguments c.value).index < task.objects.size) :
    (groundFluent task arguments c).Gives s fun s' c' => c'.Scoped (s'.scope task K) := by
  refine Step.Ensures.mono (groundFluent_ensures task arguments c s) ?_
  rintro c' s' ⟨hcreates, hnames, hvalue'⟩
  refine ⟨hcreates, scope_of_names hnames, ?_⟩
  rw [hvalue']
  exact hvalue

theorem groundFluents_gives {cs : List Lifted.Fluent}
    (hvalues : ∀ c ∈ cs, (denote arguments c.value).index < task.objects.size) :
    Attempt.Gives (cs.mapM fun c => (groundFluent task arguments c : Step _)) s
      fun s' cs' => ∀ c ∈ cs', c.Scoped (s'.scope task K) :=
  Attempt.gives_mapM (condition_scoped_isStable task K) fun c hc _ _ =>
    Attempt.gives_step (groundFluent_gives (hvalues c hc))

variable (task K) in
/-- A variable that is only looked up exists if the attempt succeeds. -/
theorem existingVariable_gives (f : FunctionId) (as : List ObjectId) :
    (existingVariable f as).Gives s fun s' v => (s'.scope task K).var v := by
  refine Attempt.ensures_bind.mpr (Attempt.ensures_step.mpr (Step.ensures_get.mpr ?_))
  refine Step.ensures_pure.mpr ⟨.refl s, fun v hv => ?_⟩
  exact scope_of_names (names_of_find? hv)

/-- A function is read from a variable that exists already, or there is no action. -/
theorem groundQuantity_gives (q : Lifted.Quantity) (s : State) :
    (groundQuantity arguments q).Gives s fun s' q' => q'.Scoped (s'.scope task K) := by
  cases q with
  | number x => exact Attempt.gives_pure trivial
  | duration => exact Attempt.gives_pure trivial
  | elapsed => exact Attempt.gives_pure trivial
  | term t =>
    exact (Attempt.gives_lift (P := fun _ _ => True) fun _ _ => trivial).bind fun o s' _ _ =>
      Attempt.gives_pure trivial
  | fluent l =>
    refine (Attempt.gives_lift (P := fun _ _ => True) fun _ _ => trivial).bind fun os s' _ _ => ?_
    exact (existingVariable_gives task K _ _).bind fun v s'' _ hv => Attempt.gives_pure hv

variable (task K) in
theorem groundExpression_gives (e : Expression Lifted.Quantity) (s : State) :
    (groundExpression arguments e).Gives s
      fun s' e' => ∀ q ∈ e'.atoms, q.Scoped (s'.scope task K) :=
  Attempt.gives_mapM_expression (quantity_scoped_isStable task K) groundQuantity_gives e s

theorem groundNumericCondition_gives (c : Lifted.NumericCondition) (s : State) :
    (groundNumericCondition arguments c).Gives s fun s' c' => c'.Scoped (s'.scope task K) :=
  (Attempt.gives_mapM (expression_scoped_isStable task K) fun e _ s' _ =>
    groundExpression_gives task K e s').bind fun _ _ _ hterms => Attempt.gives_pure hterms

variable (task K) in
theorem numericCondition_scoped_isStable :
    IsStable fun s (c : NumericCondition) => c.Scoped (s.scope task K) :=
  fun _ _ _ hcreates hc => hc.mono hcreates.grows.scope_le

theorem groundNumericConditions_gives (cs : List Lifted.NumericCondition) (s : State) :
    Attempt.Gives (cs.mapM (groundNumericCondition arguments)) s
      fun s' cs' => ∀ c ∈ cs', c.Scoped (s'.scope task K) :=
  Attempt.gives_mapM (numericCondition_scoped_isStable task K) fun c _ s' _ =>
    groundNumericCondition_gives c s'

theorem groundDuration_gives (d : Lifted.DurationBound) (s : State) :
    (groundDuration arguments d).Gives s fun s' d' => d'.Scoped (s'.scope task K) :=
  (groundExpression_gives task K d.expression s).bind fun _ _ _ he => Attempt.gives_pure he

/-- Effects are added one after the other to those that are scoped already. -/
theorem groundEffects_gives {fluents : List Lifted.Fluent} {grounded : List Condition}
    (hvalues : ∀ c ∈ fluents, (denote arguments c.value).index < task.objects.size)
    (hgrounded : ∀ c ∈ grounded, c.Scoped (s.scope task K)) :
    (groundEffects task arguments fluents grounded).Gives s
      fun s' cs => ∀ c ∈ cs, c.Scoped (s'.scope task K) := by
  induction fluents generalizing grounded s with
  | nil =>
    rw [groundEffects]
    exact Attempt.gives_pure hgrounded
  | cons c rest ih =>
    obtain ⟨hc, hrest⟩ := List.forall_mem_cons.mp hvalues
    rw [groundEffects]
    refine (Attempt.gives_step (groundFluent_gives (K := K) hc)).bind fun e s' hs' he => ?_
    -- what has been grounded so far stays scoped while the next variable is created
    have hkept := (condition_scoped_isStable task K).forall_mem _ _ _ hs' hgrounded
    split
    · split
      · exact ih hrest hkept
      · exact Attempt.gives_failure
    · refine ih hrest fun c' hc' => ?_
      rcases List.mem_append.mp hc' with hc' | hc'
      · exact hkept c' hc'
      · rw [List.mem_singleton.mp hc']
        exact he

/-- A grounded numeric effect is scoped, also if it turns out to be a literal one. -/
def ChangeScoped (S : Scope) : Condition ⊕ NumericEffect → Prop
  | .inl c => c.Scoped S
  | .inr e => e.Scoped S

variable (task K) in
theorem changeScoped_isStable : IsStable fun s r => ChangeScoped (s.scope task K) r := by
  intro s s' r hcreates hr
  cases r with
  | inl c => exact Condition.Scoped.mono hcreates.grows.scope_le hr
  | inr e => exact NumericEffect.Scoped.mono hcreates.grows.scope_le hr

/-- The effect changes an existing variable, and what it assigns is an object of the task or reads
existing variables. -/
theorem groundNumericEffect_gives {e : Lifted.NumericEffect}
    (hvalue : ∀ t, e.expression = .atom (.term t) →
      (denote arguments t).index < task.objects.size) :
    (groundNumericEffect arguments e).Gives s fun s' r => ChangeScoped (s'.scope task K) r := by
  -- the arguments may be anything, as it is the variable that must exist
  refine (Attempt.gives_lift (P := fun _ _ => True) fun _ _ => trivial).bind fun os s₁ _ _ => ?_
  refine (existingVariable_gives task K _ _).bind fun v s₂ _ hv => ?_
  split
  next t _ hexpression =>
    refine (Attempt.gives_lift (P := fun _ o => o = denote arguments t) fun o ho =>
      (bind_eq_ok ho).symm).bind fun o s₃ h₃ ho => Attempt.gives_pure ?_
    refine ⟨h₃.grows.scope_le.var v hv, ?_⟩
    rw [ho]
    exact hvalue t hexpression
  · refine (groundExpression_gives task K _ s₂).bind fun e' s₃ h₃ he => Attempt.gives_pure ?_
    exact ⟨h₃.grows.scope_le.var v hv, he⟩

theorem groundNumericEffects_gives {es : List Lifted.NumericEffect}
    (hvalues : ∀ e ∈ es, ∀ t, e.expression = .atom (.term t) →
      (denote arguments t).index < task.objects.size) :
    Attempt.Gives (es.mapM (groundNumericEffect arguments)) s
      fun s' rs => ∀ r ∈ rs, ChangeScoped (s'.scope task K) r :=
  Attempt.gives_mapM (changeScoped_isStable task K) fun e he _ _ =>
    groundNumericEffect_gives (hvalues e he)

theorem literalEffects_scoped {S : Scope} {rs : List (Condition ⊕ NumericEffect)}
    (h : ∀ r ∈ rs, ChangeScoped S r) : ∀ c ∈ literalEffects rs, c.Scoped S := by
  intro c hc
  obtain ⟨r, hr, hleft⟩ := List.mem_filterMap.mp hc
  cases r with
  | inl c' =>
    cases hleft
    exact h _ hr
  | inr e => cases hleft

theorem numericEffects_scoped {S : Scope} {rs : List (Condition ⊕ NumericEffect)}
    (h : ∀ r ∈ rs, ChangeScoped S r) : ∀ e ∈ numericEffects rs, e.Scoped S := by
  intro e he
  obtain ⟨r, hr, hright⟩ := List.mem_filterMap.mp he
  cases r with
  | inl c => cases hright
  | inr e' =>
    cases hright
    exact h _ hr

/-! ## Actions -/

/-- What scoped instances of an operator need: that the terms which give values to its conditions
and effects denote objects of the task, and that the goals of its preferences are sound. -/
structure IsScopable (task : Lifted.Task) (K : FunctionId → Prop) (op : Lifted.Operator)
    (arguments : List ObjectId) : Prop where
  objects : ∀ o ∈ arguments, o.index < task.objects.size
  fluents : ∀ c ∈ op.atStart.conditions ++ op.invariants ++ op.atEnd.conditions ++
    op.atStart.effects ++ op.atEnd.effects, (denote arguments c.value).index < task.objects.size
  assignments : ∀ e ∈ op.atStart.numericEffects ++ op.atEnd.numericEffects, ∀ t,
    e.expression = .atom (.term t) → (denote arguments t).index < task.objects.size
  preferences : ∀ q ∈ op.preferences,
    task.checkGoal op.name op.parameters.length q.goal = .ok () ∧
      ∀ l ∈ q.goal.literals, K l.function

section Operators

variable (hnonnumeric : ∀ f, task.isNumeric f = false → K f) (hreserved : 2 ≤ task.objects.size)
include hnonnumeric hreserved

theorem groundPreference_gives {context : String} {bound : Nat} {q : Lifted.Preference}
    (hobjects : ∀ o ∈ arguments, o.index < task.objects.size)
    (hcheck : task.checkGoal context bound q.goal = .ok ())
    (hliterals : ∀ l ∈ q.goal.literals, K l.function) :
    (groundPreference task arguments q).Gives s fun s' q' => q'.Scoped (s'.scope task K) := by
  refine (preferenceIndex_gives q.name s).bind fun i s₁ _ hi => ?_
  exact (groundGoal_gives hobjects hnonnumeric hreserved q.goal bound s₁ hcheck hliterals).bind
    fun g s₂ h₂ hg => Step.gives_pure ⟨⟨q.name, h₂.named i q.name hi⟩, hg⟩

/-- **Instances of valid operators are scoped.** -/
theorem groundOperator_gives {schema : Schema} {name : String}
    (h : IsScopable task K schema.operator arguments) :
    (groundOperator task arguments schema name).Gives s
      fun s' a => a.Scoped (s'.scope task K) := by
  have hvalue : ∀ cs : List Lifted.Fluent, (∀ c ∈ cs, c ∈ schema.operator.atStart.conditions ++
      schema.operator.invariants ++ schema.operator.atEnd.conditions ++
      schema.operator.atStart.effects ++ schema.operator.atEnd.effects) →
      ∀ c ∈ cs, (denote arguments c.value).index < task.objects.size :=
    fun cs hcs c hc => h.fluents c (hcs c hc)
  -- conditions at start, over all and at end
  refine Attempt.gives_bind_stages (fun _ => (condition_scoped_isStable task K).forall_mem)
    (fun cs hcs s' _ => groundFluents_gives (hvalue cs ?_)) ?_
  · simp only [List.mem_cons, List.not_mem_nil, or_false] at hcs
    intro d hd
    rcases hcs with rfl | rfl | rfl <;> simp [hd]
  intro startConditions invariants endConditions s₁ _ hstart hinvariants hend
  refine Attempt.gives_bind_stages (fun _ => (numericCondition_scoped_isStable task K).forall_mem)
    (fun cs _ s' _ => groundNumericConditions_gives cs s') ?_
  intro startNumeric numericInvariants endNumeric s₂ h₂ hstartNumeric hinvariantsNumeric hendNumeric
  -- literal effects, and numeric ones that may turn out to be literal
  refine Attempt.gives_bind_both (fun _ => (condition_scoped_isStable task K).forall_mem)
    (f := fun fluents => groundEffects task arguments fluents [])
    (fun cs hcs s' _ => groundEffects_gives (hvalue cs ?_) fun c hc => by cases hc) ?_
  · simp only [List.mem_cons, List.not_mem_nil, or_false] at hcs
    intro d hd
    rcases hcs with rfl | rfl <;> simp [hd]
  intro startEffects endEffects s₃ h₃ hstartEffects hendEffects
  refine Attempt.gives_bind_both (fun _ => (changeScoped_isStable task K).forall_mem)
    (fun es hes s' _ => groundNumericEffects_gives fun e he => h.assignments e ?_) ?_
  · simp only [List.mem_cons, List.not_mem_nil, or_false] at hes
    rcases hes with rfl | rfl <;> simp [he]
  intro startChanges endChanges s₄ h₄ hstartChanges hendChanges
  -- preferences and bounds
  refine (Attempt.gives_mapM (preference_scoped_isStable task K) fun q hq s' _ =>
      Attempt.gives_step (groundPreference_gives hnonnumeric hreserved h.objects
        (h.preferences q hq).1 (h.preferences q hq).2)).bind
          fun preferences s₅ h₅ hpreferences => ?_
  refine (Attempt.gives_mapM (Q := fun s (d : DurationBound) => d.Scoped (s.scope task K))
    (fun _ _ _ hcreates hd => hd.mono hcreates.grows.scope_le) fun d _ s' _ =>
      groundDuration_gives d s').bind fun durations s₆ h₆ hdurations => Attempt.gives_pure ?_
  -- what was scoped in an earlier state is scoped in the last one
  have hle₅ : (s₅.scope task K).Le (s₆.scope task K) := h₆.grows.scope_le
  have hle₄ : (s₄.scope task K).Le (s₆.scope task K) := (h₅.trans h₆).grows.scope_le
  have hle₃ : (s₃.scope task K).Le (s₆.scope task K) := (h₄.trans (h₅.trans h₆)).grows.scope_le
  have hle₂ : (s₂.scope task K).Le (s₆.scope task K) :=
    (h₃.trans (h₄.trans (h₅.trans h₆))).grows.scope_le
  have hle₁ : (s₁.scope task K).Le (s₆.scope task K) :=
    (h₂.trans (h₃.trans (h₄.trans (h₅.trans h₆)))).grows.scope_le
  refine ⟨hdurations, fun c hc => ?_, fun e he => ?_, fun c hc => ?_, fun e he => ?_,
    fun q hq => (hpreferences q hq).mono hle₅⟩
  · simp only [Action.conditions, List.mem_append] at hc
    rcases hc with (hc | hc) | hc
    · exact (hstart c hc).mono hle₁
    · exact (hinvariants c hc).mono hle₁
    · exact (hend c hc).mono hle₁
  · simp only [Action.effects, List.mem_append] at he
    rcases he with (he | he) | (he | he)
    · exact (hstartEffects e he).mono hle₃
    · exact (literalEffects_scoped hstartChanges e he).mono hle₄
    · exact (hendEffects e he).mono hle₃
    · exact (literalEffects_scoped hendChanges e he).mono hle₄
  · simp only [Action.numericConditions, List.mem_append] at hc
    rcases hc with (hc | hc) | hc
    · exact (hstartNumeric c hc).mono hle₂
    · exact (hinvariantsNumeric c hc).mono hle₂
    · exact (hendNumeric c hc).mono hle₂
  · simp only [Action.numericEffects, List.mem_append] at he
    rcases he with he | he
    · exact (numericEffects_scoped hstartChanges e he).mono hle₄
    · exact (numericEffects_scoped hendChanges e he).mono hle₄

end Operators

/-- Admissible instances of the operators of a valid problem can be scoped. -/
theorem isScopable_of_valid {p : Lifted.Problem} (hvalid : p.validate = .ok ())
    {op : Lifted.Operator} (hop : op ∈ p.operators)
    (hliterals : ∀ q ∈ op.preferences, ∀ l ∈ q.goal.literals, K l.function) {as : List ObjectId}
    (has : Instance.IsAdmissible (Setting.ofTask p.task) op as) : IsScopable p.task K op as := by
  have hcheck := (checks_of_valid hvalid).2.2.2 op hop
  have hsound := isSoundOperator_of_mem hvalid hop
  obtain ⟨-, h⟩ := check_bind_eq_ok.mp hcheck
  obtain ⟨-, h⟩ := check_bind_eq_ok.mp h
  obtain ⟨-, h⟩ := check_bind_eq_ok.mp h
  obtain ⟨hend, h⟩ := check_bind_eq_ok.mp h
  obtain ⟨-, h⟩ := check_bind_eq_ok.mp h
  obtain ⟨-, h⟩ := check_bind_eq_ok.mp h
  obtain ⟨-, hpreferences⟩ := check_bind_eq_ok.mp h
  refine ⟨fun o ho => ?_, fun c hc => ?_, fun e he t ht => ?_, fun q hq => ?_⟩
  · -- an argument is admitted by the types of its parameter
    obtain ⟨i, hi⟩ := List.mem_iff_getElem?.mp ho
    have hlt : i < op.parameters.length := by
      rw [has.length_eq]
      exact (List.getElem?_eq_some_iff.mp hi).1
    exact lt_size_of_admits (admits_of_getElem? has (List.getElem?_eq_getElem hlt) hi)
  · simp only [List.mem_append] at hc
    rcases hc with (((hc | hc) | hc) | hc) | hc
    · exact lt_size_of_denote has (hsound.conditions c (List.mem_append_left _ hc)).2
    · exact lt_size_of_denote has (hsound.conditions c (List.mem_append_right _ hc)).2
    · exact lt_size_of_denote has ((isSound_of_checkHappening hend).1 c hc).2
    · exact lt_size_of_denote has (hsound.effects c (List.mem_append_left _ hc)).2
    · exact lt_size_of_denote has (hsound.effects c (List.mem_append_right _ hc)).2
  · exact lt_size_of_denote has (hsound.assignments e he t ht).2
  · exact ⟨check_forM_eq_ok hpreferences q hq, hliterals q hq⟩

/-! ## Exploration -/

variable (task K) in
/-- The actions and goals that have been found are scoped. -/
structure State.IsScoped (s : State) : Prop where
  actions : ∀ a ∈ s.actions.toList, a.Scoped (s.scope task K)
  goals : ∀ a ∈ s.goals.toList, a.Scoped (s.scope task K)

theorem State.IsScoped.of_grows {s' : State} (h : s.IsScoped task K) (hgrows : s.Grows s')
    (hactions : s'.actions = s.actions) (hgoals : s'.goals = s.goals) : s'.IsScoped task K := by
  refine ⟨fun a ha => ?_, fun a ha => ?_⟩
  · rw [hactions] at ha
    exact (h.actions a ha).mono hgrows.scope_le
  · rw [hgoals] at ha
    exact (h.goals a ha).mono hgrows.scope_le

theorem State.IsScoped.creates {s' : State} (h : s.IsScoped task K) (hcreates : s.Creates s') :
    s'.IsScoped task K :=
  h.of_grows hcreates.grows (by rw [hcreates.frame]) (by rw [hcreates.frame])

/-- Adding a scoped action. -/
theorem State.IsScoped.add {a : Action} (h : s.IsScoped task K)
    (ha : a.Scoped (s.scope task K)) : (s.add a).IsScoped task K := by
  -- the scope does not depend on the position of the action
  have hindexed : ∀ i, { a with index := i }.Scoped (s.scope task K) := fun i =>
    ⟨ha.durations, ha.conditions, ha.effects, ha.numericConditions, ha.numericEffects,
      ha.preferences⟩
  have hpush : ∀ {as : Array Action} {i : Nat}, (∀ b ∈ as.toList, b.Scoped (s.scope task K)) →
      ∀ b ∈ (as.push { a with index := i }).toList, b.Scoped (s.scope task K) := by
    intro as i has b hb
    rw [Array.toList_push] at hb
    rcases List.mem_append.mp hb with hb | hb
    · exact has b hb
    · rw [List.mem_singleton.mp hb]
      exact hindexed i
  unfold State.add
  split
  · exact ⟨h.actions, hpush h.goals⟩
  · exact ⟨hpush h.actions, h.goals⟩

/-- To date a value changes an entry but not what it stands for. -/
theorem reach_keepsScope {level : Nat} {c : Condition} (h : s.IsScoped task K) :
    (reach level c).Ensures s fun _ s' => s'.IsScoped task K ∧ s.Grows s' := by
  refine (reach_ensures level c s).mono ?_
  rintro _ s' (⟨rfl, -⟩ | ⟨v, hv, -, htable, hframe⟩)
  · exact ⟨h, .of_eq rfl rfl⟩
  · have hgrows : s.Grows s' := by
      refine ⟨fun i w hw => ?_, fun i name hname => by rw [hframe]; exact hname⟩
      by_cases hi : c.var.index = i
      · subst hi
        rw [hv] at hw
        cases hw
        exact ⟨_, (htable _).trans (if_pos rfl), rfl⟩
      · exact ⟨w, (htable i).trans ((if_neg hi).trans hw), rfl⟩
    exact ⟨h.of_grows hgrows (by rw [hframe]) (by rw [hframe]), hgrows⟩

theorem forM_reach_keepsScope {level : Nat} (cs : List Condition) (h : s.IsScoped task K) :
    Step.Ensures (cs.forM (reach level)) s fun _ s' => s'.IsScoped task K ∧ s.Grows s' := by
  refine Step.ensures_forM (fun c _ s' ⟨hs', hgrows⟩ => ?_) ⟨h, .of_eq rfl rfl⟩
  exact (reach_keepsScope hs').mono fun _ s'' ⟨hs'', hgrows'⟩ => ⟨hs'', hgrows.trans hgrows'⟩

/-- An instance adds a scoped action or none. -/
theorem groundInstance_keepsScope (hnonnumeric : ∀ f, task.isNumeric f = false → K f)
    (hreserved : 2 ≤ task.objects.size) {schema : Schema}
    (hscopable : IsScopable task K schema.operator arguments) (h : s.IsScoped task K) :
    (groundInstance task arguments schema).Ensures s fun _ s' => s'.IsScoped task K := by
  refine Step.ensures_bind.mpr ((claim_ensures schema _ arguments s).mono ?_)
  rintro fresh s₀ (⟨rfl, -, rfl⟩ | ⟨rfl, -, rfl⟩)
  · -- an instance that was tried before is not tried again
    exact Step.ensures_pure.mpr h
  have hmarked : (s.markTried schema (task.applied schema.operator.name arguments)
      arguments).IsScoped task K := by
    rw [State.markTried_frame]
    exact h.of_grows (.of_eq rfl rfl) rfl rfl
  refine Step.ensures_bind.mpr (Step.ensures_lift.mpr fun holds _ => ?_)
  split
  · refine Step.ensures_bind.mpr (Step.Ensures.mono (groundOperator_gives hnonnumeric hreserved
      hscopable) ?_)
    rintro a? s₁ ⟨hcreates, ha⟩
    cases a? with
    | none => exact Step.ensures_pure.mpr (hmarked.creates hcreates)
    | some a =>
      refine Step.ensures_bind.mpr (Step.ensures_get.mpr ?_)
      refine Step.ensures_bind.mpr ((forM_reach_keepsScope _ (hmarked.creates hcreates)).mono ?_)
      rintro _ s₂ ⟨hs₂, hgrows⟩
      exact Step.ensures_modify.mpr (hs₂.add ((ha a rfl).mono hgrows.scope_le))
  · exact Step.ensures_pure.mpr hmarked

variable (K) in
theorem start_isScoped (p : Lifted.Problem) :
    (start p.task).Ensures {} fun _ s => s.IsScoped p.task K := by
  have hempty : State.IsScoped p.task K {} := ⟨fun _ ha => (by cases ha), fun _ ha => (by cases ha)⟩
  refine Step.ensures_bind.mpr (Step.Ensures.mono (Q := fun _ s' => s'.IsScoped p.task K)
    (Step.ensures_forM (fun fact _ s' hs' => ?_) hempty) fun _ s₁ h₁ => ?_)
  · exact Step.ensures_map.mpr ((variableOf_onlyCreates p.task _ _ s').mono fun _ _ h =>
      hs'.creates h.toCreates)
  refine Step.ensures_bind.mpr (Step.Ensures.mono (Q := fun _ s' => s'.IsScoped p.task K)
    (Step.ensures_forM (fun fact _ s' hs' => ?_) h₁) fun _ s₂ h₂ =>
      Step.ensures_modify.mpr (h₂.of_grows (.of_eq rfl rfl) rfl rfl))
  split
  · refine Step.ensures_bind.mpr ((variableOf_onlyCreates p.task _ _ s').mono fun _ _ h => ?_)
    exact (reach_keepsScope (hs'.creates h.toCreates)).mono fun _ _ h => h.1
  · exact Step.ensures_pure.mpr hs'

section Exploration

variable {p : Lifted.Problem} (hvalid : p.validate = .ok ())
  (hnonnumeric : ∀ f, p.task.isNumeric f = false → K f)
  (hliterals : ∀ op ∈ p.operators, ∀ q ∈ op.preferences, ∀ l ∈ q.goal.literals, K l.function)
include hvalid hnonnumeric hliterals

/-- Looking at admissible instances of the operators, for each of them those that a list has. -/
theorem groundSchemas_keepsScope {schemas : List Schema}
    (hschemas : ∀ schema ∈ schemas, schema ∈ schemasOf (Setting.ofTask p.task) p.operators)
    {l : Schema → List (List ObjectId)}
    (hl : ∀ i op, p.operators[i]? = some op → ∀ as ∈ l (schemaOf p i op),
      Instance.IsAdmissible (Setting.ofTask p.task) op as) (h : s.IsScoped p.task K) :
    Step.Ensures (schemas.forM fun schema => (l schema).forM fun as =>
      groundInstance p.task as schema) s fun _ s' => s'.IsScoped p.task K := by
  refine Step.ensures_forM (fun schema hschema s' hs' => ?_) h
  obtain ⟨i, op, hi, rfl⟩ := mem_schemasOf.mp (hschemas schema hschema)
  have hop := List.mem_of_getElem? hi
  refine Step.ensures_forM (fun as has s'' hs'' => ?_) hs'
  exact groundInstance_keepsScope hnonnumeric (two_le_size_objects hvalid)
    (isScopable_of_valid hvalid hop (hliterals op hop) (hl i op hi as has)) hs''

/-- Every level adds scoped actions only. -/
theorem runLevels_keepsScope (fuel : Nat) (h : s.IsScoped p.task K) :
    (runLevels (Setting.ofTask p.task) (schemasOf (Setting.ofTask p.task) p.operators)
      fuel).Ensures s fun _ s' => s'.IsScoped p.task K := by
  induction fuel generalizing s with
  | zero => exact Step.ensures_pure.mpr h
  | succ fuel ih =>
    refine Step.ensures_bind.mpr (Step.ensures_get.mpr ?_)
    split
    · -- one level, and the ones after it
      refine Step.ensures_bind.mpr (Step.Ensures.mono (Q := fun _ s' => s'.IsScoped p.task K) ?_
        fun _ s' hs' => ih hs')
      refine Step.ensures_bind.mpr (Step.ensures_get.mpr ?_)
      refine Step.ensures_bind.mpr (Step.Ensures.mono (Q := fun _ s' => s'.IsScoped p.task K)
        (Step.ensures_forM (fun trigger _ s' hs' => ?_) h) fun _ s' hs' =>
          Step.ensures_modify.mpr (hs'.of_grows (.of_eq rfl rfl) rfl rfl))
      refine groundSchemas_keepsScope hvalid hnonnumeric hliterals (fun _ => id) ?_ hs'
      exact fun i op hi as has => ((mem_instancesOf
        (isFluentOf_of_valid hvalid (List.mem_of_getElem? hi))).mp has).1
    · exact Step.ensures_pure.mpr h

/-- All actions that exploration ends with are scoped. -/
theorem explore_isScoped : (explore p).Ensures {} fun _ s => s.IsScoped p.task K := by
  refine Step.ensures_bind.mpr ((start_isScoped K p).mono fun _ s₁ h₁ => ?_)
  refine Step.ensures_bind.mpr (Step.Ensures.mono (groundSchemas_keepsScope hvalid hnonnumeric
    hliterals (fun schema hschema => (List.mem_filter.mp hschema).1) ?_ h₁) fun _ s₂ h₂ => ?_)
  · exact fun i op _ as has => mem_completions_unbound.mp has
  · exact runLevels_keepsScope hvalid hnonnumeric hliterals _ h₂

end Exploration

/-! ## The saturated task -/

section Saturation

/-- The literals of preferences and constraints are about functions with a property. -/
structure HasLiterals (K : FunctionId → Prop) (p : Lifted.Problem) : Prop where
  preferences : ∀ op ∈ p.operators, ∀ q ∈ op.preferences, ∀ l ∈ q.goal.literals, K l.function
  constraints : ∀ c ∈ p.task.constraints, ∀ l ∈ c.literals, K l.function

variable (K) in
/-- The variables and preference names of a grounded task and its objects. -/
def taskScope (t : Task) : Scope where
  var v := ∃ entry, t.vars[v.index]? = some entry
  fluent v := ∃ entry, t.vars[v.index]? = some entry ∧ K entry.function
  object o := o.index < t.task.objects.size
  function := K
  preference i := ∃ name, t.preferenceNames[i]? = some name

variable (K) in
/-- Actions, goals, constraints and the metric of a task are scoped. -/
structure IsScopedTask (t : Task) : Prop where
  actions : ∀ a ∈ t.actions, a.Scoped (taskScope K t)
  goals : ∀ a ∈ t.goals, a.Scoped (taskScope K t)
  constraints : ∀ c ∈ t.constraints, c.Scoped (taskScope K t)
  metric : ∀ m ∈ t.metric, m.Scoped (taskScope K t)

variable {p : Lifted.Problem}

/-- To resolve the preferences of an action keeps it scoped. -/
theorem resolveAction_gives {a : Action} (ha : a.Scoped (s.scope p.task K)) :
    (resolveAction (Setting.ofTask p.task) a).Gives s
      fun s' b => b.Scoped (s'.scope p.task K) := by
  have hnone : ∀ o ∈ ([] : List ObjectId), o.index < p.task.objects.size := fun o ho => by cases ho
  have hstable := preference_scoped_isStable p.task K
  have hpreferences : (resolvePreferences (Setting.ofTask p.task) a.preferences).Gives s
      fun s' qs => ∀ q ∈ qs, q.Scoped (s'.scope p.task K) := by
    refine collect_gives hstable fun q hq s' hs' => ?_
    have hscoped := hstable _ _ _ hs' (ha.preferences q hq)
    refine Step.gives_get_bind (Step.Gives.bind (P := WhenSome fun s g => g.Scoped
      (s.scope p.task K)) (Step.gives_lift fun g? hg? g' hg' => ?_) fun g? s'' hs'' hg? =>
        Step.gives_pure (hg?.map fun g' hg' => ⟨(hstable _ _ _ hs'' hscoped).1, hg'⟩))
    -- the goals of preferences are instantiated without any bound objects
    refine instantiate_resultsScoped q.goal hnone hscoped.2 g' ?_
    rw [hg?, hg']
  refine hpreferences.bind fun qs s' hs' hqs => Step.gives_pure ?_
  have ha' := ha.mono hs'.grows.scope_le
  exact ⟨ha'.durations, ha'.conditions, ha'.effects, ha'.numericConditions, ha'.numericEffects,
    hqs⟩

theorem groundMeasure_gives (m : Lifted.Measure) (s : State) :
    (groundMeasure p.task m).Gives s fun s' m' => m'.Scoped (s'.scope p.task K) := by
  cases m with
  | number x => exact Step.gives_pure trivial
  | totalTime => exact Step.gives_pure trivial
  | isViolated name =>
    exact (preferenceIndex_gives name s).bind fun i s' _ hi => Step.gives_pure ⟨name, hi⟩
  | fluent f as =>
    refine Step.gives_get_bind ?_
    split
    next v hv => exact Step.gives_pure (scope_of_names (names_of_find? hv))
    · exact Step.ensures_throw

/-- A grounded metric is scoped. -/
theorem groundMetric?_gives (metric : Option Lifted.Metric) (s : State) :
    Step.Gives (metric.mapM (groundMetric p.task)) s
      fun s' metric' => ∀ m ∈ metric', m.Scoped (s'.scope p.task K) := by
  have hstable : IsStable fun s (q : Measure) => q.Scoped (s.scope p.task K) :=
    fun _ _ _ hcreates hq => hq.mono hcreates.grows.scope_le
  cases metric with
  | none => exact Step.gives_pure fun m hm => by cases hm
  | some metric =>
    have hmetric : (groundMetric p.task metric).Gives s
        fun s' m => m.Scoped (s'.scope p.task K) :=
      (Step.gives_mapM_expression hstable groundMeasure_gives metric.expression s).bind
        fun e s' _ he => Step.gives_pure he
    refine hmetric.bind fun m s' _ hm => Step.gives_pure fun m' hm' => ?_
    cases hm'
    exact hm

/-- A task made from a state refers to what is in the state. -/
theorem State.scope_le_taskScope {t : Task} (htask : t.task = task)
    (hvars : t.vars = s.vars.entries)
    (hnames : t.preferenceNames = s.preferenceNames.entries.toList) :
    (s.scope task K).Le (taskScope K t) := by
  refine ⟨fun v ⟨entry, hv⟩ => ⟨entry, hvars ▸ hv⟩,
    fun v ⟨entry, hv, hK⟩ => ⟨entry, hvars ▸ hv, hK⟩, fun o ho => ?_, fun _ hf => hf,
    fun i ⟨name, hname⟩ => ⟨name, ?_⟩⟩
  · show o.index < t.task.objects.size
    rw [htask]
    exact ho
  · rw [hnames, Array.getElem?_toList]
    exact hname

/-- **Saturated tasks are scoped.** -/
theorem saturate_isScoped (hvalid : p.validate = .ok ())
    (hnonnumeric : ∀ f, p.task.isNumeric f = false → K f) (hliterals : HasLiterals K p) :
    (saturate p).Ensures {} fun t _ => IsScopedTask K t := by
  have hexplored := explore_isScoped hvalid hnonnumeric hliterals.preferences
  have hstable : IsStable fun s (a : Action) => a.Scoped (s.scope p.task K) :=
    fun _ _ _ hcreates ha => ha.mono hcreates.grows.scope_le
  have hreserved := two_le_size_objects hvalid
  have hnone : ∀ o ∈ ([] : List ObjectId), o.index < p.task.objects.size := fun o ho => by cases ho
  simp only [explore, Step.ensures_bind] at hexplored
  -- three phases of exploration, then actions, goals, constraints and the metric
  refine Step.ensures_bind.mpr (hexplored.mono fun _ _ h => ?_)
  refine Step.ensures_bind.mpr (h.mono fun _ _ h => ?_)
  refine Step.ensures_bind.mpr (h.mono fun _ s₁ h₁ => ?_)
  refine Step.ensures_bind.mpr (Step.ensures_get.mpr ?_)
  refine Step.ensures_bind.mpr (Step.Ensures.mono (Step.gives_mapM hstable fun a ha s' hs' =>
    resolveAction_gives (hstable _ _ _ hs' (h₁.actions a ha))) ?_)
  rintro actions s₂ ⟨h₂, hactions⟩
  refine Step.ensures_bind.mpr (Step.Ensures.mono (Step.gives_mapM hstable fun a ha s' hs' =>
    resolveAction_gives (hstable _ _ _ (h₂.trans hs') (h₁.goals a ha))) ?_)
  rintro goals s₃ ⟨h₃, hgoals⟩
  refine Step.ensures_bind.mpr (Step.Ensures.mono (collect_gives (constraint_scoped_isStable
    p.task K) fun c hc s' _ => groundConstraint_gives hnonnumeric hreserved c [] 0 s' hnone
      ((checks_of_valid hvalid).2.2.1 c hc) (hliterals.constraints c hc)) ?_)
  rintro constraints s₄ ⟨h₄, hconstraints⟩
  refine Step.ensures_bind.mpr (Step.Ensures.mono (groundMetric?_gives (K := K) _ s₄) ?_)
  rintro metric s₅ ⟨h₅, hmetric⟩
  refine Step.ensures_bind.mpr (Step.ensures_get.mpr (Step.ensures_pure.mpr ?_))
  have hle := State.scope_le_taskScope (s := s₅) (K := K) (t := ⟨p.task, s₅.vars.entries, actions,
    goals, s₅.preferenceNames.entries.toList, constraints, metric, ⟨s₅.levels.toList, 0, 0⟩⟩)
    rfl rfl rfl
  exact ⟨fun a ha => (hstable _ _ _ ((h₃.trans h₄).trans h₅) (hactions a ha)).mono hle,
    fun a ha => (hstable _ _ _ (h₄.trans h₅) (hgoals a ha)).mono hle,
    fun c hc => ((hconstraints c hc).mono h₅.grows.scope_le).mono hle,
    fun m hm => (hmetric m hm).mono hle⟩

end Saturation

end TemporalPlanning.Grounding
