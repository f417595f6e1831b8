import TemporalPlanning.Proofs.Grounding.Instances
import TemporalPlanning.Proofs.Grounding.Scope
/-!
What an action is made of.

Grounding an operator turns every condition, effect and bound into one over variables. What becomes
of them depends on the state only in so far as it decides which variable stands for which function
applied to objects, and as variables are never renamed, what is known of a part remains true. So an
action reads, part by part, what its operator says for the objects in question, whichever state it
has been grounded in and however long ago that was.
-/
set_option autoImplicit false

namespace TemporalPlanning

/-! ## Expressions with related leaves -/

namespace Expression

/-- Expressions of one shape whose leaves are related. -/
inductive Related {α β : Type} (R : α → β → Prop) : Expression α → Expression β → Prop
  | atom {a : α} {b : β} (h : R a b) : Related R (.atom a) (.atom b)
  | node {es : List (Expression α)} {es' : List (Expression β)} (op : Operation)
      (h : List.Forall₂ (Related R) es es') : Related R (.node op es) (.node op es')

variable {α β γ : Type} {R : α → β → Prop} {e : Expression α}

/-- A weaker relation of the leaves gives a weaker relation of the expressions. -/
theorem Related.imp {S : α → β → Prop} {e' : Expression β} (h : Related R e e')
    (hRS : ∀ a b, R a b → S a b) : Related S e e' := by
  induction e using operandsInduction generalizing e' with
  | atom a =>
    cases h with
    | atom h => exact .atom (hRS _ _ h)
  | node op es ih =>
    cases h with
    | node _ h =>
      exact .node op (((List.forall₂_and_left _ _).mpr ⟨ih, h⟩).imp fun _ _ ⟨ih, h⟩ => ih h)

/-- Every leaf is related to one. -/
theorem Related.exists_of_mem_atoms {e' : Expression β} (h : Related R e e') :
    ∀ a ∈ e.atoms, ∃ b, R a b := by
  induction e using operandsInduction generalizing e' with
  | atom a =>
    cases h with
    | atom h => exact forall_mem_atoms_atom.mpr ⟨_, h⟩
  | node op es ih =>
    cases h with
    | node _ h =>
      intro a ha
      obtain ⟨e, he, ha⟩ := mem_atoms_node.mp ha
      obtain ⟨e', -, he'⟩ := Grounding.exists_of_forall₂_left h he
      exact ih e he he' a ha

end Expression

namespace Grounding

open Grounded

/-! ## Results of attempts one by one -/

namespace Attempt

variable {α β γ : Type} {f : α → Attempt β} {P : α → State → β → Prop} {s : State}

theorem isStable_forall₂ (hP : ∀ a, IsStable (P a)) (as : List α) :
    IsStable fun s bs => List.Forall₂ (fun a b => P a s b) as bs :=
  fun s s' _ hcreates h => h.imp fun a b hab => hP a s s' b hcreates hab

theorem isStable_related (hP : ∀ a, IsStable (P a)) (e : Expression α) :
    IsStable fun s e' => Expression.Related (fun a b => P a s b) e e' :=
  fun s s' _ hcreates h => h.imp fun a b hab => hP a s s' b hcreates hab

/-- What attempts for the leaves of an expression give holds of the leaves of the result. -/
theorem gives_mapM_related (hP : ∀ a, IsStable (P a)) (h : ∀ a s, (f a).Gives s (P a))
    (e : Expression α) (s : State) :
    Gives (e.mapM f) s fun s' e' => Expression.Related (fun a b => P a s' b) e e' := by
  induction e using Expression.operandsInduction generalizing s with
  | atom a =>
    rw [Expression.mapM_atom, map_eq_pure_bind]
    exact (h a s).bind fun b s' _ hb => gives_pure (.atom hb)
  | node op es ih =>
    rw [Expression.mapM_node]
    refine (gives_mapM_forall₂ (isStable_related hP) fun e he s' _ => ih e he s').bind
      fun es' s' _ hes => gives_pure ?_
    exact .node op hes

end Attempt

/-! ## Naming -/

/-- Which variables stand for which functions applied to objects. -/
abbrev Naming := VarId → FunctionId → List ObjectId → Prop

namespace Naming

/-- Whatever one naming says, another one says as well. -/
def Le (N N' : Naming) : Prop := ∀ ⦃v f as⦄, N v f as → N' v f as

theorem le_of_creates {s s' : State} (h : s.Creates s') : Le s.Names s'.Names :=
  fun _ _ _ hv => hv.mono h

variable (N : Naming) (arguments : List ObjectId)

/-- A condition or effect asks for a value. -/
def Reads (c : Condition) (v : ReachedValue) : Prop :=
  N c.var v.function v.arguments ∧ c.value = v.value

/-- What a leaf of a numeric expression becomes. -/
inductive ReadsQuantity : Lifted.Quantity → Quantity → Prop
  | number (x : Float) : ReadsQuantity (.number x) (.number x)
  | term (t : Lifted.Term) : ReadsQuantity (.term t) (.object (denote arguments t))
  | fluent (l : Lifted.Literal) (v : VarId)
      (h : N v l.function (l.arguments.map (denote arguments))) : ReadsQuantity (.fluent l) (.var v)
  | duration : ReadsQuantity .duration .duration
  | elapsed : ReadsQuantity .elapsed .elapsed

/-- What a numeric expression becomes. -/
abbrev ReadsExpression := Expression.Related (N.ReadsQuantity arguments)

/-- What a numeric condition becomes. -/
structure ReadsNumericCondition (c : Lifted.NumericCondition) (d : NumericCondition) : Prop where
  comparator : d.comparator = c.comparator
  terms : List.Forall₂ (N.ReadsExpression arguments) c.operands d.terms

/-- What a numeric effect becomes that is no literal effect. -/
structure ReadsNumericEffect (e : Lifted.NumericEffect) (d : NumericEffect) : Prop where
  assignment : d.assignment = e.assignment
  var : N d.var e.fluent.function (e.fluent.arguments.map (denote arguments))
  expression : N.ReadsExpression arguments e.expression d.expression

/-- What a bound on the duration becomes. -/
structure ReadsDurationBound (b : Lifted.DurationBound) (d : DurationBound) : Prop where
  time : d.time = b.time
  comparator : d.comparator = b.comparator
  expression : N.ReadsExpression arguments b.expression d.expression

end Naming

/-- The values that the effects of one time point ask for, in order: those of the literal effects,
each of them once, and those that numeric effects assign. -/
def effectsOf (arguments : List ObjectId) (h : Lifted.Happening) : List ReachedValue :=
  (h.effects.map (instanceOf arguments)).eraseDups ++
    h.numericEffects.filterMap (assignedValue arguments)

/-- Of the changes only repetitions are dropped. -/
theorem mem_effectsOf {arguments : List ObjectId} {h : Lifted.Happening} {v : ReachedValue} :
    v ∈ effectsOf arguments h ↔ v ∈ changesOf arguments h := by
  rw [effectsOf, changesOf, List.mem_append, List.mem_append, List.mem_eraseDups]

namespace Naming

variable (N : Naming) (arguments : List ObjectId)

/-- What the conditions and effects of one time point become. -/
structure ReadsHappening (h : Lifted.Happening) (conditions : List Condition)
    (numericConditions : List NumericCondition) (effects : List Condition)
    (numericEffects : List NumericEffect) : Prop where
  conditions : List.Forall₂ (fun c d => N.Reads d (instanceOf arguments c)) h.conditions conditions
  numericConditions :
    List.Forall₂ (N.ReadsNumericCondition arguments) h.numericConditions numericConditions
  effects : List.Forall₂ N.Reads effects (effectsOf arguments h)
  numericEffects : List.Forall₂ (N.ReadsNumericEffect arguments)
    (h.numericEffects.filter fun e => assignedValue arguments e = none) numericEffects

/-- An action reads what an operator says for its arguments. -/
structure ReadsAction (op : Lifted.Operator) (a : Action) : Prop where
  arguments_eq : a.arguments = arguments
  isGoal_eq : a.isGoal = op.isGoal
  atStart : N.ReadsHappening arguments op.atStart a.startConditions a.startNumericConditions
    a.startEffects a.startNumericEffects
  invariants : List.Forall₂ (fun c d => N.Reads d (instanceOf arguments c)) op.invariants
    a.invariants
  numericInvariants : List.Forall₂ (N.ReadsNumericCondition arguments) op.numericInvariants
    a.numericInvariants
  atEnd : N.ReadsHappening arguments op.atEnd a.endConditions a.endNumericConditions a.endEffects
    a.endNumericEffects
  durations : List.Forall₂ (N.ReadsDurationBound arguments) op.durations a.durations

variable {N arguments} {N' : Naming} (hle : N.Le N')
include hle

/-- What has been read for a naming is read the same if more is named. -/
theorem Reads.mono {c : Condition} {v : ReachedValue} (h : N.Reads c v) : N'.Reads c v :=
  ⟨hle h.1, h.2⟩

theorem ReadsQuantity.mono {q : Lifted.Quantity} {q' : Quantity}
    (h : N.ReadsQuantity arguments q q') : N'.ReadsQuantity arguments q q' := by
  cases h with
  | number x => exact .number x
  | term t => exact .term t
  | fluent l v h => exact .fluent l v (hle h)
  | duration => exact .duration
  | elapsed => exact .elapsed

theorem ReadsExpression.mono {e : Expression Lifted.Quantity} {e' : Expression Quantity}
    (h : N.ReadsExpression arguments e e') : N'.ReadsExpression arguments e e' :=
  h.imp fun _ _ hq => hq.mono hle

theorem ReadsNumericCondition.mono {c : Lifted.NumericCondition} {d : NumericCondition}
    (h : N.ReadsNumericCondition arguments c d) : N'.ReadsNumericCondition arguments c d :=
  ⟨h.comparator, h.terms.imp fun _ _ he => ReadsExpression.mono hle he⟩

theorem ReadsNumericEffect.mono {e : Lifted.NumericEffect} {d : NumericEffect}
    (h : N.ReadsNumericEffect arguments e d) : N'.ReadsNumericEffect arguments e d :=
  ⟨h.assignment, hle h.var, ReadsExpression.mono hle h.expression⟩

theorem ReadsDurationBound.mono {b : Lifted.DurationBound} {d : DurationBound}
    (h : N.ReadsDurationBound arguments b d) : N'.ReadsDurationBound arguments b d :=
  ⟨h.time, h.comparator, ReadsExpression.mono hle h.expression⟩

/-- A happening keeps its reading while variables are created. -/
theorem ReadsHappening.mono {h : Lifted.Happening} {cs es : List Condition}
    {ncs : List NumericCondition} {nes : List NumericEffect}
    (hh : N.ReadsHappening arguments h cs ncs es nes) :
    N'.ReadsHappening arguments h cs ncs es nes where
  conditions := hh.conditions.imp fun _ _ h => h.mono hle
  numericConditions := hh.numericConditions.imp fun _ _ h => h.mono hle
  effects := hh.effects.imp fun _ _ h => h.mono hle
  numericEffects := hh.numericEffects.imp fun _ _ h => h.mono hle

/-- So an action keeps its reading until grounding ends. -/
theorem ReadsAction.mono {op : Lifted.Operator} {a : Action} (h : N.ReadsAction arguments op a) :
    N'.ReadsAction arguments op a where
  arguments_eq := h.arguments_eq
  isGoal_eq := h.isGoal_eq
  atStart := h.atStart.mono hle
  invariants := h.invariants.imp fun _ _ h => h.mono hle
  numericInvariants := h.numericInvariants.imp fun _ _ h => h.mono hle
  atEnd := h.atEnd.mono hle
  durations := h.durations.imp fun _ _ h => h.mono hle

end Naming

/-! ## What the parts of an operator give -/

section Parts

variable (task : Lifted.Task) (arguments : List ObjectId)

theorem existingVariable_names (f : FunctionId) (as : List ObjectId) (s : State) :
    (existingVariable f as).Gives s fun s' v => s'.Names v f as := by
  refine Attempt.ensures_bind.mpr (Attempt.ensures_step.mpr (Step.ensures_get.mpr ?_))
  exact Step.ensures_pure.mpr ⟨.refl s, fun v hv => names_of_find? hv⟩

/-- What holds of whatever a term or a list of terms denotes. -/
theorem bindAll_gives (ts : List Lifted.Term) (s : State) :
    Attempt.Gives (liftM (bindAll arguments ts)) s fun _ os => os = ts.map (denote arguments) :=
  Attempt.gives_lift fun _ hos => (bindAll_eq_ok hos).symm

theorem bind_gives (t : Lifted.Term) (s : State) :
    Attempt.Gives (liftM (bind arguments t)) s fun _ o => o = denote arguments t :=
  Attempt.gives_lift fun _ ho => (bind_eq_ok ho).symm

theorem isStable_readsQuantity (q : Lifted.Quantity) :
    IsStable fun s q' => Naming.ReadsQuantity s.Names arguments q q' :=
  fun _ _ _ hcreates h => h.mono (Naming.le_of_creates hcreates)

theorem isStable_readsExpression (e : Expression Lifted.Quantity) :
    IsStable fun s e' => Naming.ReadsExpression s.Names arguments e e' :=
  fun _ _ _ hcreates h => Naming.ReadsExpression.mono (Naming.le_of_creates hcreates) h

/-- A condition reads its instance. -/
theorem groundFluent_reads (c : Lifted.Fluent) (s : State) :
    Attempt.Gives (liftM (groundFluent task arguments c)) s
      fun s' d => Naming.Reads s'.Names d (instanceOf arguments c) :=
  Attempt.gives_step (groundFluent_ensures task arguments c s)

/-- Terms become objects and functions the variables they name. -/
theorem groundQuantity_reads (q : Lifted.Quantity) (s : State) :
    (groundQuantity arguments q).Gives s fun s' q' => Naming.ReadsQuantity s'.Names arguments q q' := by
  cases q with
  | number x => exact Attempt.gives_pure (.number x)
  | duration => exact Attempt.gives_pure .duration
  | elapsed => exact Attempt.gives_pure .elapsed
  | term t =>
    refine (bind_gives arguments t s).bind fun o s' _ ho => Attempt.gives_pure ?_
    rw [ho]
    exact .term t
  | fluent l =>
    refine (bindAll_gives arguments l.arguments s).bind fun os s' _ hos => ?_
    rw [hos]
    exact (existingVariable_names _ _ s').bind fun v s'' _ hv => Attempt.gives_pure (.fluent l v hv)

theorem groundExpression_reads (e : Expression Lifted.Quantity) (s : State) :
    (groundExpression arguments e).Gives s
      fun s' e' => Naming.ReadsExpression s'.Names arguments e e' :=
  Attempt.gives_mapM_related (isStable_readsQuantity arguments) (groundQuantity_reads arguments) e s

theorem groundNumericCondition_reads (c : Lifted.NumericCondition) (s : State) :
    (groundNumericCondition arguments c).Gives s
      fun s' d => Naming.ReadsNumericCondition s'.Names arguments c d :=
  (Attempt.gives_mapM_forall₂ (isStable_readsExpression arguments)
    fun e _ s' _ => groundExpression_reads arguments e s').bind fun _ _ _ hterms =>
      Attempt.gives_pure ⟨rfl, hterms⟩

theorem groundDuration_reads (b : Lifted.DurationBound) (s : State) :
    (groundDuration arguments b).Gives s
      fun s' d => Naming.ReadsDurationBound s'.Names arguments b d :=
  (groundExpression_reads arguments b.expression s).bind fun _ _ _ he =>
    Attempt.gives_pure ⟨rfl, rfl, he⟩

/-- The literal effects of one time point are what is asked for, each value once, and do not
contradict each other. -/
theorem groundEffects_reads (fluents : List Lifted.Fluent) (s : State) :
    (groundEffects task arguments fluents []).Gives s fun s' es =>
      List.Forall₂ (Naming.Reads s'.Names) es (fluents.map (instanceOf arguments)).eraseDups ∧
        ¬Contradictory (fluents.map (instanceOf arguments)) := by
  have hempty : ¬Contradictory [] := fun ⟨v, hv, _⟩ => by cases hv
  have hnone : List.Forall₂ s.Reads [] (List.eraseDups []) := .nil
  refine (groundEffects_ensures task arguments hnone hempty).mono ?_
  rintro es? s' ⟨hcreates, hes⟩
  refine ⟨hcreates, fun es h => ?_⟩
  subst h
  exact hes

/-- What a numeric effect becomes: one that assigns a term is a literal effect, all others are
numeric ones. -/
def Naming.ReadsChange (N : Naming) (e : Lifted.NumericEffect) (r : Condition ⊕ NumericEffect) :
    Prop :=
  match assignedValue arguments e with
  | some v => ∃ c, r = .inl c ∧ N.Reads c v
  | none => ∃ d, r = .inr d ∧ N.ReadsNumericEffect arguments e d

theorem isStable_readsChange (e : Lifted.NumericEffect) :
    IsStable fun s r => Naming.ReadsChange arguments s.Names e r := by
  intro s s' r hcreates h
  have hle := Naming.le_of_creates hcreates
  unfold Naming.ReadsChange at h ⊢
  split at h
  · exact h.imp fun _ ⟨hr, hc⟩ => ⟨hr, hc.mono hle⟩
  · exact h.imp fun _ ⟨hr, hd⟩ => ⟨hr, hd.mono hle⟩

/-- An effect becomes a condition if it assigns a term, and a numeric effect otherwise. -/
theorem groundNumericEffect_reads (e : Lifted.NumericEffect) (s : State) :
    (groundNumericEffect arguments e).Gives s
      fun s' r => Naming.ReadsChange arguments s'.Names e r := by
  refine (bindAll_gives arguments e.fluent.arguments s).bind fun os s₁ _ hos => ?_
  rw [hos]
  refine (existingVariable_names _ _ s₁).bind fun v s₂ _ hv => ?_
  split
  -- an assignment of a term: the object is bound only after the variable has been found
  next t hassignment hexpression =>
    refine (bind_gives arguments t s₂).bind fun o s₃ h₃ ho => Attempt.gives_pure ?_
    rw [Naming.ReadsChange, assignedValue, hassignment, hexpression]
    exact ⟨_, rfl, hv.mono h₃, ho⟩
  next hother =>
    refine (groundExpression_reads arguments e.expression s₂).bind fun e' s₃ h₃ he =>
      Attempt.gives_pure ?_
    rw [Naming.ReadsChange, assignedValue_eq_none hother]
    exact ⟨_, rfl, rfl, hv.mono h₃, he⟩

variable {arguments}

/-- The effects that have become conditions are those that assign terms. -/
theorem reads_literalEffects {N : Naming} {es : List Lifted.NumericEffect}
    {rs : List (Condition ⊕ NumericEffect)} (h : List.Forall₂ (N.ReadsChange arguments) es rs) :
    List.Forall₂ N.Reads (literalEffects rs) (es.filterMap (assignedValue arguments)) := by
  induction h with
  | nil => exact .nil
  | @cons e r es rs hhead _ ih =>
    rw [List.filterMap_cons]
    unfold Naming.ReadsChange at hhead
    split at hhead
    next v hassigned =>
      obtain ⟨c, rfl, hc⟩ := hhead
      rw [hassigned]
      exact .cons hc ih
    next hassigned =>
      obtain ⟨d, rfl, -⟩ := hhead
      rw [hassigned]
      exact ih

/-- The others remain numeric effects. -/
theorem reads_numericEffects {N : Naming} {es : List Lifted.NumericEffect}
    {rs : List (Condition ⊕ NumericEffect)} (h : List.Forall₂ (N.ReadsChange arguments) es rs) :
    List.Forall₂ (N.ReadsNumericEffect arguments)
      (es.filter fun e => assignedValue arguments e = none) (numericEffects rs) := by
  induction h with
  | nil => exact .nil
  | @cons e r es rs hhead _ ih =>
    rw [List.filter_cons]
    unfold Naming.ReadsChange at hhead
    split at hhead
    next v hassigned =>
      obtain ⟨c, rfl, -⟩ := hhead
      rw [hassigned]
      exact ih
    next hassigned =>
      obtain ⟨d, rfl, hd⟩ := hhead
      rw [hassigned]
      exact .cons hd ih

end Parts

/-! ## Variables that an action mentions -/

namespace Naming

variable {N : Naming} {arguments : List ObjectId}

variable (N arguments) in
/-- The variable of a function applied to terms exists. -/
def Has (l : Lifted.Literal) : Prop := ∃ v, N v l.function (l.arguments.map (denote arguments))

/-- An expression that has been read has a variable for each function in it. -/
theorem ReadsExpression.has {e : Expression Lifted.Quantity} {e' : Expression Quantity}
    (h : N.ReadsExpression arguments e e') : ∀ l ∈ readsOf e, N.Has arguments l := by
  intro l hl
  obtain ⟨q, hq, hl⟩ := List.mem_filterMap.mp hl
  obtain ⟨q', hq'⟩ := h.exists_of_mem_atoms q hq
  cases hq' with
  | fluent l' v h =>
    cases hl
    exact ⟨v, h⟩
  | number | term | duration | elapsed => cases hl

theorem ReadsNumericCondition.has {c : Lifted.NumericCondition} {d : NumericCondition}
    (h : N.ReadsNumericCondition arguments c d) :
    ∀ e ∈ c.operands, ∀ l ∈ readsOf e, N.Has arguments l := by
  intro e he
  obtain ⟨e', -, he'⟩ := exists_of_forall₂_left h.terms he
  exact ReadsExpression.has he'

/-- Numeric effects write variables and read them, unless they assign a term. -/
theorem ReadsHappening.has {h : Lifted.Happening} {cs es : List Condition}
    {ncs : List NumericCondition} {nes : List NumericEffect}
    (hh : N.ReadsHappening arguments h cs ncs es nes) {e : Lifted.NumericEffect}
    (he : e ∈ h.numericEffects) :
    N.Has arguments e.fluent ∧ ∀ l ∈ readsOf e.expression, N.Has arguments l := by
  cases hassigned : assignedValue arguments e with
  | none =>
    obtain ⟨d, -, hd⟩ := exists_of_forall₂_left hh.numericEffects
      (List.mem_filter.mpr ⟨he, decide_eq_true hassigned⟩)
    exact ⟨⟨d.var, hd.var⟩, ReadsExpression.has hd.expression⟩
  | some v =>
    -- an assigned value is among the effects of the happening, and those have variables
    have hv : v ∈ effectsOf arguments h :=
      List.mem_append_right _ (List.mem_filterMap.mpr ⟨e, he, hassigned⟩)
    obtain ⟨c, -, hc⟩ := exists_of_forall₂ hh.effects hv
    obtain ⟨t, hexpression, rfl⟩ := exists_of_assignedValue hassigned
    refine ⟨⟨c.var, hc.1⟩, fun l hl => ?_⟩
    rw [hexpression] at hl
    cases hl

/-- **Whatever the numeric parts of an action read or write exists.** -/
theorem ReadsAction.has {op : Lifted.Operator} {a : Action} (h : N.ReadsAction arguments op a) :
    ∀ l ∈ numericLiterals op, N.Has arguments l := by
  have hconditions : ∀ c ∈ op.atStart.numericConditions ++ op.numericInvariants ++
      op.atEnd.numericConditions, ∀ e ∈ c.operands, ∀ l ∈ readsOf e, N.Has arguments l := by
    -- the three lists of conditions are read like one
    have hall := List.rel_append (List.rel_append h.atStart.numericConditions h.numericInvariants)
      h.atEnd.numericConditions
    intro c hc
    obtain ⟨d, -, hd⟩ := exists_of_forall₂_left hall hc
    exact hd.has
  have heffects : ∀ e ∈ op.atStart.numericEffects ++ op.atEnd.numericEffects,
      N.Has arguments e.fluent ∧ ∀ l ∈ readsOf e.expression, N.Has arguments l := fun e he =>
    (List.mem_append.mp he).elim h.atStart.has h.atEnd.has
  intro l hl
  rcases List.mem_append.mp hl with hl | hl
  · obtain ⟨e, he, hl⟩ := List.mem_flatMap.mp hl
    rw [expressionsOf, List.append_assoc, List.mem_append, List.mem_append] at he
    rcases he with he | he | he
    · obtain ⟨c, hc, he⟩ := List.mem_flatMap.mp he
      exact hconditions c hc e he l hl
    · obtain ⟨e', he', rfl⟩ := List.mem_map.mp he
      exact (heffects e' he').2 l hl
    · obtain ⟨b, hb, rfl⟩ := List.mem_map.mp he
      obtain ⟨d, -, hd⟩ := exists_of_forall₂_left h.durations hb
      exact ReadsExpression.has hd.expression l hl
  · obtain ⟨e, he, rfl⟩ := List.mem_map.mp hl
    exact (heffects e he).1

end Naming

/-! ## Actions -/

section Actions

variable {task : Lifted.Task} {arguments : List ObjectId} {s : State}

theorem Naming.ReadsHappening.represents {h : Lifted.Happening} {cs es : List Condition}
    {ncs : List NumericCondition} {nes : List NumericEffect}
    (hh : ReadsHappening s.Names arguments h cs ncs es nes) :
    s.Represents es (changesOf arguments h) :=
  (represents_of_forall₂ hh.effects).congr fun _ => mem_effectsOf

/-- The effects of an action ask for what the instance changes. -/
theorem Naming.ReadsAction.represents {op : Lifted.Operator} {a : Action}
    (h : ReadsAction s.Names arguments op a) :
    s.Represents a.effects (Instance.changes op arguments) :=
  h.atStart.represents.append h.atEnd.represents

variable (task arguments)

/-- **An operator becomes an action that reads what the operator says**, if it becomes one at all,
and then its effects do not contradict each other. -/
theorem groundOperator_reads (schema : Schema) (name : String) (s : State) :
    (groundOperator task arguments schema name).Gives s fun s' a =>
      (a.name = name ∧ a.operator = schema.index) ∧
        ¬Instance.IsDiscarded schema.operator arguments ∧
        Naming.ReadsAction s'.Names arguments schema.operator a := by
  have hle : ∀ {s s' : State}, s.Creates s' → Naming.Le s.Names s'.Names := Naming.le_of_creates
  -- conditions at start, over all and at end
  refine Attempt.gives_bind_stages
    (Attempt.isStable_forall₂ fun c _ _ _ h hd => hd.mono (hle h))
    (fun cs _ s' _ => Attempt.gives_mapM_forall₂ (fun c _ _ _ h hd => hd.mono (hle h))
      fun c _ s' _ => groundFluent_reads task arguments c s') ?_
  intro startConditions invariants endConditions s₁ _ hstart hinvariants hend
  refine Attempt.gives_bind_stages
    (Attempt.isStable_forall₂ fun c _ _ _ h hd => hd.mono (hle h))
    (fun cs _ s' _ => Attempt.gives_mapM_forall₂ (fun c _ _ _ h hd => hd.mono (hle h))
      fun c _ s' _ => groundNumericCondition_reads arguments c s') ?_
  intro startNumeric numericInvariants endNumeric s₂ h₂ hstartNumeric hnumericInvariants hendNumeric
  -- literal effects, and numeric ones that may turn out to be literal
  refine Attempt.gives_bind_both (f := fun fluents => groundEffects task arguments fluents [])
    (fun _ _ _ _ h hes => ⟨hes.1.imp fun _ _ he => he.mono (hle h), hes.2⟩)
    (fun fluents _ s' _ => groundEffects_reads task arguments fluents s') ?_
  intro startEffects endEffects s₃ h₃ hstartEffects hendEffects
  refine Attempt.gives_bind_both
    (Attempt.isStable_forall₂ (isStable_readsChange arguments))
    (fun es _ s' _ => Attempt.gives_mapM_forall₂ (isStable_readsChange arguments)
      fun e _ s' _ => groundNumericEffect_reads arguments e s') ?_
  intro startChanges endChanges s₄ h₄ hstartChanges hendChanges
  -- preferences and bounds
  have hpreferences : Attempt.Gives (schema.operator.preferences.mapM fun q =>
      (groundPreference task arguments q : Step _)) s₄ fun _ _ => True :=
    Attempt.Ensures.mono (groundPreferences_yields task _ s₄)
      fun _ _ ⟨_, _, hcreates⟩ => ⟨hcreates, fun _ _ => trivial⟩
  refine hpreferences.bind fun preferences s₅ h₅ _ => ?_
  refine (Attempt.gives_mapM_forall₂ (fun b _ _ _ h hd => hd.mono (hle h))
    fun b _ s' _ => groundDuration_reads arguments b s').bind fun durations s₆ h₆ hdurations =>
      Attempt.gives_pure ?_
  -- what was read in an earlier state is read in the last one
  have ht₄ := h₅.trans h₆
  have ht₃ := h₄.trans ht₄
  have ht₂ := h₃.trans ht₃
  have ht₁ := h₂.trans ht₂
  have hchanges : ∀ {es rs}, List.Forall₂ (Naming.ReadsChange arguments s₄.Names) es rs →
      List.Forall₂ (Naming.ReadsChange arguments s₆.Names) es rs := fun h =>
    Attempt.isStable_forall₂ (isStable_readsChange arguments) _ _ _ _ ht₄ h
  refine ⟨⟨rfl, rfl⟩, fun h => h.elim hstartEffects.2 hendEffects.2, rfl, rfl, ⟨?_, ?_, ?_, ?_⟩,
    ?_, ?_, ⟨?_, ?_, ?_, ?_⟩, hdurations⟩
  · exact hstart.imp fun _ _ h => h.mono (hle ht₁)
  · exact hstartNumeric.imp fun _ _ h => h.mono (hle ht₂)
  · exact List.rel_append (hstartEffects.1.imp fun _ _ h => h.mono (hle ht₃))
      (reads_literalEffects (hchanges hstartChanges))
  · exact reads_numericEffects (hchanges hstartChanges)
  · exact hinvariants.imp fun _ _ h => h.mono (hle ht₁)
  · exact hnumericInvariants.imp fun _ _ h => h.mono (hle ht₂)
  · exact hend.imp fun _ _ h => h.mono (hle ht₁)
  · exact hendNumeric.imp fun _ _ h => h.mono (hle ht₂)
  · exact List.rel_append (hendEffects.1.imp fun _ _ h => h.mono (hle ht₃))
      (reads_literalEffects (hchanges hendChanges))
  · exact reads_numericEffects (hchanges hendChanges)

end Actions

end Grounding

end TemporalPlanning
