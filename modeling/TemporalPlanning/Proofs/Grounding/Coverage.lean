import Mathlib.Logic.Relation
import TemporalPlanning.Proofs.Grounding.SemiNaive
/-!
Runs of a lifted problem, and the actions that grounding finds.

Instances of ordinary operators are executed one after the other. A function applied to objects has
a value once a fact or an effect has given it one, and from then on it always has some value. A
predicate without a value counts as false. The closure knows the values that facts and effects give,
so a run stays within it as long as each instance meets its conditions at start and over all by
such values: conditions that ask for falsity as a constant do not need one, except for an operator
that has no other conditions. Every instance on such a run is among the grounded actions. Falsity
that no fact or effect has established is not enough otherwise, and then an instance can be missing.
-/
set_option autoImplicit false

namespace TemporalPlanning.Lifted

open Grounding Instance

/-! ## Valuations -/

/-- The objects that functions applied to objects have as their values. -/
abbrev Valuation := Values (FunctionId × List ObjectId) ObjectId

namespace Valuation

variable (x : Valuation)

/-- A function applied to objects has been given a value. -/
def Has (v : ReachedValue) : Prop := x (v.function, v.arguments) = some v.value

instance (v : ReachedValue) : Decidable (x.Has v) := inferInstanceAs (Decidable (_ = _))

/-- Functions applied to objects receive values in the order of a list. -/
def apply (vs : List ReachedValue) : Valuation :=
  x.assign (vs.map fun v => ((v.function, v.arguments), v.value))

/-- A value has been received or was there before. -/
theorem Has.of_apply {vs : List ReachedValue} {w : ReachedValue} (h : (x.apply vs).Has w) :
    w ∈ vs ∨ x.Has w := by
  rcases x.assign_eq_some h with hmem | ⟨-, hval⟩
  · obtain ⟨v, hv, hpair⟩ := List.mem_map.mp hmem
    rw [Prod.mk.injEq, Prod.mk.injEq] at hpair
    obtain rfl : v = w := ReachedValue.ext hpair.1.1 hpair.1.2 hpair.2
    exact Or.inl hv
  · exact Or.inr hval

end Valuation

/-! ## Executing instances of operators -/

/-- A function applied to objects has a value. A predicate without a value is false. -/
def Task.Holds (task : Task) (x : Valuation) (v : ReachedValue) : Prop :=
  x.Has v ∨
    (x (v.function, v.arguments) = none ∧ task.isPredicate v.function = true ∧ v.value = .falsity)

instance (task : Task) (x : Valuation) (v : ReachedValue) : Decidable (task.Holds x v) :=
  inferInstanceAs (Decidable (_ ∨ _))

/-- The values that the literal effects of one time point give. -/
def Happening.changes (h : Happening) (as : List ObjectId) : List ReachedValue :=
  h.effects.map (instanceOf as)

/-- An instance of an operator can be executed in a valuation and leads to another one. -/
structure Operator.Executes (task : Task) (op : Operator) (as : List ObjectId) (x y : Valuation) :
    Prop where
  admissible : IsAdmissible (Setting.ofTask task) op as
  identities : RespectsIdentities op as
  /-- No list of effects gives a function two values. -/
  kept : ¬IsDiscarded op as
  /-- Conditions at start and over all hold before the effects at start. -/
  before : ∀ c ∈ preconditions op, task.Holds x (instanceOf as c)
  /-- Conditions over all and at end hold after them. -/
  between : ∀ c ∈ op.invariants ++ op.atEnd.conditions,
    task.Holds (x.apply (op.atStart.changes as)) (instanceOf as c)
  after : y = (x.apply (op.atStart.changes as)).apply (op.atEnd.changes as)

/-- The valuation before the first action: a function has one of the objects that the facts give it
for time zero, and none if there is no such object. -/
structure Task.IsInitial (task : Task) (x : Valuation) : Prop where
  sound : ∀ v, x.Has v → ∃ fact ∈ task.init, fact.value = .object v.value ∧
    fact.function = v.function ∧ fact.arguments = v.arguments ∧ (fact.time == 0.0) = true
  complete : ∀ fact ∈ task.init, ∀ o, fact.value = .object o → (fact.time == 0.0) = true →
    (x (fact.function, fact.arguments)).isSome = true

/-- The valuation before the first action in which the first fact about a function counts. -/
def Task.initial (task : Task) : Valuation := fun (f, as) => task.init.findSome? fun fact =>
  if fact.function = f ∧ fact.arguments = as ∧ (fact.time == 0.0) = true then fact.value.object?
  else none

theorem Task.isInitial_initial (task : Task) : task.IsInitial task.initial := by
  refine ⟨fun v hv => ?_, fun fact hfact o ho htime => ?_⟩
  · obtain ⟨fact, hfact, hvalue⟩ := List.exists_of_findSome?_eq_some hv
    split at hvalue
    next hmatch =>
      refine ⟨fact, hfact, ?_, hmatch⟩
      cases hfactValue : fact.value with
      | number x =>
        rw [hfactValue] at hvalue
        cases hvalue
      | object o =>
        rw [hfactValue] at hvalue
        cases hvalue
        rfl
    · cases hvalue
  · rw [Task.initial, List.findSome?_isSome_iff]
    exact ⟨fact, hfact, by rw [if_pos ⟨rfl, rfl, htime⟩, ho]; rfl⟩

/-- An instance of the ordinary operator at a position is executed. -/
def Problem.Executes (p : Problem) (i : Nat) (as : List ObjectId) (x y : Valuation) : Prop :=
  ∃ op, p.operators[i]? = some op ∧ op.isGoal = false ∧ op.Executes p.task as x y

/-- Given values meet the conditions at start and over all of an instance: all that do not ask for
falsity as a constant, or, if all do, at least one. -/
def Problem.IsSupported (p : Problem) (i : Nat) (as : List ObjectId) (x : Valuation) : Prop :=
  ∀ op, p.operators[i]? = some op → IsMatched op as x.Has

/-- Some supported instance leads from one valuation to another. -/
def Problem.SupportedStep (p : Problem) (x y : Valuation) : Prop :=
  ∃ i as, p.IsSupported i as x ∧ p.Executes i as x y

/-- Operators have no numeric conditions and effects, and their bounds read no functions. -/
structure Operator.IsNonNumeric (op : Operator) : Prop where
  conditions :
    op.atStart.numericConditions ++ op.numericInvariants ++ op.atEnd.numericConditions = []
  effects : op.atStart.numericEffects ++ op.atEnd.numericEffects = []
  durations : ∀ d ∈ op.durations, readsOf d.expression = []

/-! ## Deciding whether an instance can be executed -/

section Decidability

variable (setting : Setting) (task : Task) (op : Operator) (as : List ObjectId) (x : Valuation)

instance (v w : ReachedValue) : Decidable (Conflicting v w) :=
  inferInstanceAs (Decidable (_ ∧ _ ∧ _))

instance (vs : List ReachedValue) : Decidable (Contradictory vs) :=
  inferInstanceAs (Decidable (∃ v ∈ vs, ∃ w ∈ vs, Conflicting v w))

instance : Decidable (IsDiscarded op as) := inferInstanceAs (Decidable (_ ∨ _))

instance : Decidable (IsAdmissible setting op as) :=
  inferInstanceAs (Decidable (List.Forall₂ _ _ _))

instance : Decidable (RespectsIdentities op as) :=
  inferInstanceAs (Decidable (∀ i ∈ op.identities, _))

/-- The valuation in which an instance leaves another one. -/
def Operator.result : Valuation := (x.apply (op.atStart.changes as)).apply (op.atEnd.changes as)

instance : Decidable (op.Executes task as x (op.result as x)) :=
  decidable_of_iff (IsAdmissible (Setting.ofTask task) op as ∧ RespectsIdentities op as ∧
      ¬IsDiscarded op as ∧ (∀ c ∈ preconditions op, task.Holds x (instanceOf as c)) ∧
      ∀ c ∈ op.invariants ++ op.atEnd.conditions,
        task.Holds (x.apply (op.atStart.changes as)) (instanceOf as c))
    ⟨fun ⟨h₁, h₂, h₃, h₄, h₅⟩ => ⟨h₁, h₂, h₃, h₄, h₅, rfl⟩,
      fun h => ⟨h.admissible, h.identities, h.kept, h.before, h.between⟩⟩

instance (R : ReachedValue → Prop) [DecidablePred R] : Decidable (IsMatched op as R) :=
  inferInstanceAs (Decidable (_ ∨ _ ∧ (_ → _)))

instance : Decidable op.IsNonNumeric :=
  decidable_of_iff ((op.atStart.numericConditions ++ op.numericInvariants ++
      op.atEnd.numericConditions).isEmpty = true ∧
      (op.atStart.numericEffects ++ op.atEnd.numericEffects).isEmpty = true ∧
      ∀ d ∈ op.durations, readsOf d.expression = [])
    ⟨fun ⟨h₁, h₂, h₃⟩ => ⟨List.isEmpty_iff.mp h₁, List.isEmpty_iff.mp h₂, h₃⟩,
      fun h => ⟨List.isEmpty_iff.mpr h.conditions, List.isEmpty_iff.mpr h.effects, h.durations⟩⟩

end Decidability

end TemporalPlanning.Lifted

namespace TemporalPlanning.Grounding

open Grounded Lifted Instance

variable {p : Problem}

/-! ## Runs stay within the closure -/

/-- The values of a valuation belong to some level. -/
def IsCovered (p : Problem) (x : Lifted.Valuation) : Prop := ∃ k, ∀ v, x.Has v → closure p k v

theorem isCovered_of_isInitial {x : Lifted.Valuation} (h : p.task.IsInitial x) : IsCovered p x := by
  refine ⟨0, fun v hv => ?_⟩
  obtain ⟨fact, hfact, hvalue, hf, has, -⟩ := h.sound v hv
  exact ⟨fact, hfact, hvalue, hf, has⟩

/-- A supported instance that can be executed is enabled by a level that covers the valuation. -/
theorem isEnabled_of_executes {k : Nat} {x y : Lifted.Valuation}
    (hk : ∀ v, x.Has v → closure p k v) {op : Operator} {as : List ObjectId}
    (hmatched : IsMatched op as x.Has) (h : op.Executes p.task as x y) :
    IsEnabled (Setting.ofTask p.task) op as (closure p k) :=
  ⟨h.admissible, h.identities, hmatched.mono hk⟩

/-- Literal effects are among the changes of an instance. -/
theorem mem_changes {op : Operator} {as : List ObjectId} {v : ReachedValue}
    (hv : v ∈ op.atStart.changes as ∨ v ∈ op.atEnd.changes as) : v ∈ Instance.changes op as := by
  rcases hv with hv | hv
  · exact List.mem_append_left _ (List.mem_append_left _ hv)
  · exact List.mem_append_right _ (List.mem_append_left _ hv)

/-- Executing a supported instance leads from covered valuations to covered ones. -/
theorem IsCovered.step {x y : Lifted.Valuation} (hx : IsCovered p x) (h : p.SupportedStep x y) :
    IsCovered p y := by
  obtain ⟨i, as, hsupported, op, hi, -, hexec⟩ := h
  obtain ⟨k, hk⟩ := hx
  have henabled := isEnabled_of_executes hk (hsupported op hi) hexec
  have heffect : ∀ v, v ∈ op.atStart.changes as ∨ v ∈ op.atEnd.changes as → closure p (k + 1) v :=
    fun v hv => Or.inr
      ⟨op, List.mem_of_getElem? hi, as, henabled, hexec.kept, mem_changes hv⟩
  refine ⟨k + 1, fun v hv => ?_⟩
  -- it is an effect at end, an effect at start, or was there before
  rw [hexec.after] at hv
  rcases Valuation.Has.of_apply _ hv with hv | hv
  · exact heffect v (Or.inr hv)
  · rcases Valuation.Has.of_apply _ hv with hv | hv
    · exact heffect v (Or.inl hv)
    · exact Or.inl (hk v hv)

/-- Supported runs stay within the closure. -/
theorem isCovered_of_run {x₀ x : Lifted.Valuation} (hinit : p.task.IsInitial x₀)
    (hrun : Relation.ReflTransGen p.SupportedStep x₀ x) : IsCovered p x := by
  induction hrun with
  | refl => exact isCovered_of_isInitial hinit
  | tail _ hstep ih => exact ih.step hstep

/-! ## What grounding keeps -/

theorem numericLiterals_eq_nil {op : Operator} (h : op.IsNonNumeric) : numericLiterals op = [] := by
  have heffects := h.effects
  have hdurations : (op.durations.map (·.expression)).flatMap readsOf = [] := by
    rw [List.flatMap_eq_nil_iff]
    intro e he
    obtain ⟨d, hd, rfl⟩ := List.mem_map.mp he
    exact h.durations d hd
  rw [numericLiterals, expressionsOf, h.conditions, heffects]
  simpa using hdurations

theorem hasNumericFacts_of_isNonNumeric (h : ∀ op ∈ p.operators, op.IsNonNumeric) :
    HasNumericFacts p := by
  intro op hop as _ literal hliteral
  rw [numericLiterals_eq_nil (h op hop)] at hliteral
  cases hliteral

/-- Goals and ordinary actions of a saturated task are what they say they are. -/
theorem IsResult.isGenuine {s s' : State} {t : Grounded.Task} (h : IsResult p s s' t)
    (hfound : ∀ b, ∀ a ∈ (s.found b).toList, IsGenuine p s a) (b : Bool) :
    ∀ a ∈ actionsOf t b, IsGenuine p s' a := by
  intro a ha
  obtain ⟨a', ha', hsame⟩ := exists_of_forall₂ (h.forall₂ b) ha
  -- preferences are not among the things an action must get right
  obtain ⟨op, hop, hinstance⟩ := (hfound b a' ha').imp fun _ _ hreads =>
    hreads.mono h.creates.toCreates
  rw [hsame]
  exact ⟨op, hop, { hinstance with }⟩

theorem saturate_isGenuine (hvalid : p.validate = .ok ()) (hnames : HasDistinctNames p)
    (hfacts : HasNumericFacts p) {t : Grounded.Task} {s : State}
    (hrun : (saturate p).run {} = .ok (t, s)) : ∃ s', ∀ a ∈ t.actions, IsGenuine p s' a := by
  have hensures : (saturate p).Ensures {} fun t _ => ∃ s', ∀ a ∈ t.actions, IsGenuine p s' a := by
    refine saturate_ensures ((explore_ensures hvalid hnames hfacts).mono ?_)
    rintro _ s₁ ⟨k, hlevel, -⟩ s₂ t ht
    exact ⟨s₂, ht.isGenuine hlevel.tracks.genuine false⟩
  exact hensures t s hrun

/-- An action without numeric conditions is kept as it is. -/
theorem decideConditions_of_eq_nil {a : Action} (hstart : a.startNumericConditions = [])
    (hinvariants : a.numericInvariants = []) (hend : a.endNumericConditions = []) :
    decideConditions a = some a := by
  unfold decideConditions
  rw [hstart, hinvariants, hend]
  show some _ = some a
  congr 1
  cases a
  cases hstart
  cases hinvariants
  cases hend
  rfl

theorem IsGenuine.decideConditions (h : ∀ op ∈ p.operators, op.IsNonNumeric) {s : State}
    {a : Action} (ha : IsGenuine p s a) : decideConditions a = some a := by
  obtain ⟨op, hop, hinstance⟩ := ha
  have hnone := (h op (List.mem_of_getElem? hop)).conditions
  rw [List.append_eq_nil_iff, List.append_eq_nil_iff] at hnone
  obtain ⟨⟨hstart, hinvariants⟩, hend⟩ := hnone
  refine decideConditions_of_eq_nil (List.eq_nil_of_length_eq_zero ?_)
    (List.eq_nil_of_length_eq_zero ?_) (List.eq_nil_of_length_eq_zero ?_)
  · exact hinstance.startNumericConditions.trans (congrArg List.length hstart)
  · exact hinstance.numericInvariants.trans (congrArg List.length hinvariants)
  · exact hinstance.endNumericConditions.trans (congrArg List.length hend)

/-- Numbering actions anew keeps their operators and arguments. -/
theorem exists_mem_renumber {actions : List Action} {a : Action} (ha : a ∈ actions) :
    ∃ b ∈ renumber actions, b.operator = a.operator ∧ b.arguments = a.arguments := by
  obtain ⟨b, hb, hindex⟩ := exists_of_forall₂_left (forall₂_renumber actions) ha
  exact ⟨b, hb, by rw [hindex], by rw [hindex]⟩

/-- Reachable instances of ordinary operators remain if static variables are kept and there are no
numeric conditions. -/
theorem exists_action_of_isReachable (hnames : HasDistinctNames p)
    (hplain : ∀ op ∈ p.operators, op.IsNonNumeric) {t : Grounded.Task}
    (hground : ground p true = .ok t) {i : Nat} {op : Operator} {as : List ObjectId}
    (hordinary : op.isGoal = false) (hreachable : IsReachable p i op as) :
    ∃ a ∈ t.actions, a.operator = i ∧ a.arguments = as := by
  have hfacts := hasNumericFacts_of_isNonNumeric hplain
  obtain ⟨hvalid, saturated, s, reduced, hrun, hreduced, rfl⟩ := ground_eq_ok hground
  obtain rfl : reduced = saturated := hreduced
  have hsaturation := saturate_isSaturation hvalid hnames hfacts reduced s hrun
  obtain ⟨a, ha, hoperator, harguments⟩ :=
    (hsaturation.instances false i as).mpr ⟨op, hordinary, hreachable⟩
  obtain ⟨s', hgenuine⟩ := saturate_isGenuine hvalid hnames hfacts hrun
  have hkept : a ∈ reduced.actions.filterMap decideConditions :=
    List.mem_filterMap.mpr ⟨a, ha, (hgenuine a ha).decideConditions hplain⟩
  obtain ⟨b, hb, hop, has⟩ := exists_mem_renumber hkept
  exact ⟨b, hb, hop.trans hoperator, has.trans harguments⟩

/-- **Grounding loses no action of a supported run**: each instance of an ordinary operator that is
executed is among the actions. -/
theorem exists_action_of_supported_run (hnames : HasDistinctNames p)
    (hplain : ∀ op ∈ p.operators, op.IsNonNumeric) {t : Grounded.Task}
    (hground : ground p true = .ok t) {x₀ x y : Lifted.Valuation} (hinit : p.task.IsInitial x₀)
    (hrun : Relation.ReflTransGen p.SupportedStep x₀ x) {i : Nat} {as : List ObjectId}
    (hsupported : p.IsSupported i as x) (hexec : p.Executes i as x y) :
    ∃ a ∈ t.actions, a.operator = i ∧ a.arguments = as := by
  obtain ⟨op, hi, hordinary, hexec⟩ := hexec
  obtain ⟨k, hk⟩ := isCovered_of_run hinit hrun
  have henabled := isEnabled_of_executes hk (hsupported op hi) hexec
  exact exists_action_of_isReachable hnames hplain hground hordinary ⟨hi, hexec.kept, k, henabled⟩

/-- Lights a lamp, which is not lit and has fuel, and uses the fuel up. -/
def light : Operator :=
  .ofHappenings "light"
    ⟨[.ofProposition 0 .truth, .ofProposition 1 .falsity], [], [.ofProposition 0 .falsity], []⟩
    ⟨[], [], [.ofProposition 1 .truth], []⟩

/-- Fills a lamp that has no fuel. -/
def refuel : Operator :=
  .ofHappenings "refuel" ⟨[.ofProposition 0 .falsity], [], [], []⟩
    ⟨[], [], [.ofProposition 0 .truth], []⟩

/-- The propositions `fueled` and `lit`. -/
def lamp (facts : List Nat) (operators : List Operator) : Problem :=
  ⟨.ofPropositions ["fueled", "lit"] facts, operators⟩

/-- Once a lamp has burnt, it can be filled: that it has no fuel is then an effect. -/
theorem exists_action_refuel : ∃ t, ground (lamp [0] [light, refuel]) true = .ok t ∧
    ∃ a ∈ t.actions, a.operator = 1 ∧ a.arguments = [] := by
  obtain ⟨t, ht⟩ : ∃ t, t ∈ (ground (lamp [0] [light, refuel]) true).toOption :=
    Option.isSome_iff_exists.mp (by decide +kernel)
  have hground := eq_ok_of_mem_toOption ht
  set task := (lamp [0] [light, refuel]).task with htask
  have hlight : light.Executes task [] task.initial (light.result [] task.initial) := by
    decide +kernel
  have hrefuel : refuel.Executes task [] (light.result [] task.initial)
      (refuel.result [] (light.result [] task.initial)) := by
    decide +kernel
  have hstep : (lamp [0] [light, refuel]).SupportedStep task.initial
      (light.result [] task.initial) := by
    refine ⟨0, [], fun op hop => ?_, light, rfl, rfl, hlight⟩
    cases hop
    decide +kernel
  refine ⟨t, hground, exists_action_of_supported_run (by decide +kernel) (by decide +kernel) hground
    task.isInitial_initial (.single hstep) (fun op hop => ?_) ⟨refuel, rfl, rfl, hrefuel⟩⟩
  cases hop
  decide +kernel

/-- The problems for which grounding could be hoped to lose nothing at all: all facts are about time
zero, instances can be told apart by their names, and no operator deals with numbers. -/
structure IsClassical (p : Problem) : Prop where
  valid : p.validate = .ok ()
  times : ∀ fact ∈ p.task.init, (fact.time == 0.0) = true
  names : HasDistinctNames p
  nonNumeric : ∀ op ∈ p.operators, op.IsNonNumeric

/-- An instance can be executed at the beginning, but grounding does not return it. -/
def Loses (p : Problem) (i : Nat) (as : List ObjectId) : Prop :=
  (∃ x y, p.task.IsInitial x ∧ p.Executes i as x y) ∧
    ¬∃ t, ground p true = .ok t ∧ ∃ a ∈ t.actions, a.operator = i ∧ a.arguments = as

/-- Executing the instance in the valuation before the first action shows this. -/
theorem loses_of_executes (op : Operator) {i : Nat} {as : List ObjectId}
    (hi : p.operators[i]? = some op) (hordinary : op.isGoal = false)
    (hexec : op.Executes p.task as p.task.initial (op.result as p.task.initial))
    (hlost : ∀ t ∈ (ground p true).toOption, ∀ a ∈ t.actions,
      ¬(a.operator = i ∧ a.arguments = as)) : Loses p i as := by
  refine ⟨⟨_, _, p.task.isInitial_initial, op, hi, hordinary, hexec⟩, ?_⟩
  rintro ⟨t, hground, a, ha, hkey⟩
  have ht : t ∈ (ground p true).toOption := by
    rw [hground]
    rfl
  exact hlost t ht a ha hkey

/-- Requires a lamp to be lit or not, as a parameter says. -/
def inspect : Operator :=
  { Operator.ofHappenings "inspect" ⟨[⟨⟨⟨1⟩, []⟩, .param 0⟩], [], [], []⟩ .empty with
    parameters := [⟨"?v", [TypeId.boolean]⟩] }

/-- Does nothing. -/
def wait : Operator := .ofHappenings "wait" .empty .empty

/-- The metric reads a number of which there is no fact. -/
def unpriced : Problem where
  task := { Task.ofPropositions [] [] with
    functions := #[⟨"price", [], [TypeId.number]⟩]
    metric := some ⟨.minimize, .atom (.fluent ⟨0⟩ [])⟩ }
  operators := [wait]

/-- Without facts, a lamp can be filled and inspected, as it has no fuel and is not lit. But no fact
and no effect says so, and these instances are lost. A metric that cannot be grounded loses all. -/
theorem exists_lost_instance :
    (IsClassical (lamp [] [refuel, inspect]) ∧
      (ground (lamp [] [refuel, inspect]) true).isOk = true ∧
      Loses (lamp [] [refuel, inspect]) 0 [] ∧ Loses (lamp [] [refuel, inspect]) 1 [.falsity]) ∧
    IsClassical unpriced ∧ Loses unpriced 0 [] := by
  refine ⟨⟨⟨?_, ?_, ?_, ?_⟩, ?_, loses_of_executes refuel rfl rfl ?_ ?_,
    loses_of_executes inspect rfl rfl ?_ ?_⟩, ⟨?_, ?_, ?_, ?_⟩,
    loses_of_executes wait rfl rfl ?_ ?_⟩
  all_goals decide +kernel

end TemporalPlanning.Grounding
