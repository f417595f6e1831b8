import TemporalPlanning.FiniteDomain.Cost
import TemporalPlanning.FiniteDomain.PermanentMutex
import TemporalPlanning.Proofs.Expression
import TemporalPlanning.Proofs.FiniteDomain.Updates
/-!
Errors with which a finite-domain task can fail to be built.

`ReportsOnly` says of which kind an error is, if there is one; the rules take a computation apart as
those of `Update.Ensures` do. Creating values and variables, entering initial values and deriving
data report errors of certain kinds only. That a domain has no opposite value is none of them.
-/
set_option autoImplicit false

namespace TemporalPlanning.FiniteDomain

variable {α β : Type} {E : Error → Prop}

/-! ## Computations -/

/-- If a computation fails, its error is of a kind. -/
def ReportsOnly (E : Error → Prop) (x : Except Error α) : Prop := ∀ e, x = .error e → E e

namespace ReportsOnly

theorem ok (a : α) : ReportsOnly E (.ok a) := fun _ h => nomatch h

theorem error {e : Error} (h : E e) : ReportsOnly E (.error e : Except Error α) := fun _ h' => by
  cases h'
  exact h

/-- What comes second need only report such errors of results that there are. -/
theorem bind_ok {x : Except Error α} {f : α → Except Error β} (hx : ReportsOnly E x)
    (hf : ∀ a, x = .ok a → ReportsOnly E (f a)) : ReportsOnly E (x >>= f) := by
  cases x with
  | error e => exact error (hx e rfl)
  | ok a => exact hf a rfl

theorem bind {x : Except Error α} {f : α → Except Error β} (hx : ReportsOnly E x)
    (hf : ∀ a, ReportsOnly E (f a)) : ReportsOnly E (x >>= f) := hx.bind_ok fun a _ => hf a

/-- Both branches go on in the same way. -/
theorem ite_bind {c : Prop} [Decidable c] {x y : Except Error α} {f : α → Except Error β}
    (hx : c → ReportsOnly E x) (hy : ¬c → ReportsOnly E y) (hf : ∀ a, ReportsOnly E (f a)) :
    ReportsOnly E (if c then x >>= f else y >>= f) := by
  split
  next h => exact (hx h).bind hf
  next h => exact (hy h).bind hf

theorem map {x : Except Error α} (hx : ReportsOnly E x) (f : α → β) : ReportsOnly E (f <$> x) := by
  rw [map_eq_pure_bind]
  exact hx.bind fun a => ok (f a)

/-- Lists are gone through from the left, up to the first error. -/
theorem mapM {f : α → Except Error β} {l : List α} (h : ∀ a ∈ l, ReportsOnly E (f a)) :
    ReportsOnly E (l.mapM f) := by
  induction l with
  | nil => exact ok []
  | cons a l ih =>
    obtain ⟨ha, hl⟩ := List.forall_mem_cons.mp h
    rw [List.mapM_cons]
    exact ha.bind fun b => (ih hl).bind fun bs => ok (b :: bs)

theorem foldlM {f : β → α → Except Error β} {l : List α} (h : ∀ b a, ReportsOnly E (f b a))
    (b : β) : ReportsOnly E (l.foldlM f b) := by
  induction l generalizing b with
  | nil => exact ok b
  | cons a l ih =>
    rw [List.foldlM_cons]
    exact (h b a).bind ih

theorem anyM {f : α → Except Error Bool} {l : List α} (h : ∀ a, ReportsOnly E (f a)) :
    ReportsOnly E (l.anyM f) := by
  induction l with
  | nil => exact ok false
  | cons a l ih =>
    rw [List.anyM_cons]
    refine (h a).bind fun holds => ?_
    cases holds
    · exact ih
    · exact ok true

/-- The errors of an expression are those of its leaves and of its operations. -/
theorem foldM_expression {leaf : α → Except Error β}
    {combine : Operation → List (Expression α) → List β → Except Error β}
    (hleaf : ∀ a, ReportsOnly E (leaf a)) (hcombine : ∀ op es bs, ReportsOnly E (combine op es bs))
    (e : Expression α) : ReportsOnly E (e.foldM leaf combine) := by
  induction e using Expression.operandsInduction with
  | atom a => exact hleaf a
  | node op es ih =>
    rw [Expression.foldM_node]
    exact (mapM ih).bind fun bs => hcombine op es bs

theorem mapM_expression {f : α → Except Error β} (h : ∀ a, ReportsOnly E (f a))
    (e : Expression α) : ReportsOnly E (e.mapM f) :=
  foldM_expression (fun a => (h a).map _) (fun _ _ _ => ok _) e

end ReportsOnly

/-! ## Updates -/

/-- If an update fails, its error is of a kind. -/
def Update.ReportsOnly (E : Error → Prop) (u : Update α) (t : Task) : Prop :=
  ∀ e t', u.runOn t = (.error e, t') → E e

namespace Update

variable {t : Task}

theorem reportsOnly_pure (a : α) : ReportsOnly E (pure a) t := fun _ _ h => nomatch h

theorem reportsOnly_get : ReportsOnly E get t := fun _ _ h => nomatch h

theorem reportsOnly_modify (f : Task → Task) : ReportsOnly E (modify f) t := fun _ _ h => nomatch h

theorem reportsOnly_throw {e : Error} (h : E e) : ReportsOnly E (throw e : Update α) t :=
  fun _ _ h' => by
    cases h'
    exact h

/-- A computation within an update reports its own errors. -/
theorem reportsOnly_lift {x : Except Error α} (h : FiniteDomain.ReportsOnly E x) :
    ReportsOnly E (liftExcept x) t := fun e _ hrun => by
  cases x with
  | error e' =>
    cases hrun
    exact h e rfl
  | ok a => cases hrun

/-- What comes second need only report such errors in the tasks that the first update leaves. -/
theorem ReportsOnly.bind_ensures {u : Update α} {f : α → Update β} (hu : u.ReportsOnly E t)
    (hf : u.Ensures t fun a t' => (f a).ReportsOnly E t') : (u >>= f).ReportsOnly E t := by
  intro e t' hrun
  rw [runOn_bind] at hrun
  split at hrun
  next a t₁ h => exact hf a t₁ h e t' hrun
  next e' t₁ h =>
    cases hrun
    exact hu e _ h

/-- The rule for updates that do not rely on what comes before. -/
theorem ReportsOnly.bind {u : Update α} {f : α → Update β} (hu : u.ReportsOnly E t)
    (hf : ∀ a t', (f a).ReportsOnly E t') : (u >>= f).ReportsOnly E t :=
  hu.bind_ensures fun a t' _ => hf a t'

theorem ReportsOnly.map {u : Update α} (hu : u.ReportsOnly E t) (f : α → β) :
    (f <$> u).ReportsOnly E t := by
  rw [map_eq_pure_bind]
  exact hu.bind fun a _ => reportsOnly_pure (f a)

theorem reportsOnly_foldlM {f : β → α → Update β} {l : List α}
    (h : ∀ b a t, (f b a).ReportsOnly E t) (b : β) : ReportsOnly E (l.foldlM f b) t := by
  induction l generalizing b t with
  | nil => exact reportsOnly_pure b
  | cons a l ih =>
    rw [List.foldlM_cons]
    exact (h b a t).bind fun b' _ => ih b'

/-- An update may rely on what its repetitions keep. -/
theorem reportsOnly_forM {f : α → Update PUnit} {l : List α} {I : Task → Prop}
    (h : ∀ a ∈ l, ∀ t, I t → (f a).ReportsOnly E t)
    (hkeeps : ∀ a ∈ l, ∀ t, I t → (f a).Ensures t fun _ t' => I t') (ht : I t) :
    ReportsOnly E (l.forM f) t := by
  induction l generalizing t with
  | nil => exact reportsOnly_pure PUnit.unit
  | cons a l ih =>
    obtain ⟨ha, hl⟩ := List.forall_mem_cons.mp h
    obtain ⟨hkeeps', hkeeps⟩ := List.forall_mem_cons.mp hkeeps
    -- the rest starts in a task that the first update has left
    exact (ha t ht).bind_ensures ((hkeeps' t ht).mono fun _ _ ht' => ih hl hkeeps ht')

/-- Nothing need be kept for updates that are safe in every task. -/
theorem reportsOnly_forM_of_forall {f : α → Update PUnit} {l : List α}
    (h : ∀ a t, (f a).ReportsOnly E t) : ReportsOnly E (l.forM f) t :=
  reportsOnly_forM (I := fun _ => True) (fun a _ t _ => h a t) (fun _ _ _ _ _ _ _ => trivial)
    trivial

end Update

/-! ## Building tasks -/

/-- Errors with which a task can fail to be built. -/
inductive IsBuildError : Error → Prop
  | invalidTask (defect : Defect) : IsBuildError (.invalidTask defect)
  | unknownVariable (name : String) : IsBuildError (.unknownVariable name)
  | divisionByZero (expression : String) : IsBuildError (.divisionByZero expression)
  | invalidValue (value name : String) : IsBuildError (.invalidValue value name)
  | contradictoryInitialValue (name : String) (value time : Float) :
    IsBuildError (.contradictoryInitialValue name value time)
  | capacityExceeded (what : Packed) (index : Nat) : IsBuildError (.capacityExceeded what index)

/-- An update never fails but with such an error. -/
abbrev Update.IsSafe (u : Update α) (t : Task) : Prop := u.ReportsOnly IsBuildError t

open Update

/-- Only the two capacities can be exceeded. -/
theorem FactCode.pack_reportsOnly (var : Nat) (value : ValueId) :
    ReportsOnly IsBuildError (FactCode.pack var value) := by
  unfold FactCode.pack
  split
  · exact .error (.capacityExceeded _ _)
  split
  · exact .error (.capacityExceeded _ _)
  · exact .ok _

variable {t : Task}

/-- Creating a value only fails if there is no room for it. -/
theorem createValue_isSafe (name : String) (function : Option FunctionId) :
    (createValue name function).IsSafe t := by
  refine reportsOnly_get.bind fun t₁ _ => ?_
  split
  · exact reportsOnly_pure _
  refine reportsOnly_get.bind fun t₂ _ => ?_
  dsimp only
  split
  · exact (reportsOnly_throw (.capacityExceeded _ _)).bind_ensures ensures_throw
  · exact (reportsOnly_modify _).bind fun _ _ => reportsOnly_pure _

theorem createVariable_isSafe (name : String) : (createVariable name).IsSafe t := by
  refine reportsOnly_get.bind fun t₁ _ => ?_
  dsimp only
  split
  · exact (reportsOnly_throw (.capacityExceeded _ _)).bind_ensures ensures_throw
  · exact (reportsOnly_modify _).bind fun _ _ => reportsOnly_pure _

theorem createNumericVariable_isSafe (name : String) : (createNumericVariable name).IsSafe t :=
  reportsOnly_get.bind fun _ _ => (reportsOnly_modify _).bind fun _ _ => reportsOnly_pure _

theorem createAction_isSafe (a : Action) : (createAction a).IsSafe t :=
  reportsOnly_get.bind fun _ _ => (reportsOnly_modify _).bind fun _ _ => reportsOnly_pure _

theorem createGoal_isSafe (a : Action) : (createGoal a).IsSafe t :=
  reportsOnly_get.bind fun _ _ => (reportsOnly_modify _).bind fun _ _ => reportsOnly_pure _

/-- A missing variable is no error, so only the change itself can fail. -/
theorem updateVariable_isSafe {f : Variable → Except Error Variable}
    (h : ∀ v, ReportsOnly IsBuildError (f v)) (var : Nat) : (updateVariable var f).IsSafe t := by
  refine reportsOnly_get.bind fun t₁ _ => ?_
  split
  · exact (reportsOnly_lift (h _)).bind fun _ _ => reportsOnly_modify _
  · exact reportsOnly_pure _

theorem updateNumericVariable_isSafe {f : NumericVariable → Except Error NumericVariable}
    (h : ∀ v, ReportsOnly IsBuildError (f v)) (var : Nat) :
    (updateNumericVariable var f).IsSafe t := by
  refine reportsOnly_get.bind fun t₁ _ => ?_
  split
  · exact (reportsOnly_lift (h _)).bind fun _ _ => reportsOnly_modify _
  · exact reportsOnly_pure _

/-! ## Initial values -/

/-- A domain of two values has opposite values. -/
theorem Variable.opposite_reportsOnly {v : Variable} (h : v.isBoolean = true) (value : ValueId) :
    ReportsOnly IsBuildError (v.opposite value) := by
  have hdomain : v.domain = [.falsity, .truth] := beq_iff_eq.mp h
  unfold Variable.opposite
  rw [hdomain]
  dsimp only
  split
  · exact .ok _
  split
  · exact .ok _
  · exact .error (.invalidValue _ _)

/-- A value outside the domain is refused. The value that a variable has instead is only looked for
if the given one does not hold, and then the domain must have two values. -/
theorem Variable.addInitialValue_reportsOnly {v : Variable} {holds : Bool}
    (h : holds = true ∨ v.isBoolean = true) (value : ValueId) (time : Float) :
    ReportsOnly IsBuildError (v.addInitialValue value holds time) := by
  unfold Variable.addInitialValue
  dsimp only
  split
  · -- the opposite is needed of a value that does not hold
    exact .ite_bind (fun _ => .ok _)
      (fun hnot => opposite_reportsOnly (h.resolve_left hnot) value) fun _ => .ok _
  · exact .bind_ok (.error (.invalidValue _ _)) fun _ h => nomatch h

/-- A variable has one number at a time, so a second one for the same time is an error. -/
theorem NumericVariable.addInitialValue_reportsOnly (v : NumericVariable) (number time : Float) :
    ReportsOnly IsBuildError (v.addInitialValue number time) := by
  unfold NumericVariable.addInitialValue
  split
  · split
    · exact .ok _
    · exact .error (.contradictoryInitialValue _ _ _)
  · exact .ok _

/-! ## Derived data -/

theorem Condition.fact_reportsOnly (c : Condition) : ReportsOnly IsBuildError c.fact :=
  FactCode.pack_reportsOnly c.var c.value

theorem ActionIndex.addAll_reportsOnly (index : ActionIndex) (conditions : List Condition)
    (action : Nat) : ReportsOnly IsBuildError (index.addAll conditions action) :=
  .foldlM (fun _ c => c.fact_reportsOnly.bind fun _ => .ok _) index

/-- **The indexes** fail only if a condition or an effect does not fit into a code. -/
theorem computeRequirers_isSafe : computeRequirers.IsSafe t := by
  refine (reportsOnly_modify _).bind fun _ _ => reportsOnly_get.bind fun t₁ _ => ?_
  refine (reportsOnly_foldlM (fun index a t₂ => ?_) _).bind fun _ _ => reportsOnly_modify _
  unfold indexConditions
  split
  · exact (reportsOnly_modify _).bind fun _ _ => reportsOnly_pure _
  · exact reportsOnly_lift (index.addAll_reportsOnly _ _)

theorem computeProducers_isSafe : computeProducers.IsSafe t :=
  reportsOnly_get.bind fun _ _ => (reportsOnly_lift (.foldlM
    (fun index _ => index.addAll_reportsOnly _ _) _)).bind fun _ _ => reportsOnly_modify _

/-- The search for facts that can be reached packs the effects of the actions that it takes. -/
theorem Search.follow_reportsOnly (s : Search) (fact : Nat) :
    ReportsOnly IsBuildError (s.follow t fact) := by
  have hfind : ∀ s effect, ReportsOnly IsBuildError (Search.find s effect) := fun _ effect =>
    effect.fact_reportsOnly.bind fun _ => .ok _
  unfold Search.follow
  split
  · exact .ok _
  · refine .foldlM (fun s action => ?_) s
    unfold Search.take
    split
    · exact .ok _
    · split
      · exact .foldlM hfind _
      · exact .ok _

theorem Search.run_reportsOnly (rounds : Nat) (facts : List Nat) (s : Search) :
    ReportsOnly IsBuildError (Search.run t rounds facts s) := by
  induction rounds generalizing facts s with
  | zero => exact .ok s
  | succ rounds ih =>
    unfold Search.run
    split
    · exact .ok s
    · exact .bind (.foldlM Search.follow_reportsOnly _) fun s' => ih _ s'

theorem permanentFacts_reportsOnly : ReportsOnly IsBuildError (permanentFacts t) :=
  .foldlM (fun _ _ => .bind (.bind (Search.run_reportsOnly _ _ _) fun _ => .ok _) fun _ => .ok _) _

/-- Whether an action precludes another one is asked of the codes of its effects and conditions. -/
theorem Task.precludes_reportsOnly (a b : Action) : ReportsOnly IsBuildError (t.precludes a b) :=
  .anyM fun effect => effect.fact_reportsOnly.bind fun _ =>
    .anyM fun condition => condition.fact_reportsOnly.bind fun _ => .ok _

theorem addIfExclusive_reportsOnly (a : Action) (pairs : PairSet) (b : Action) :
    ReportsOnly IsBuildError (addIfExclusive t a pairs b) := by
  refine (Task.precludes_reportsOnly a b).bind fun first => ?_
  split
  · refine (Task.precludes_reportsOnly b a).bind fun second => ?_
    split
    · exact .ok _
    · exact .ok _
  · exact .ok _

/-- Every action is compared with those behind it. -/
theorem exclusiveActions_reportsOnly (as : List Action) (pairs : PairSet) :
    ReportsOnly IsBuildError (exclusiveActions t as pairs) := by
  induction as generalizing pairs with
  | nil => exact .ok pairs
  | cons a as ih => exact .bind (.foldlM (addIfExclusive_reportsOnly a) pairs) ih

/-- **Permanent mutexes**, too, fail for no other reason. -/
theorem computePermanentMutex_isSafe : computePermanentMutex.IsSafe t := by
  refine reportsOnly_get.bind fun t₁ _ => (reportsOnly_lift permanentFacts_reportsOnly).bind
    fun _ _ => (reportsOnly_modify _).bind fun _ _ => reportsOnly_get.bind fun t₂ _ => ?_
  dsimp only
  split
  · exact (reportsOnly_pure _).bind fun _ _ => reportsOnly_modify _
  · exact (reportsOnly_lift (exclusiveActions_reportsOnly _ _)).bind fun _ _ =>
      reportsOnly_modify _

/-! ## Costs -/

section Numbers

variable {ν : Type} [Arithmetic ν]

/-- An operation without a value divides by zero. -/
theorem combine_reportsOnly (leaf : α → String) (op : Operation) (es : List (Expression α))
    (values : List ν) : ReportsOnly IsBuildError (Expression.combine leaf op es values) := by
  unfold Expression.combine
  split
  · exact .ok _
  · exact .error (.divisionByZero _)

omit [Arithmetic ν] in
theorem numberOf_reportsOnly (state : Array ν) (var : Nat) :
    ReportsOnly IsBuildError (numberOf state var) := by
  unfold numberOf
  split
  · exact .ok _
  · exact .error (.unknownVariable _)

/-- Expressions fail at unknown variables and at quotients; the duration is always known. -/
theorem evaluate_reportsOnly (state : Array ν) (duration : ν) (e : Expression Quantity) :
    ReportsOnly IsBuildError (evaluate state duration e) := by
  refine .foldM_expression (fun q => ?_) (combine_reportsOnly _) e
  cases q with
  | var v => exact numberOf_reportsOnly state v
  | number | duration | elapsed => exact .ok _

theorem evaluateMetric_reportsOnly (state : Array ν) (makespan : ν) (e : Expression Measure) :
    ReportsOnly IsBuildError (evaluateMetric state makespan e) := by
  refine .foldM_expression (fun m => ?_) (combine_reportsOnly _) e
  cases m with
  | var v => exact numberOf_reportsOnly state v
  | number | totalTime | isViolated => exact .ok _

/-- The metric is evaluated before and after the numeric effects, which are evaluated in between. -/
theorem costIn_reportsOnly (metric : Option Metric) (a : Action) (state : Array ν)
    (makespan duration : ν) :
    ReportsOnly IsBuildError (costIn metric a state makespan duration) := by
  unfold costIn
  split
  · exact .ok _
  · exact (evaluateMetric_reportsOnly _ _ _).bind fun _ =>
      .bind (.foldlM (fun _ _ => (evaluate_reportsOnly _ _ _).bind fun _ => .ok _) state) fun _ =>
        (evaluateMetric_reportsOnly _ _ _).bind fun _ => .ok _

theorem costOf_reportsOnly (d : Dependence) (metric : Option Metric) (state : Array ν)
    (a : Action) : ReportsOnly IsBuildError (costOf d metric state a) := by
  unfold costOf
  refine .ite_bind (fun _ => .mapM fun _ _ => evaluate_reportsOnly _ _ _) (fun _ => .ok _)
    fun durations => ?_
  exact .ite_bind (fun _ => costIn_reportsOnly _ _ _ _ _) (fun _ => .ok _) fun _ => .ok _

end Numbers

/-- **Costs** fail at expressions only: the initial state is read off the variables. -/
theorem computeCosts_isSafe (keepStatic : Bool) : (computeCosts keepStatic).IsSafe t :=
  (reportsOnly_modify _).bind fun _ _ => (reportsOnly_modify _).bind fun _ _ =>
    reportsOnly_get.bind fun _ _ =>
      (reportsOnly_lift (.mapM fun _ _ => costOf_reportsOnly _ _ _ _)).bind fun _ _ =>
        reportsOnly_modify _

end TemporalPlanning.FiniteDomain
