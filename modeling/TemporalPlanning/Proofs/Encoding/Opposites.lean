import TemporalPlanning.Proofs.Encoding.Construct
import TemporalPlanning.Proofs.Encoding.Negated
import TemporalPlanning.Proofs.Encoding.Packing
import TemporalPlanning.Proofs.FiniteDomain.Failures
/-!
Propositions that must be false always have opposite values.

A condition that a proposition is false is encoded by the other value of the variable in which the
proposition is placed, and so is an initial value of a boolean variable. The first would fail if the
domain had more than two values; but all conditions that are encoded have been looked through before
the variables were placed, and a proposition that one of them requires to be false was given a
boolean variable. Whatever else is done with the task leaves that variable boolean.
-/
set_option autoImplicit false

namespace TemporalPlanning.Encoding

open FiniteDomain Update

variable {T : Task}

/-! ## Places -/

section Placing

variable (t : Grounded.Task)

/-- A value is created and then added to a domain, which cannot fail by itself. -/
theorem addNamedValue_isSafe (var : Nat) (name : String) (function : Option FunctionId) :
    (addNamedValue var name function).IsSafe T :=
  (createValue_isSafe _ _).bind fun _ _ => (reportsOnly_modify _).bind fun _ _ =>
    reportsOnly_pure _

/-- Whatever is no proposition gets a variable of its own. -/
theorem placeVariable_isSafe (isProposition : Array Bool) (p : Placement)
    (v : Grounded.Variable) : (placeVariable t isProposition p v).IsSafe T := by
  unfold placeVariable
  split
  · exact (createNumericVariable_isSafe _).bind fun _ _ => reportsOnly_pure _
  split
  · exact reportsOnly_pure _
  · refine (createVariable_isSafe _).bind fun var _ => ?_
    exact (reportsOnly_forM_of_forall fun _ _ => (addNamedValue_isSafe _ _ _).map _).bind
      fun _ _ => reportsOnly_pure _

theorem placeBoolean_isSafe (p : Placement) (v : VarId) : (placeBoolean t p v).IsSafe T :=
  (createVariable_isSafe _).bind fun _ _ => (reportsOnly_modify _).bind fun _ _ =>
    (reportsOnly_lift (FactCode.pack_reportsOnly _ _)).bind fun _ _ => reportsOnly_pure _

theorem placeTogether_isSafe (p : Placement) (g : Mutex.Group) :
    (placeTogether t p g).IsSafe T := by
  have hmember : ∀ var p v T, (placeMember t var p v).IsSafe T := fun _ _ _ _ =>
    (addNamedValue_isSafe _ _ _).bind fun _ _ =>
      (reportsOnly_lift (FactCode.pack_reportsOnly _ _)).bind fun _ _ => reportsOnly_pure _
  refine (reportsOnly_get.bind fun _ _ => createVariable_isSafe _).bind fun var _ => ?_
  refine (reportsOnly_foldlM (hmember var) p).bind fun p' _ => ?_
  dsimp only
  split
  · exact (reportsOnly_modify _).bind fun _ _ => reportsOnly_pure _
  · exact reportsOnly_pure _

/-- Of a group, the propositions that must be false are placed by themselves and the others
together. -/
theorem placeGroup_isSafe (isNegated : Array Bool) (p : Placement) (g : Mutex.Group) :
    (placeGroup t isNegated p g).IsSafe T := by
  unfold placeGroup
  split
  · exact placeBoolean_isSafe t p _
  split
  · refine reportsOnly_foldlM (fun p' v _ => ?_) p
    unfold placeIfMissing
    split
    · exact placeBoolean_isSafe t p' v
    · exact reportsOnly_pure _
  · exact placeTogether_isSafe t p g

/-- **Placing** only fails if there are too many variables or values. -/
theorem place_isSafe (o : Options) (isProposition : Array Bool) (mutex : Mutex.Relation)
    (actions : List Grounded.Action) : (place t o isProposition mutex actions).IsSafe T := by
  refine (reportsOnly_foldlM (fun p v _ => placeVariable_isSafe t _ p v) _).bind fun p _ => ?_
  split
  · exact reportsOnly_foldlM (fun p v _ => placeBoolean_isSafe t p v) p
  · refine (reportsOnly_foldlM (fun p g _ => placeGroup_isSafe t _ p g) p).bind fun p' _ => ?_
    refine (reportsOnly_forM_of_forall fun facts _ => ?_).bind fun _ _ => reportsOnly_pure _
    exact reportsOnly_forM_of_forall fun _ _ => reportsOnly_modify _

end Placing

/-! ## Initial values -/

/-- A shared variable never needs an opposite value: what is false there makes it undefined, and
that only at a later time. -/
theorem setProposition_reportsOnly (value : ValueId) (holds : Bool) (time : Float) (v : Variable) :
    ReportsOnly IsBuildError (setProposition value holds time v) := by
  unfold setProposition
  split
  next h => exact v.addInitialValue_reportsOnly (Bool.or_eq_true_iff.mp h) _ _
  · -- a shared variable receives a value that holds, or none
    split
    · exact Variable.addInitialValue_reportsOnly (Or.inl rfl) _ _
    · exact .ok _

theorem setDefault_reportsOnly (v : Variable) : ReportsOnly IsBuildError (setDefault v) := by
  unfold setDefault
  split
  · exact .ok _
  split
  next h => exact v.addInitialValue_reportsOnly (Or.inr h) _ _
  · exact Variable.addInitialValue_reportsOnly (Or.inl rfl) _ _

namespace Encoder

variable (enc : Encoder)

theorem setNumber_isSafe (v : VarId) (var : Nat) (time : Float) (value : Value) :
    (enc.setNumber v var time value).IsSafe T := by
  unfold setNumber
  split
  · exact updateNumericVariable_isSafe (fun n => n.addInitialValue_reportsOnly _ _) _
  · exact reportsOnly_throw (.invalidTask _)

theorem setObject_isSafe (v : VarId) (var : Nat) (time : Float) (value : Value) :
    (enc.setObject v var time value).IsSafe T := by
  refine reportsOnly_get.bind fun T₁ _ => ?_
  split
  · exact updateVariable_isSafe (fun y => y.addInitialValue_reportsOnly (Or.inl rfl) _ _) _
  · exact reportsOnly_throw (.invalidValue _ _)

/-- **Initial values** are entered variable by variable, and then the others are completed. -/
theorem setInitialValues_isSafe : enc.setInitialValues.IsSafe T := by
  refine (reportsOnly_forM_of_forall fun v T₁ => ?_).bind fun _ _ => ?_
  · unfold setInitial
    split
    · exact reportsOnly_forM_of_forall fun ⟨time, value⟩ _ => enc.setNumber_isSafe _ _ time value
    split
    · exact reportsOnly_forM_of_forall fun ⟨time, value⟩ _ => enc.setObject_isSafe _ _ time value
    split
    · exact reportsOnly_forM_of_forall fun ⟨time, value⟩ _ =>
        updateVariable_isSafe (setProposition_reportsOnly _ _ time) _
    · exact reportsOnly_pure _
  · exact reportsOnly_get.bind fun T₂ _ =>
      (reportsOnly_lift (.mapM fun v _ => setDefault_reportsOnly v)).bind fun _ _ =>
        reportsOnly_modify _

/-! ## Conditions and effects -/

/-- A proposition that a condition requires to be false is placed in a boolean variable. -/
def HasOpposite (T : Task) (c : Grounded.Condition) : Prop :=
  enc.isLiteral c.var = true → c.value = .falsity →
    ∀ f, enc.placement.fact? c.var = some f → T.isBooleanAt f.var = true

variable {enc} in
/-- That a variable is boolean does not change any more once the variables are placed. -/
theorem HasOpposite.of_sameTables {T' : Task} {c : Grounded.Condition}
    (h : enc.HasOpposite T c) (hsame : T.SameTables T') : enc.HasOpposite T' c :=
  fun hliteral hfalse f hf => (hsame.boolean f.var).trans (h hliteral hfalse f hf)

/-- A proposition without a place has no fact. -/
theorem fact_reportsOnly (v : VarId) : ReportsOnly IsBuildError (enc.fact v) := by
  unfold fact
  split
  · exact .ok _
  · exact .error (.unknownVariable _)

theorem objectFact_reportsOnly (v : VarId) (o : ObjectId) :
    ReportsOnly IsBuildError (enc.objectFact T v o) := by
  unfold objectFact
  split
  · exact .error (.unknownVariable _)
  split
  · exact .ok _
  · exact .error (.invalidValue _ _)

/-- A boolean variable has two values, so there is another one. -/
theorem oppositeOf_reportsOnly {f : FactCode} (h : T.isBooleanAt f.var = true) :
    ReportsOnly IsBuildError (oppositeOf T f) := by
  unfold oppositeOf
  split
  next x hx =>
    rw [Task.isBooleanAt, hx] at h
    exact Variable.opposite_reportsOnly h _
  · exact .error (.unknownVariable _)

/-- Only conditions that a proposition is false ask for the opposite value. -/
theorem condition_reportsOnly {c : Grounded.Condition} (h : enc.HasOpposite T c) :
    ReportsOnly IsBuildError (enc.condition T c) := by
  unfold condition
  split
  next hliteral =>
    refine (enc.fact_reportsOnly c.var).bind_ok fun f hf => ?_
    split
    next hfalse =>
      have hboolean := h hliteral hfalse f (enc.fact_eq_ok hf)
      exact (oppositeOf_reportsOnly hboolean).bind fun _ => .ok _
    · exact .ok _
  · exact (enc.objectFact_reportsOnly _ _).bind fun _ => .ok _

/-- A deletion needs no opposite value: where there is none, the variable becomes undefined. -/
theorem effect_isSafe (together : List Grounded.Condition) (e : Grounded.Condition) :
    (enc.effect together e).IsSafe T := by
  unfold effect
  split
  · refine (reportsOnly_lift (enc.fact_reportsOnly _)).bind fun f _ => ?_
    split
    · exact reportsOnly_pure _
    · refine .bind (reportsOnly_get.bind fun T₁ _ => ?_) fun _ _ => reportsOnly_pure _
      split
      · exact reportsOnly_pure _
      · exact (reportsOnly_modify _).bind fun _ _ => reportsOnly_pure _
  next h =>
    refine reportsOnly_get.bind fun T₁ _ => ?_
    refine (reportsOnly_lift (enc.condition_reportsOnly fun hliteral hfalse => ?_)).bind
      fun _ _ => reportsOnly_pure _
    -- a proposition that becomes false has been dealt with
    rw [hliteral, hfalse] at h
    exact absurd rfl h

theorem effectsAmong_isSafe (together es : List Grounded.Condition) :
    (enc.effectsAmong together es).IsSafe T := by
  induction es generalizing T with
  | nil => exact reportsOnly_pure _
  | cons e es ih =>
    exact (enc.effect_isSafe together e).bind fun _ _ => ih.bind fun _ _ => reportsOnly_pure _

/-! ## Expressions -/

theorem numericVar_reportsOnly (v : VarId) : ReportsOnly IsBuildError (enc.numericVar v) := by
  unfold numericVar
  split
  · exact .ok _
  · exact .error (.unknownVariable _)

theorem expression_reportsOnly (e : Expression Grounded.Quantity) :
    ReportsOnly IsBuildError (enc.expression e) := by
  refine .mapM_expression (fun q => ?_) e
  cases q with
  | var v => exact (enc.numericVar_reportsOnly v).map _
  | object => exact .error (.invalidTask _)
  | number | duration | elapsed => exact .ok _

theorem partialExpression_reportsOnly (e : Expression Grounded.PartialQuantity) :
    ReportsOnly IsBuildError (enc.partialExpression e) := by
  refine .mapM_expression (fun q => ?_) e
  cases q with
  | var v => exact (enc.numericVar_reportsOnly v).map _
  | number => exact .ok _
  | ungrounded | term => exact .error (.invalidTask _)

theorem metric_reportsOnly (m : Grounded.Metric) : ReportsOnly IsBuildError (enc.metric m) := by
  refine .bind (.mapM_expression (fun q => ?_) _) fun _ => .ok _
  cases q with
  | var v => exact (enc.numericVar_reportsOnly v).map _
  | number | totalTime | isViolated => exact .ok _

/-! ## Goals and constraints -/

theorem fluentGoal_reportsOnly (v : VarId) (o : ObjectId) (equal : Bool) :
    ReportsOnly IsBuildError (enc.fluentGoal T v o equal) := by
  unfold fluentGoal
  split
  · exact (enc.fact_reportsOnly v).bind fun _ => .ok _
  · exact (enc.objectFact_reportsOnly v o).bind fun _ => .ok _

mutual

/-- Negations are written as such in goals, so no opposite value is asked for. -/
theorem goal_reportsOnly : ∀ g : Grounded.Goal, ReportsOnly IsBuildError (enc.goal T g)
  | .fluent v o equal => enc.fluentGoal_reportsOnly v o equal
  | .and goals | .or goals => (goalList_reportsOnly goals).map _
  | .not g | .timed _ g => (goal_reportsOnly g).map _
  | .compare _ _ => .map (.mapM fun e _ => enc.partialExpression_reportsOnly e) _
  | .constant _ => .ok _
  | .ungroundedFluent .. | .imply .. | .existential .. | .universal .. | .equality .. =>
    .error (.invalidTask _)

theorem goalList_reportsOnly : ∀ gs : List Grounded.Goal,
    ReportsOnly IsBuildError (enc.goalList T gs)
  | [] => .ok _
  | g :: rest => (goal_reportsOnly g).bind fun _ => (goalList_reportsOnly rest).bind fun _ => .ok _

end

mutual

theorem constraint_reportsOnly : ∀ c : Grounded.Constraint,
    ReportsOnly IsBuildError (enc.constraint T c)
  | .and constraints => (constraintList_reportsOnly constraints).map _
  | .preference _ c => (constraint_reportsOnly c).map _
  | .goalPreference _ g => (enc.goal_reportsOnly g).map _
  | .temporal _ _ goals => (enc.goalList_reportsOnly goals).map _

theorem constraintList_reportsOnly : ∀ cs : List Grounded.Constraint,
    ReportsOnly IsBuildError (enc.constraintList T cs)
  | [] => .ok _
  | c :: rest =>
    (constraint_reportsOnly c).bind fun _ => (constraintList_reportsOnly rest).bind fun _ => .ok _

end

/-! ## Actions -/

/-- An action is encoded part by part: bounds of its duration, conditions, numeric conditions,
numeric effects and preferences. -/
theorem actionWith_reportsOnly {a : Grounded.Action} (h : ∀ c ∈ a.conditions, enc.HasOpposite T c)
    (startEffects endEffects : List Condition) :
    ReportsOnly IsBuildError (enc.actionWith T a startEffects endEffects) := by
  -- each kind of part is treated once, as it occurs at several time points
  have hconditions : ∀ {cs : List Grounded.Condition}, (∀ c ∈ cs, c ∈ a.conditions) →
      ReportsOnly IsBuildError (cs.mapM (enc.condition T)) := fun hcs =>
    .mapM fun c hc => enc.condition_reportsOnly (h c (hcs c hc))
  have hnumeric : ∀ cs : List Grounded.NumericCondition,
      ReportsOnly IsBuildError (cs.mapM enc.numericCondition) := fun cs =>
    .mapM fun c _ => .bind (.mapM fun e _ => enc.expression_reportsOnly e) fun _ => .ok _
  have heffects : ∀ es : List Grounded.NumericEffect,
      ReportsOnly IsBuildError (es.mapM enc.numericEffect) := fun es =>
    .mapM fun e _ => (enc.numericVar_reportsOnly _).bind fun _ =>
      (enc.expression_reportsOnly _).bind fun _ => .ok _
  refine .bind (.mapM fun d _ => (enc.expression_reportsOnly _).bind fun _ => .ok _) fun _ => ?_
  refine (hconditions fun c hc => ?_).bind fun _ => ?_
  · exact List.mem_append_left _ (List.mem_append_left _ hc)
  refine (hconditions fun c hc => ?_).bind fun _ => ?_
  · exact List.mem_append_left _ (List.mem_append_right _ hc)
  refine (hconditions fun c hc => List.mem_append_right _ hc).bind fun _ => ?_
  refine (hnumeric _).bind fun _ => (hnumeric _).bind fun _ => (hnumeric _).bind fun _ => ?_
  refine (heffects _).bind fun _ => (heffects _).bind fun _ => ?_
  exact .bind (.mapM fun p _ => (enc.goal_reportsOnly _).bind fun _ => .ok _) fun _ => .ok _

theorem action_isSafe {a : Grounded.Action} (h : ∀ c ∈ a.conditions, enc.HasOpposite T c) :
    (enc.action a).IsSafe T := by
  -- effects need no opposites, but they come first and may extend domains
  refine (enc.effectsAmong_isSafe _ _).bind_ensures
    ((enc.effectsAmong_ensures a.startEffects _ T).mono fun _ T₁ ⟨h₁, _⟩ => ?_)
  refine (enc.effectsAmong_isSafe _ _).bind_ensures
    ((enc.effectsAmong_ensures a.endEffects _ T₁).mono fun _ T₂ ⟨h₂, _⟩ => ?_)
  -- effects leave boolean variables boolean
  refine reportsOnly_get.bind_ensures (ensures_get.mpr (reportsOnly_lift ?_))
  exact enc.actionWith_reportsOnly (fun c hc => (h c hc).of_sameTables
    (h₁.trans h₂).toSameTables) _ _

/-- Encoded actions are created one after the other, as actions or as goals. -/
theorem createAll_isSafe {create : Action → Update Nat} (hsafe : ∀ b T, (create b).IsSafe T)
    (hcreate : ∀ b T, (create b).Ensures T fun _ T' => T.SameTables T')
    {actions : List Grounded.Action}
    (h : ∀ a ∈ actions, ∀ c ∈ a.conditions, enc.HasOpposite T c) :
    Update.IsSafe (actions.forM fun a => do discard (create (← enc.action a))) T := by
  refine reportsOnly_forM (I := fun T' => T.SameTables T') (fun a ha T₁ h₁ => ?_)
    (fun a _ T₁ h₁ => ?_) (.refl T)
  · exact (enc.action_isSafe fun c hc => (h a ha c hc).of_sameTables h₁).bind fun b T₂ =>
      (hsafe b T₂).map _
  · refine ensures_bind.mpr ((enc.action_ensures a T₁).mono fun b T₂ ⟨h₂, _⟩ => ?_)
    exact ensures_map.mpr ((hcreate b T₂).mono fun _ _ h₃ => (h₁.trans h₂.toSameTables).trans h₃)

/-- A pair is entered only if both propositions have places. -/
theorem addMutexPair_isSafe (v w : VarId) : (enc.addMutexPair v w).IsSafe T := by
  unfold addMutexPair
  split
  · split
    · exact reportsOnly_pure _
    · exact reportsOnly_modify _
  · exact reportsOnly_pure _

/-- **Actions, goals, constraints and the metric** are encoded in the tables that placing has left.
-/
theorem addConstructs_isSafe {actions : List Grounded.Action} (mutex : Mutex.Relation)
    (h : ∀ a ∈ actions ++ enc.grounded.goals, ∀ c ∈ a.conditions, enc.HasOpposite T c) :
    (enc.addConstructs actions mutex).IsSafe T := by
  obtain ⟨hactions, hgoals⟩ := List.forall_mem_append.mp h
  -- goals are encoded after the actions have extended domains
  have hfirst := enc.createAll_isSafe (fun _ _ => createAction_isSafe _)
    (fun b T => (createAction_ensures b T).mono fun _ _ h => h.1.toSameTables) hactions
  refine hfirst.bind_ensures ((enc.createActions_ensures actions T).mono fun _ T₁ ⟨h₁, _⟩ => ?_)
  have hsecond := enc.createAll_isSafe (T := T₁) (fun _ _ => createGoal_isSafe _)
    (fun b T => (createGoal_sameActions b T).mono fun _ _ h => h.toSameTables)
    fun a ha c hc => (hgoals a ha c hc).of_sameTables h₁.toSameTables
  refine hsecond.bind fun _ _ => reportsOnly_get.bind fun T₂ _ => ?_
  refine (reportsOnly_lift (enc.constraintList_reportsOnly _)).bind fun constraints _ => ?_
  refine (reportsOnly_lift ?_).bind fun metric _ => (reportsOnly_modify _).bind fun _ _ => ?_
  · cases enc.grounded.metric with
    | none => exact .ok none
    | some m => exact (enc.metric_reportsOnly m).map some
  · exact reportsOnly_forM_of_forall fun ⟨v, w⟩ _ => enc.addMutexPair_isSafe v w

end Encoder

/-- Deriving data fails for no other reasons. -/
theorem derive_isSafe (keepStatic : Bool) : (derive keepStatic).IsSafe T :=
  (reportsOnly_modify _).bind fun _ _ => computeRequirers_isSafe.bind fun _ _ =>
    computeProducers_isSafe.bind fun _ _ => computePermanentMutex_isSafe.bind fun _ _ =>
      computeCosts_isSafe keepStatic

/-! ## The whole task -/

/-- Where variables have been placed, every condition that is to be encoded has an opposite if it
needs one. -/
theorem hasOpposite_of_place {t : Grounded.Task} {o : Options} {isProposition : Array Bool}
    {mutex : Mutex.Relation} {actions : List Grounded.Action} {p : Placement} {T₀ : Task}
    (hplace : (place t o isProposition mutex actions).runOn .empty = (.ok p, T₀))
    (hplacement : IsPlacement t isProposition p T) :
    ∀ a ∈ actions ++ t.goals, ∀ c ∈ a.conditions,
      Encoder.HasOpposite ⟨t, isProposition, p⟩ T c := by
  intro a ha c hc hliteral hfalse f hf
  have htruth := (place_separates t o isProposition mutex actions p T₀ hplace).2 c.var
    (isMarked_negated ha hc hfalse hliteral) f (List.mem_of_mem_head? hf)
  exact (hplacement.isBooleanAt_iff hf).mpr htruth

/-- **Encoding fails with certain errors only.** -/
theorem encode_reportsOnly (t : Grounded.Task) (o : Options) :
    ReportsOnly IsBuildError (encode t o).result := by
  have hbuild : (build t o (Mutex.fixpoint t o.passLimit).mutex).IsSafe .empty := by
    refine (place_isSafe t o _ _ _).bind_ensures fun p T hplace => ?_
    obtain ⟨hplacement, -, -⟩ :=
      place_ensures t o (Mutex.isOver_fixpoint t o.passLimit) _ p T hplace
    -- the variables that need it are boolean from here on
    have hopposite := hasOpposite_of_place hplace hplacement
    refine (Encoder.setInitialValues_isSafe _).bind_ensures
      ((Encoder.setInitialValues_sameActions _ T).mono fun _ T₁ h₁ => ?_)
    refine (Encoder.addConstructs_isSafe _ _ fun a ha c hc => ?_).bind fun _ _ => derive_isSafe _
    exact (hopposite a ha c hc).of_sameTables h₁.toSameTables
  intro e he
  unfold encode at he
  dsimp only at he
  split at he
  · cases he
  next e' T hrun =>
    cases he
    exact hbuild e T hrun

/-- A condition that a proposition is false is one that its boolean variable is. -/
theorem condition_of_hasOpposite {enc : Encoder}
    (hplacement : IsPlacement enc.grounded enc.isProposition enc.placement T)
    {c : Grounded.Condition} (h : enc.HasOpposite T c) (hliteral : enc.isLiteral c.var = true)
    (hfalse : c.value = .falsity) {f : FactCode} (hf : enc.placement.fact? c.var = some f) :
    T.isBooleanAt f.var = true ∧ enc.condition T c = .ok (.plain f.var .falsity) := by
  have hboolean := h hliteral hfalse f hf
  refine ⟨hboolean, ?_⟩
  have hfact : enc.fact c.var = .ok f := by rw [Encoder.fact, hf]
  unfold Encoder.condition
  rw [if_pos hliteral]
  refine Grounding.except_bind_eq_ok.mpr ⟨f, hfact, ?_⟩
  rw [if_pos hfalse]
  exact Grounding.except_bind_eq_ok.mpr
    ⟨.falsity, Encoder.oppositeOf_eq hplacement (.refl T) hf hboolean, rfl⟩

/-- **Negated conditions can always be expressed.** Encoding never fails for want of an opposite
value, and every condition of an encoded action or a goal that a proposition is false is one that
a boolean variable is false, which holds the only fact of the proposition. -/
theorem encode_expresses_negations (t : Grounded.Task) (o : Options) :
    (∀ name, (encode t o).result ≠ .error (.noOppositeValue name)) ∧
      ∀ T, (encode t o).result = .ok T → ∃ enc, encoderOf t o = .ok enc ∧
        ∀ a ∈ keptActions t o ++ t.goals, ∀ c ∈ a.conditions,
          enc.isLiteral c.var = true → c.value = .falsity →
            ∃ f, enc.placement.factsOf c.var = [f] ∧ T.isBooleanAt f.var = true ∧
              enc.condition T c = .ok (.plain f.var .falsity) := by
  refine ⟨fun name h => (nomatch encode_reportsOnly t o _ h), fun T h => ?_⟩
  obtain ⟨p, hencoder, hplacement, -⟩ := encode_eq_ok h
  refine ⟨_, hencoder, fun a ha c hc hliteral hfalse => ?_⟩
  obtain ⟨T₀, hplace⟩ := exists_place_of_encoderOf hencoder
  have hsize := Mutex.size_propositions t ▸ Mutex.lt_size_of_isMarked hliteral
  obtain ⟨f, hf⟩ := place_single t o _ _ _ p T₀ hplace c.var hliteral hsize
  have hfirst : p.fact? c.var = some f := by rw [Placement.fact?, hf, List.head?_cons]
  exact ⟨f, hf, condition_of_hasOpposite hplacement
    (hasOpposite_of_place hplace hplacement a ha c hc) hliteral hfalse hfirst⟩

open Lifted in
/-- A parcel is here and can be brought there, and is sealed here as long as it is not there. -/
def sealing : Problem where
  task := .ofPropositions ["here", "there", "sealed"] [0]
  operators := [
    .ofHappenings "bring"
      ⟨[.ofProposition 0 .truth], [], [.ofProposition 0 .falsity, .ofProposition 1 .truth], []⟩
      .empty,
    .ofHappenings "seal"
      ⟨[.ofProposition 0 .truth, .ofProposition 1 .falsity], [], [.ofProposition 2 .truth], []⟩
      .empty]

/-- That the parcel is not there is expressed, although it being there excludes it being here. -/
theorem sealing_expresses_absence : ∃ (t : Grounded.Task) (T : Task) (enc : Encoder),
    Grounding.ground sealing false = .ok t ∧ (encode t {}).result = .ok T ∧
      encoderOf t {} = .ok enc ∧ ∃ a ∈ keptActions t {} ++ t.goals, ∃ c ∈ a.conditions,
        enc.isLiteral c.var = true ∧ c.value = .falsity ∧
        (Mutex.fixpoint t ({} : Options).passLimit).mutex.contains ⟨0⟩ c.var = true ∧
        ∃ f, enc.placement.factsOf c.var = [f] ∧ T.isBooleanAt f.var = true ∧
          enc.condition T c = .ok (.plain f.var .falsity) := by
  have hrun : ∃ t ∈ (Grounding.ground sealing false).toOption,
      ∃ T ∈ (encode t {}).result.toOption, ∃ enc ∈ (encoderOf t {}).toOption,
        ∃ a ∈ keptActions t {} ++ t.goals, ∃ c ∈ a.conditions,
          enc.isLiteral c.var = true ∧ c.value = .falsity ∧
          (Mutex.fixpoint t ({} : Options).passLimit).mutex.contains ⟨0⟩ c.var = true := by
    decide +kernel
  obtain ⟨t, ht, T, hT, enc, henc, a, ha, c, hc, hliteral, hfalse, hmutex⟩ := hrun
  have hencode := Grounding.eq_ok_of_mem_toOption hT
  have hencoder := Grounding.eq_ok_of_mem_toOption henc
  obtain ⟨enc', hencoder', hexpressed⟩ := (encode_expresses_negations t {}).2 T hencode
  rw [hencoder] at hencoder'
  cases hencoder'
  exact ⟨t, T, enc, Grounding.eq_ok_of_mem_toOption ht, hencode, hencoder, a, ha, c, hc, hliteral,
    hfalse, hmutex, hexpressed a ha c hc hliteral hfalse⟩

end TemporalPlanning.Encoding
