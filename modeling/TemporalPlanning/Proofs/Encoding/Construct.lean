import TemporalPlanning.Encoding.Encode
import TemporalPlanning.Proofs.Encoding.Effects
import TemporalPlanning.Proofs.FiniteDomain.Derived
import TemporalPlanning.Proofs.Grounding.WellFormed
/-!
What encoding makes of the actions.

After the variables have been placed, initial values, actions, goals and derived data are added.
None of this changes the tables, so the actions that are encoded one after the other all refer to
the same places, and so does the finished task.
-/
set_option autoImplicit false

namespace TemporalPlanning.Encoding

open FiniteDomain Grounding

/-! ## Initial values -/

/-- An initial value does not make a boolean variable anything else. -/
theorem setProposition_sameKind {value : ValueId} {holds : Bool} {time : Float} {v v' : Variable}
    (h : setProposition value holds time v = .ok v') : v.SameKind v' := by
  unfold setProposition at h
  split at h
  · exact Variable.addInitialValue_sameKind h
  next hshared =>
    split at h
    · have hboolean : v.isBoolean = false := by
        cases hb : v.isBoolean
        · rfl
        · rw [hb, Bool.or_true] at hshared
          exact absurd rfl hshared
      exact (Variable.allowUndefined_sameKind hboolean).trans (Variable.addInitialValue_sameKind h)
    · cases h
      exact .refl v

theorem setDefault_sameKind {v v' : Variable} (h : setDefault v = .ok v') : v.SameKind v' := by
  unfold setDefault at h
  split at h
  · cases h
    exact .refl v
  · split at h
    · exact Variable.addInitialValue_sameKind h
    next hshared =>
      have hboolean := Bool.eq_false_iff.mpr hshared
      exact (Variable.allowUndefined_sameKind hboolean).trans (Variable.addInitialValue_sameKind h)

namespace Encoder

variable (enc : Encoder)

theorem setNumber_sameActions (v : VarId) (var : Nat) (time : Float) (value : Value) (T : Task) :
    (enc.setNumber v var time value).Ensures T fun _ T' => T.SameActions T' := by
  unfold setNumber
  split
  · exact updateNumericVariable_sameActions T _ _
  · exact Update.ensures_throw

theorem setObject_sameActions (v : VarId) (var : Nat) (time : Float) (value : Value) (T : Task) :
    (enc.setObject v var time value).Ensures T fun _ T' => T.SameActions T' := by
  refine Update.ensures_bind.mpr (Update.ensures_get.mpr ?_)
  split
  · exact updateVariable_sameActions T _ _ fun v v' h => Variable.addInitialValue_sameKind h
  · exact Update.ensures_throw

theorem setInitial_sameActions (v : Grounded.Variable) (T : Task) :
    (enc.setInitial v).Ensures T fun _ T' => T.SameActions T' := by
  unfold setInitial
  split
  · exact forM_sameActions (fun ⟨time, value⟩ _ T => enc.setNumber_sameActions _ _ time value T) T
  split
  · exact forM_sameActions (fun ⟨time, value⟩ _ T => enc.setObject_sameActions _ _ time value T) T
  split
  · exact forM_sameActions (fun ⟨time, value⟩ _ T =>
      updateVariable_sameActions T _ _ fun v v' h => setProposition_sameKind h) T
  · exact Update.ensures_pure.mpr (.refl T)

/-- Replacing all variables by others of their kinds keeps the tables. -/
theorem sameActions_of_forall₂ {T : Task} {vars : List Variable}
    (h : List.Forall₂ Variable.SameKind T.vars.toList vars) :
    T.SameActions { T with vars := vars.toArray } := by
  refine ⟨⟨⟨rfl, ?_, fun var => ?_⟩, fun var value hvalue => ?_⟩, rfl⟩
  · show vars.toArray.size = T.vars.size
    rw [List.size_toArray, ← h.length_eq, Array.length_toList]
  · -- by induction on the related lists, at a position
    unfold Task.isBooleanAt
    dsimp only
    rw [List.getElem?_toArray, ← Array.getElem?_toList]
    generalize T.vars.toList = old at h
    induction h generalizing var with
    | nil => rfl
    | cons hhead _ ih =>
      cases var with
      | zero => exact hhead.isBoolean_eq
      | succ var => exact ih var
  · obtain ⟨x, hx, hmem⟩ := hvalue
    unfold Task.HasValueAt
    rw [List.getElem?_toArray]
    rw [← Array.getElem?_toList] at hx
    generalize T.vars.toList = old at h hx
    induction h generalizing var with
    | nil => cases hx
    | cons hhead _ ih =>
      cases var with
      | zero =>
        cases hx
        exact ⟨_, rfl, hhead.domain value hmem⟩
      | succ var => exact ih var hx

/-- Initial values change neither the kinds of the variables nor the actions. -/
theorem setInitialValues_sameActions (T : Task) :
    enc.setInitialValues.Ensures T fun _ T' => T.SameActions T' := by
  refine Update.ensures_bind.mpr ((forM_sameActions (fun v _ T => enc.setInitial_sameActions v T)
    T).mono fun _ T₁ h₁ => ?_)
  refine Update.ensures_bind.mpr (Update.ensures_get.mpr ?_)
  refine Update.ensures_bind.mpr (Update.ensures_lift.mpr fun vars hvars => ?_)
  refine Update.ensures_modify.mpr (h₁.trans (sameActions_of_forall₂ ?_))
  exact (except_mapM_eq_ok hvars).imp fun _ _ h => setDefault_sameKind h

/-! ## Effects -/

/-- The fact of a proposition is the one it has been placed at. -/
theorem fact_eq_ok {v : VarId} {f : FactCode} (h : enc.fact v = .ok f) :
    enc.placement.fact? v = some f := by
  unfold fact at h
  split at h
  next hf =>
    cases h
    exact hf
  · cases h

/-- The value of an object is found by its name, on the variable of the placement. -/
theorem objectFact_eq_ok {T : Task} {v : VarId} {o : ObjectId} {var : Nat} {value : ValueId}
    (h : enc.objectFact T v o = .ok (var, value)) :
    enc.placement.finite? v = some var ∧ T.value? (enc.objectName o) = some value := by
  unfold objectFact at h
  split at h
  · cases h
  next hvar =>
    split at h
    next hvalue =>
      cases h
      obtain ⟨value', hnamed, hvalue⟩ := Option.bind_eq_some_iff.mp hvalue
      obtain ⟨y, -, hvalue⟩ := Option.bind_eq_some_iff.mp hvalue
      split at hvalue
      · cases hvalue
        exact ⟨hvar, hnamed⟩
      · cases hvalue
    · cases h

/-- A delete writes the resting value of the variable, which is allowed there first. -/
theorem deletion_ensures (f : FactCode) (T : Task) : (deletion f).Ensures T fun c T' =>
    T.SameActions T' ∧ c = .plain f.var (T.restingValue f.var) := by
  refine Update.ensures_bind.mpr (Update.ensures_get.mpr ?_)
  unfold Task.restingValue
  cases hboolean : T.isBooleanAt f.var
  · have hboolean : T.vars[f.var]?.any Variable.isBoolean = false := hboolean
    rw [hboolean]
    refine Update.ensures_bind.mpr ((modifyVariable_sameActions T _ _ fun v hv => ?_).mono
      fun _ T' hT' => Update.ensures_pure.mpr ⟨hT', rfl⟩)
    rw [hv] at hboolean
    exact Variable.allowUndefined_sameKind hboolean
  · have hboolean : T.vars[f.var]?.any Variable.isBoolean = true := hboolean
    rw [hboolean]
    exact Update.ensures_pure.mpr ⟨.refl T, rfl⟩

/-- An effect is encoded as the placement says, or left out if another one sets its variable. -/
theorem effect_ensures (together : List Grounded.Condition) (e : Grounded.Condition) (T : Task) :
    (enc.effect together e).Ensures T fun c? T' =>
      T.SameActions T' ∧ enc.EncodesEffect T together e c? := by
  unfold effect
  split
  next hdeletion =>
    obtain ⟨hliteral, hfalse⟩ := Bool.and_eq_true_iff.mp hdeletion
    have hfalse := beq_iff_eq.mp hfalse
    -- a deletion of a literal is one of the three kinds of effects
    have hencodes : ∀ {c?}, (∃ f, enc.placement.fact? e.var = some f ∧
        c? = if together.any (enc.adds f.var e.var) then none
          else some (.plain f.var (T.restingValue f.var))) → enc.EncodesEffect T together e c? :=
      fun h => ⟨fun _ _ => h, fun _ hne => absurd hfalse hne, fun hnot => by
        rw [hliteral] at hnot
        cases hnot⟩
    refine Update.ensures_bind.mpr (Update.ensures_lift.mpr fun f hf => ?_)
    have hf := enc.fact_eq_ok hf
    split
    next hany =>
      exact Update.ensures_pure.mpr ⟨.refl T, hencodes ⟨f, hf, by rw [if_pos hany]⟩⟩
    next hany =>
      refine Update.ensures_bind.mpr ((deletion_ensures f T).mono ?_)
      rintro c T' ⟨hT', rfl⟩
      exact Update.ensures_pure.mpr ⟨hT', hencodes ⟨f, hf, by rw [if_neg hany]⟩⟩
  next hdeletion =>
    refine Update.ensures_bind.mpr (Update.ensures_get.mpr ?_)
    refine Update.ensures_bind.mpr (Update.ensures_lift.mpr fun c hc => ?_)
    refine Update.ensures_pure.mpr ⟨.refl T, ?_⟩
    unfold condition at hc
    cases hliteral : enc.isLiteral e.var
    · rw [hliteral] at hc
      obtain ⟨⟨var, value⟩, hplace, hc⟩ := except_bind_eq_ok.mp hc
      cases hc
      obtain ⟨hvar, hvalue⟩ := enc.objectFact_eq_ok hplace
      refine ⟨fun h => ?_, fun h => ?_, fun _ => ⟨var, value, hvar, hvalue, rfl⟩⟩
      · rw [hliteral] at h
        cases h
      · rw [hliteral] at h
        cases h
    · rw [hliteral] at hc
      have hne : e.value ≠ .falsity := fun hfalse =>
        hdeletion (by rw [hliteral, hfalse]; rfl)
      obtain ⟨f, hf, hc⟩ := except_bind_eq_ok.mp hc
      rw [if_neg hne] at hc
      cases hc
      refine ⟨fun _ hfalse => absurd hfalse hne, fun _ _ => ⟨f, enc.fact_eq_ok hf, rfl⟩,
        fun h => ?_⟩
      rw [hliteral] at h
      cases h

theorem effectsAmong_ensures (together es : List Grounded.Condition) (T : Task) :
    (enc.effectsAmong together es).Ensures T fun cs T' =>
      T.SameActions T' ∧ enc.EncodesEffects T together es cs := by
  induction es generalizing T with
  | nil => exact Update.ensures_pure.mpr ⟨.refl T, [], .nil, rfl⟩
  | cons e es ih =>
    refine Update.ensures_bind.mpr ((enc.effect_ensures together e T).mono ?_)
    rintro c? T₁ ⟨h₁, hfirst⟩
    refine Update.ensures_bind.mpr ((ih T₁).mono ?_)
    rintro cs T₂ ⟨h₂, hothers⟩
    -- the first effect may have allowed a variable to be undefined, which changes no place
    obtain ⟨results, hresults, rfl⟩ := hothers.of_sameTables h₁.symm
    exact Update.ensures_pure.mpr ⟨h₁.trans h₂, c? :: results, .cons hfirst hresults,
      List.flatMap_cons.symm⟩

/-! ## Actions -/

/-- An action has been encoded: its effects have. -/
structure EncodesAction (T : Task) (a : Grounded.Action) (b : Action) : Prop where
  name_eq : b.name = a.name
  startEffects : enc.EncodesEffects T a.startEffects a.startEffects b.startEffects
  endEffects : enc.EncodesEffects T a.endEffects a.endEffects b.endEffects

variable {enc} in
theorem EncodesAction.of_sameTables {T T' : Task} {a : Grounded.Action} {b : Action}
    (h : enc.EncodesAction T a b) (hsame : T.SameTables T') : enc.EncodesAction T' a b :=
  ⟨h.name_eq, h.startEffects.of_sameTables hsame, h.endEffects.of_sameTables hsame⟩

theorem actionWith_eq_ok {T : Task} {a : Grounded.Action} {startEffects endEffects : List Condition}
    {b : Action} (h : enc.actionWith T a startEffects endEffects = .ok b) :
    b.name = a.name ∧ b.startEffects = startEffects ∧ b.endEffects = endEffects := by
  unfold actionWith at h
  -- conditions, durations, costs and preferences play no part
  iterate 10 obtain ⟨_, -, h⟩ := except_bind_eq_ok.mp h
  cases h
  exact ⟨rfl, rfl, rfl⟩

/-- Both lists of effects are encoded for the same tables. -/
theorem action_ensures (a : Grounded.Action) (T : Task) :
    (enc.action a).Ensures T fun b T' => T.SameActions T' ∧ enc.EncodesAction T a b := by
  refine Update.ensures_bind.mpr ((enc.effectsAmong_ensures a.startEffects _ T).mono ?_)
  rintro startEffects T₁ ⟨h₁, hstart⟩
  refine Update.ensures_bind.mpr ((enc.effectsAmong_ensures a.endEffects _ T₁).mono ?_)
  rintro endEffects T₂ ⟨h₂, hend⟩
  refine Update.ensures_bind.mpr (Update.ensures_get.mpr (Update.ensures_lift.mpr fun b hb => ?_))
  obtain ⟨hname, hstartEffects, hendEffects⟩ := enc.actionWith_eq_ok hb
  -- the effects at the start were encoded before those at the end, with the same tables
  refine ⟨h₁.trans h₂, hname, ?_, ?_⟩
  · rw [hstartEffects]
    exact hstart
  · rw [hendEffects]
    exact hend.of_sameTables h₁.symm

/-- Actions are encoded one after the other. -/
theorem createActions_ensures (actions : List Grounded.Action) (T : Task) :
    Update.Ensures (actions.forM fun a => do discard (createAction (← enc.action a))) T
      fun _ T' => T.KeepsTables T' ∧ ∃ encoded, T'.actions.toList = T.actions.toList ++ encoded ∧
        List.Forall₂ (enc.EncodesAction T') actions encoded := by
  refine forM_adds (fun T => T.actions.toList) (fun _ _ _ _ hsame h => h.of_sameTables hsame)
    (fun a T => ?_) actions T
  refine Update.ensures_bind.mpr ((enc.action_ensures a T).mono ?_)
  rintro b T₁ ⟨h₁, hb⟩
  refine Update.ensures_map.mpr ((createAction_ensures b T₁).mono fun _ T₂ ⟨h₂, hpush⟩ => ?_)
  have hsame : T.KeepsTables T₂ := h₁.toKeepsTables.trans h₂
  refine ⟨hsame, { b with index := T₁.actions.size }, ?_, ?_⟩
  · rw [hpush, Array.toList_push, h₁.actions]
  · exact EncodesAction.of_sameTables ⟨hb.name_eq, hb.startEffects, hb.endEffects⟩
      hsame.toSameTables

theorem createGoals_sameActions (goals : List Grounded.Action) (T : Task) :
    Update.Ensures (goals.forM fun a => do discard (createGoal (← enc.action a))) T
      fun _ T' => T.SameActions T' := by
  refine forM_sameActions (fun a _ T => ?_) T
  refine Update.ensures_bind.mpr ((enc.action_ensures a T).mono fun b T₁ ⟨h₁, _⟩ => ?_)
  exact Update.ensures_map.mpr ((createGoal_sameActions b T₁).mono fun _ _ h₂ => h₁.trans h₂)

/-- Mutex pairs are kept in a table of their own. -/
theorem addMutexPair_sameActions (v w : VarId) (T : Task) :
    (enc.addMutexPair v w).Ensures T fun _ T' => T.SameActions T' := by
  unfold addMutexPair
  split
  · split
    · exact Update.ensures_pure.mpr (.refl T)
    · exact Update.ensures_modify.mpr (.of_eq rfl rfl rfl)
  · exact Update.ensures_pure.mpr (.refl T)

/-- The actions of the encoded task are those that were to be encoded, one by one. -/
theorem addConstructs_ensures (actions : List Grounded.Action) (mutex : Mutex.Relation) {T : Task}
    (hempty : T.actions = #[]) : (enc.addConstructs actions mutex).Ensures T fun _ T' =>
      T.KeepsTables T' ∧ List.Forall₂ (enc.EncodesAction T') actions T'.actions.toList := by
  refine Update.ensures_bind.mpr ((enc.createActions_ensures actions T).mono ?_)
  rintro _ T₁ ⟨h₁, encoded, hactions, hencoded⟩
  refine Update.ensures_bind.mpr ((enc.createGoals_sameActions _ T₁).mono fun _ T₂ h₂ => ?_)
  refine Update.ensures_bind.mpr (Update.ensures_get.mpr ?_)
  refine Update.ensures_bind.mpr (Update.ensures_lift.mpr fun constraints _ => ?_)
  refine Update.ensures_bind.mpr (Update.ensures_lift.mpr fun metric _ => ?_)
  refine Update.ensures_bind.mpr (Update.ensures_modify.mpr ?_)
  refine (forM_sameActions (fun ⟨v, w⟩ _ T => enc.addMutexPair_sameActions v w T) _).mono ?_
  intro _ T₃ h₃
  have hsame : T₁.KeepsTables T₃ :=
    h₂.toKeepsTables.trans ⟨⟨h₃.values, h₃.size, h₃.boolean⟩, h₃.held⟩
  have hlast : T₃.actions.toList = encoded := by
    have h₃ : T₃.actions = T₂.actions := h₃.actions
    rw [h₃, h₂.actions, hactions, hempty]
    rfl
  -- the references were made for the tables in between, which are still the same
  rw [hlast]
  exact ⟨h₁.trans hsame, hencoded.imp fun _ _ h => h.of_sameTables hsame.toSameTables⟩

end Encoder

/-! ## The encoded task -/

/-- Deriving data changes nothing of an action but its cost. -/
theorem derive_ensures (keepStatic : Bool) (T : Task) : (derive keepStatic).Ensures T fun _ T' =>
    T.KeepsTables T' ∧ List.Forall₂ Action.SameButCost T.actions.toList T'.actions.toList := by
  refine Update.ensures_bind.mpr (Update.ensures_modify.mpr ?_)
  have h₀ := withInitialState_sameActions T
  refine Update.ensures_bind.mpr ((computeRequirers_sameActions _).mono fun _ T₁ h₁ => ?_)
  refine Update.ensures_bind.mpr ((computeProducers_sameActions T₁).mono fun _ T₂ h₂ => ?_)
  refine Update.ensures_bind.mpr ((computePermanentMutex_sameActions T₂).mono fun _ T₃ h₃ => ?_)
  have hsame := ((h₀.trans h₁).trans h₂).trans h₃
  refine (computeCosts_ensures keepStatic T₃).mono fun _ T₄ ⟨h₄, hcosts⟩ => ?_
  refine ⟨hsame.toKeepsTables.trans h₄, ?_⟩
  rw [← hsame.actions]
  exact hcosts

theorem forall₂_trans {α β γ : Type} {R : α → β → Prop} {S : β → γ → Prop} {U : α → γ → Prop}
    (h : ∀ a b c, R a b → S b c → U a c) {as : List α} {bs : List β} {cs : List γ}
    (hab : List.Forall₂ R as bs) (hbc : List.Forall₂ S bs cs) : List.Forall₂ U as cs := by
  induction hab generalizing cs with
  | nil =>
    cases hbc
    exact .nil
  | cons hhead _ ih =>
    cases hbc with
    | cons hhead' htail => exact .cons (h _ _ _ hhead hhead') (ih htail)

/-- The actions of a task that are encoded. -/
def keptActions (t : Grounded.Task) (o : Options) : List Grounded.Action :=
  consistentActions t (Mutex.fixpoint t o.passLimit).mutex

/-- The places that encoding a task chooses for its variables. -/
def encoderOf (t : Grounded.Task) (o : Options) : Except Error Encoder :=
  ((place t o (Mutex.propositions t) (Mutex.fixpoint t o.passLimit).mutex
    (keptActions t o)).runOn .empty).1.map fun placement => ⟨t, Mutex.propositions t, placement⟩

/-- The encoder holds the placement that placing has returned. -/
theorem encoderOf_eq {t : Grounded.Task} {o : Options} {p : Placement} {T₀ : Task}
    (hplace : (place t o (Mutex.propositions t) (Mutex.fixpoint t o.passLimit).mutex
      (keptActions t o)).runOn .empty = (.ok p, T₀)) :
    encoderOf t o = .ok ⟨t, Mutex.propositions t, p⟩ := by
  unfold encoderOf
  rw [hplace]
  rfl

/-- The places of an encoder are the ones that have been chosen. -/
theorem exists_place_of_encoderOf {t : Grounded.Task} {o : Options} {enc : Encoder}
    (h : encoderOf t o = .ok enc) : ∃ T₀,
      (place t o (Mutex.propositions t) (Mutex.fixpoint t o.passLimit).mutex
        (keptActions t o)).runOn .empty = (.ok enc.placement, T₀) := by
  unfold encoderOf at h
  rcases hrun : (place t o (Mutex.propositions t) (Mutex.fixpoint t o.passLimit).mutex
    (keptActions t o)).runOn .empty with ⟨e | p, T₀⟩
  · rw [hrun] at h
    cases h
  · rw [hrun] at h
    cases h
    exact ⟨T₀, rfl⟩

/-- The phases of encoding a task, if it succeeds. -/
theorem encode_phases {t : Grounded.Task} {o : Options} {T : Task}
    (h : (encode t o).result = .ok T) : ∃ p T₀ T₁ T₂,
      (place t o (Mutex.propositions t) (Mutex.fixpoint t o.passLimit).mutex
        (keptActions t o)).runOn .empty = (.ok p, T₀) ∧
      (Encoder.setInitialValues ⟨t, Mutex.propositions t, p⟩).runOn T₀ = (.ok (), T₁) ∧
      (Encoder.addConstructs ⟨t, Mutex.propositions t, p⟩ (keptActions t o)
        (Mutex.fixpoint t o.passLimit).mutex).runOn T₁ = (.ok (), T₂) ∧
      (derive o.keepStatic).runOn T₂ = (.ok (), T) := by
  have hbuild : (build t o (Mutex.fixpoint t o.passLimit).mutex).runOn .empty = (.ok (), T) := by
    unfold encode at h
    dsimp only at h
    split at h
    next u T' hrun =>
      cases h
      exact hrun
    · cases h
  obtain ⟨p, T₀, hplace, h⟩ := Update.exists_runOn_of_bind hbuild
  obtain ⟨_, T₁, hinitial, h⟩ := Update.exists_runOn_of_bind h
  obtain ⟨_, T₂, hconstructs, hderive⟩ := Update.exists_runOn_of_bind h
  exact ⟨p, T₀, T₁, T₂, hplace, hinitial, hconstructs, hderive⟩

/-- **An encoded task** places all variables, mutex propositions share some, and its actions are the
encoded ones. -/
theorem encode_eq_ok {t : Grounded.Task} {o : Options} {T : Task}
    (h : (encode t o).result = .ok T) : ∃ p,
      encoderOf t o = .ok ⟨t, Mutex.propositions t, p⟩ ∧
      IsPlacement t (Mutex.propositions t) p T ∧
      SharesAmong t (Mutex.fixpoint t o.passLimit).mutex.Lists p T ∧
      List.Forall₂ (Encoder.EncodesAction ⟨t, Mutex.propositions t, p⟩ T) (keptActions t o)
        T.actions.toList := by
  obtain ⟨p, T₀, T₁, T₂, hplace, hinitial, hconstructs, hderive⟩ := encode_phases h
  obtain ⟨hplacement, hshares, hempty⟩ :=
    place_ensures t o (Mutex.isOver_fixpoint t o.passLimit) _ p T₀ hplace
  have h₁ := Encoder.setInitialValues_sameActions _ T₀ () T₁ hinitial
  obtain ⟨h₂, hactions⟩ := Encoder.addConstructs_ensures _ _ _ (h₁.actions.trans hempty) () T₂
    hconstructs
  obtain ⟨h₃, hcosts⟩ := derive_ensures o.keepStatic T₂ () T hderive
  -- the tables have been the same since the variables were placed
  have hsame : T₀.KeepsTables T := (h₁.toKeepsTables.trans h₂).trans h₃
  refine ⟨p, encoderOf_eq hplace, ?_, ⟨hshares.shared, fun hnames v f hf => ?_⟩, ?_⟩
  · exact hplacement.congr hsame.values hsame.size fun _ f _ => hsame.boolean f.var
  · exact hsame.held f.var f.value (hshares.held hnames v f hf)
  · refine forall₂_trans (S := Action.SameButCost) (fun a b c hb hc => ?_) hactions hcosts
    rw [hc]
    exact Encoder.EncodesAction.of_sameTables ⟨hb.name_eq, hb.startEffects, hb.endEffects⟩
      h₃.toSameTables

end TemporalPlanning.Encoding
