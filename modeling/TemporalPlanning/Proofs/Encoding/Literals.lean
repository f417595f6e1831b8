import TemporalPlanning.Proofs.Encoding.Construct
import TemporalPlanning.Proofs.Encoding.Frames
/-!
The conditions and goals of an encoded task are the encoded ones.

Conditions of an action are encoded after its effects, in a task whose tables stay as they are from
then on; so are preferences and, in the end, constraints. Effects decide which conditions are marked
as modified, which does not matter for what they say.
-/
set_option autoImplicit false

namespace TemporalPlanning.Encoding

open FiniteDomain

namespace Encoder

variable (enc : Encoder)

/-- A condition has been encoded, whether or not effects modify it. -/
def EncodesCondition (T : Task) (c : Grounded.Condition) (c' : Condition) : Prop :=
  ∃ d, enc.condition T c = .ok d ∧ c'.var = d.var ∧ c'.value = d.value

/-- The literal conditions and preferences of an action have been encoded. -/
structure EncodesLiterals (T : Task) (a : Grounded.Action) (b : Action) : Prop where
  startConditions : List.Forall₂ (enc.EncodesCondition T) a.startConditions b.startConditions
  invariants : List.Forall₂ (enc.EncodesCondition T) a.invariants b.invariants
  endConditions : List.Forall₂ (enc.EncodesCondition T) a.endConditions b.endConditions
  preferences : List.Forall₂ (fun q q' => enc.preference T q = .ok q') a.preferences b.preferences

/-- They have been encoded in a task with the tables of another one. -/
def HasEncodedLiterals (T : Task) (a : Grounded.Action) (b : Action) : Prop :=
  ∃ T₁, T₁.SameTables T ∧ enc.EncodesLiterals T₁ a b

/-! ## Actions and goals -/

section Actions

variable {enc} {T T' : Task} {a : Grounded.Action} {b b' : Action}

theorem EncodesLiterals.congr (h : enc.EncodesLiterals T a b)
    (hstart : b'.startConditions = b.startConditions) (hinvariants : b'.invariants = b.invariants)
    (hend : b'.endConditions = b.endConditions) (hpreferences : b'.preferences = b.preferences) :
    enc.EncodesLiterals T a b' :=
  ⟨hstart ▸ h.startConditions, hinvariants ▸ h.invariants, hend ▸ h.endConditions,
    hpreferences ▸ h.preferences⟩

theorem HasEncodedLiterals.of_sameTables (h : enc.HasEncodedLiterals T a b)
    (hsame : T.SameTables T') : enc.HasEncodedLiterals T' a b := by
  obtain ⟨T₁, h₁, hliterals⟩ := h
  exact ⟨T₁, h₁.trans hsame, hliterals⟩

theorem forall₂_encodesCondition {cs : List Grounded.Condition} {cs' : List Condition}
    (h : cs.mapM (enc.condition T) = .ok cs') {mark : Condition → Condition}
    (hmark : ∀ c, (mark c).var = c.var ∧ (mark c).value = c.value) :
    List.Forall₂ (enc.EncodesCondition T) cs (cs'.map mark) :=
  List.forall₂_map_right_iff.mpr ((Grounding.except_mapM_eq_ok h).imp fun _ d hd =>
    ⟨d, hd, hmark d⟩)

theorem encodesLiterals_of_actionWith {startEffects endEffects : List Condition}
    (h : enc.actionWith T a startEffects endEffects = .ok b) : enc.EncodesLiterals T a b := by
  unfold actionWith at h
  obtain ⟨_, -, h⟩ := Grounding.except_bind_eq_ok.mp h
  obtain ⟨startConditions, hstart, h⟩ := Grounding.except_bind_eq_ok.mp h
  obtain ⟨invariants, hinvariants, h⟩ := Grounding.except_bind_eq_ok.mp h
  obtain ⟨endConditions, hend, h⟩ := Grounding.except_bind_eq_ok.mp h
  -- numeric conditions and effects play no part
  iterate 5 obtain ⟨_, -, h⟩ := Grounding.except_bind_eq_ok.mp h
  obtain ⟨preferences, hpreferences, h⟩ := Grounding.except_bind_eq_ok.mp h
  cases h
  exact ⟨forall₂_encodesCondition hstart fun _ => ⟨rfl, rfl⟩,
    forall₂_encodesCondition hinvariants fun _ => ⟨rfl, rfl⟩,
    forall₂_encodesCondition hend fun _ => ⟨rfl, rfl⟩, Grounding.except_mapM_eq_ok hpreferences⟩

end Actions

theorem action_literals (a : Grounded.Action) (T : Task) : (enc.action a).Ensures T fun b T' =>
    T.SameActions T' ∧ enc.EncodesLiterals T' a b := by
  refine Update.ensures_bind.mpr ((enc.effectsAmong_ensures a.startEffects _ T).mono ?_)
  rintro startEffects T₁ ⟨h₁, -⟩
  refine Update.ensures_bind.mpr ((enc.effectsAmong_ensures a.endEffects _ T₁).mono ?_)
  rintro endEffects T₂ ⟨h₂, -⟩
  refine Update.ensures_bind.mpr (Update.ensures_get.mpr (Update.ensures_lift.mpr fun b hb => ?_))
  exact ⟨h₁.trans h₂, encodesLiterals_of_actionWith hb⟩

theorem createActions_literals (actions : List Grounded.Action) (T : Task) :
    Update.Ensures (actions.forM fun a => do discard (createAction (← enc.action a))) T
      fun _ T' => T.KeepsTables T' ∧ ∃ encoded, T'.actions.toList = T.actions.toList ++ encoded ∧
        List.Forall₂ (enc.HasEncodedLiterals T') actions encoded := by
  refine forM_adds (fun T => T.actions.toList)
    (fun _ _ _ _ hsame h => h.of_sameTables hsame) (fun a T => ?_) actions T
  refine Update.ensures_bind.mpr ((enc.action_literals a T).mono ?_)
  rintro b T₁ ⟨h₁, hb⟩
  refine Update.ensures_map.mpr ((createAction_ensures b T₁).mono fun _ T₂ ⟨h₂, hpush⟩ => ?_)
  refine ⟨h₁.toKeepsTables.trans h₂, { b with index := T₁.actions.size }, ?_, T₁,
    h₂.toSameTables, ?_⟩
  · rw [hpush, Array.toList_push, h₁.actions]
  · exact hb.congr rfl rfl rfl rfl

/-- Goals are added in their order, and what an earlier one needs of the tables is kept by the later
ones. -/
theorem createGoals_literals (goals : List Grounded.Action) (T : Task) :
    Update.Ensures (goals.forM fun a => do discard (createGoal (← enc.action a))) T
      fun _ T' => T.KeepsTables T' ∧ ∃ encoded, T'.goals.toList = T.goals.toList ++ encoded ∧
        List.Forall₂ (enc.HasEncodedLiterals T') goals encoded := by
  refine forM_adds (fun T => T.goals.toList)
    (fun _ _ _ _ hsame h => h.of_sameTables hsame) (fun a T => ?_) goals T
  refine Update.ensures_bind.mpr
    (((enc.action_literals a T).and (enc.action_keeps aims_ignoresTables.domains a T)).mono ?_)
  rintro b T₁ ⟨⟨h₁, hb⟩, haims⟩
  refine Update.ensures_map.mpr (Update.ensures_bind.mpr (Update.ensures_get.mpr ?_))
  refine Update.ensures_bind.mpr (Update.ensures_modify.mpr (Update.ensures_pure.mpr ?_))
  refine ⟨h₁.toKeepsTables.trans (.of_eq rfl rfl),
    { b with index := T₁.goals.size, name := goalName, isGoal := true }, ?_, T₁,
    ⟨rfl, rfl, fun _ => rfl⟩, hb.congr rfl rfl rfl rfl⟩
  have hgoals : T₁.goals = T.goals := congrArg Prod.fst haims
  show (T₁.goals.push _).toList = _
  rw [Array.toList_push, hgoals]

/-- What the constructs of an encoded task have been encoded from. -/
structure EncodesTask (actions : List Grounded.Action) (T : Task) : Prop where
  actions : List.Forall₂ (enc.HasEncodedLiterals T) actions T.actions.toList
  goals : List.Forall₂ (enc.HasEncodedLiterals T) enc.grounded.goals T.goals.toList
  constraints : ∃ T₁, T₁.SameTables T ∧
    enc.constraintList T₁ enc.grounded.constraints = .ok T.constraints

theorem addConstructs_encodesTask (actions : List Grounded.Action) (mutex : Mutex.Relation)
    {T : Task} (hactions : T.actions = #[]) (hgoals : T.goals = #[]) :
    (enc.addConstructs actions mutex).Ensures T fun _ T' => enc.EncodesTask actions T' := by
  refine Update.ensures_bind.mpr (((enc.createActions_literals actions T).and
    (enc.createActions_keeps aims_ignoresTables.domains (fun _ _ => rfl) actions T)).mono ?_)
  rintro _ T₁ ⟨⟨h₁, encoded, hencoded, hliterals⟩, haims₁⟩
  refine Update.ensures_bind.mpr (((enc.createGoals_literals _ T₁).and
    (enc.createGoals_sameActions _ T₁)).mono ?_)
  rintro _ T₂ ⟨⟨h₂, encodedGoals, hencodedGoals, hgoalLiterals⟩, hsame₂⟩
  refine Update.ensures_bind.mpr (Update.ensures_get.mpr ?_)
  refine Update.ensures_bind.mpr (Update.ensures_lift.mpr fun constraints hconstraints => ?_)
  refine Update.ensures_bind.mpr (Update.ensures_lift.mpr fun metric _ => ?_)
  refine Update.ensures_bind.mpr (Update.ensures_modify.mpr ?_)
  refine ((forM_sameActions (fun ⟨v, w⟩ _ T => enc.addMutexPair_sameActions v w T) _).and
    (Update.keeps_forM (fun ⟨v, w⟩ => enc.addMutexPair_keepsAims v w) _)).mono ?_
  -- mutex facts change neither tables nor actions, goals and constraints
  rintro _ T₃ ⟨h₃, haims₃⟩
  have hsame₃ : T₂.SameTables T₃ := ⟨h₃.values, h₃.size, h₃.boolean⟩
  have haims : (T₃.goals, T₃.constraints) = (T₂.goals, constraints) := haims₃
  obtain ⟨hgoals₃, hconstraints₃⟩ := Prod.mk.inj haims
  have hgoals₁ : T₁.goals = T.goals := congrArg Prod.fst haims₁
  refine ⟨?_, ?_, T₂, hsame₃, ?_⟩
  · have hactions₃ : T₃.actions = T₂.actions := h₃.actions
    rw [hactions₃, hsame₂.actions, hencoded, hactions]
    exact hliterals.imp fun _ _ h => h.of_sameTables (h₂.toSameTables.trans hsame₃)
  · rw [hgoals₃, hencodedGoals, hgoals₁, hgoals]
    exact hgoalLiterals.imp fun _ _ h => h.of_sameTables hsame₃
  · rw [hconstraints₃]
    exact hconstraints

end Encoder

/-- **The constructs of an encoded task are the encoded ones.** -/
theorem encode_encodesTask {t : Grounded.Task} {o : Options} {T : Task}
    (h : (encode t o).result = .ok T) {enc : Encoder} (henc : encoderOf t o = .ok enc) :
    enc.EncodesTask (keptActions t o) T := by
  obtain ⟨p, T₀, T₁, T₂, hplace, hinitial, hconstructs, hderive⟩ := encode_phases h
  rw [encoderOf_eq hplace] at henc
  cases henc
  -- no actions and goals have been created before
  obtain ⟨-, -, hactions⟩ :=
    place_ensures t o (Mutex.isOver_fixpoint t o.passLimit) _ p T₀ hplace
  have h₁ := Encoder.setInitialValues_sameActions _ T₀ () T₁ hinitial
  have haims : (T₁.goals, T₁.constraints) = (#[], []) :=
    (Encoder.setInitialValues_keeps _ aims_ignoresTables T₀ () T₁ hinitial).trans
      (place_keeps t aims_ignoresTables.placing o _ _ _ .empty p T₀ hplace)
  have h₂ := Encoder.addConstructs_encodesTask _ _ _ (h₁.actions.trans hactions)
    (congrArg Prod.fst haims) () T₂ hconstructs
  obtain ⟨hsame, hcosts⟩ := derive_ensures o.keepStatic T₂ () T hderive
  obtain ⟨hgoals, hconstraints⟩ := derive_aims o.keepStatic T₂ () T hderive
  refine ⟨?_, ?_, ?_⟩
  · refine forall₂_trans (S := Action.SameButCost) (fun a b c hb hc => ?_) h₂.actions hcosts
    obtain ⟨T', hT', hb⟩ := hb.of_sameTables hsame.toSameTables
    rw [hc]
    exact ⟨T', hT', hb.congr rfl rfl rfl rfl⟩
  · rw [hgoals, Array.toList_map]
    refine List.forall₂_map_right_iff.mpr (h₂.goals.imp fun a b hb => ?_)
    obtain ⟨T', hT', hb⟩ := hb.of_sameTables hsame.toSameTables
    exact ⟨T', hT', hb.congr rfl rfl rfl rfl⟩
  · obtain ⟨T', hT', hencoded⟩ := h₂.constraints
    rw [hconstraints]
    exact ⟨T', hT'.trans hsame.toSameTables, hencoded⟩

end TemporalPlanning.Encoding
