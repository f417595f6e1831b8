import TemporalPlanning.Encoding.Encode
import TemporalPlanning.Proofs.FiniteDomain.Frames
import TemporalPlanning.Proofs.FiniteDomain.Tables
/-!
Parts of a finite-domain task that encoding does not touch.

Placing variables and setting initial values only changes the tables, so it keeps whatever does not
depend on them; placing gives no variable an initial value, and afterwards only domains change.
Beyond that, actions and goals are added, constraints are set once, and mutex facts are added last.
-/
set_option autoImplicit false

namespace TemporalPlanning.Encoding

open FiniteDomain FiniteDomain.Update

section Placing

variable {γ : Type} {part : Task → γ}

theorem addNamedValue_keeps (hvalues : ∀ t values, part { t with values } = part t)
    (hdomains : IgnoresDomains part) (var : Nat) (name : String)
    (function : Option FunctionId) : (addNamedValue var name function).Keeps part :=
  (createValue_keeps hvalues _ _).bind fun _ =>
    Keeps.bind (hdomains.keeps fun _ => rfl) fun _ => keeps_pure _

variable (t : Grounded.Task)

/-- New variables start without initial values, so only parts that look at domains or values would
notice. -/
theorem placeVariable_keeps (h : IgnoresPlacing part) (isProposition : Array Bool) (p : Placement)
    (v : Grounded.Variable) : (placeVariable t isProposition p v).Keeps part := by
  unfold placeVariable
  split
  · exact (createNumericVariable_keeps h.pushNumeric _).bind fun _ => keeps_pure _
  split
  · exact keeps_pure _
  · refine (createVariable_keeps h.push _).bind fun var => ?_
    exact (keeps_forM fun o => (addNamedValue_keeps h.values h.domains _ _ _).map _).bind
      fun _ => keeps_pure _

section Propositions

variable (h : IgnoresCreation part)
include h

theorem placeBoolean_keeps (p : Placement) (v : VarId) : (placeBoolean t p v).Keeps part :=
  (createVariable_keeps h.push _).bind fun _ =>
    Keeps.bind (h.domains.keeps fun _ => rfl) fun _ => (keeps_lift _).bind fun _ => keeps_pure _

/-- Sharing a variable adds values to one domain. -/
theorem placeTogether_keeps (p : Placement) (g : Mutex.Group) :
    (placeTogether t p g).Keeps part := by
  refine Keeps.bind (keeps_get.bind fun _ => createVariable_keeps h.push _) fun var => ?_
  refine Keeps.bind (keeps_foldlM (fun p v => ?_) _) fun p => ?_
  · exact (addNamedValue_keeps h.values h.domains _ _ _).bind fun _ =>
      (keeps_lift _).bind fun _ => keeps_pure _
  dsimp only
  split
  · exact Keeps.bind (h.domains.keeps fun _ => rfl) fun _ => keeps_pure _
  · exact keeps_pure _

/-- Groups are placed one proposition at a time or together. -/
theorem placeGroup_keeps (isNegated : Array Bool) (p : Placement) (g : Mutex.Group) :
    (placeGroup t isNegated p g).Keeps part := by
  unfold placeGroup
  split
  · exact placeBoolean_keeps t h _ _
  · split
    · refine keeps_foldlM (fun p v => ?_) _
      unfold placeIfMissing
      split
      · exact placeBoolean_keeps t h _ _
      · exact keeps_pure _
    · exact placeTogether_keeps t h _ _

/-- A value that is placed twice is displaced from the later domain. -/
theorem keepFirst_keepsPart (p : Placement) : (keepFirst p).Keeps part :=
  Keeps.bind (keeps_forM fun _ => keeps_forM fun _ => h.domains.keeps fun _ => rfl) fun _ =>
    keeps_pure _

end Propositions

/-- Placing variables changes the tables only, and no initial values. -/
theorem place_keeps (h : IgnoresPlacing part) (o : Options) (isProposition : Array Bool)
    (mutex : Mutex.Relation) (actions : List Grounded.Action) :
    (place t o isProposition mutex actions).Keeps part := by
  have hcreation := h.toIgnoresCreation
  refine Keeps.bind (keeps_foldlM (placeVariable_keeps t h isProposition) _) fun p => ?_
  split
  · exact keeps_foldlM (placeBoolean_keeps t hcreation) _
  · -- groups are placed, and only the first fact of every proposition is kept
    exact Keeps.bind (keeps_foldlM (placeGroup_keeps t hcreation _) _) fun p =>
      keepFirst_keepsPart hcreation p

end Placing

namespace Encoder

variable (enc : Encoder) {γ : Type} {part : Task → γ}

/-! ## Initial values -/

section Tables

variable (h : IgnoresTables part)
include h

theorem setNumber_keeps (v : VarId) (var : Nat) (time : Float) (value : Value) :
    (enc.setNumber v var time value).Keeps part := by
  unfold setNumber
  split
  · exact updateNumericVariable_keeps h.numericVars _ _
  · exact keeps_throw _

/-- Initial values are entered into tables of variables only. -/
theorem setInitial_keeps (v : Grounded.Variable) : (enc.setInitial v).Keeps part := by
  unfold setInitial
  split
  · exact keeps_forM fun ⟨time, value⟩ => enc.setNumber_keeps h _ _ _ _
  split
  · refine keeps_forM fun ⟨time, value⟩ => keeps_get.bind fun T => ?_
    split
    · exact updateVariable_keeps (fun t _ => h.vars t _) _
    · exact keeps_throw _
  split
  · exact keeps_forM fun ⟨time, value⟩ => updateVariable_keeps (fun t _ => h.vars t _) _
  · exact keeps_pure _

theorem setInitialValues_keeps : enc.setInitialValues.Keeps part := by
  refine Keeps.bind (keeps_forM (enc.setInitial_keeps h)) fun _ => keeps_get.bind fun T => ?_
  exact (keeps_lift _).bind fun vars => keeps_modify fun _ => h.vars _ _

end Tables

/-! ## Actions and goals -/

section Actions

variable (h : IgnoresDomains part)
include h

/-- An effect may add the undefined value to a domain. -/
theorem effect_keeps (together : List Grounded.Condition) (e : Grounded.Condition) :
    (enc.effect together e).Keeps part := by
  unfold effect
  split
  · refine (keeps_lift _).bind fun f => ?_
    split
    · exact keeps_pure _
    · refine Keeps.bind (keeps_get.bind fun T => ?_) fun c => keeps_pure _
      split
      · exact keeps_pure _
      · exact Keeps.bind (h.keeps Variable.initialValues_allowUndefined) fun _ => keeps_pure _
  · exact keeps_get.bind fun T => (keeps_lift _).bind fun c => keeps_pure _

theorem effectsAmong_keeps (together es : List Grounded.Condition) :
    (enc.effectsAmong together es).Keeps part := by
  induction es with
  | nil => exact keeps_pure _
  | cons e es ih =>
    exact (enc.effect_keeps h together e).bind fun _ => ih.bind fun _ => keeps_pure _

/-- The rest of an action is read off the tables. -/
theorem action_keeps (a : Grounded.Action) : (enc.action a).Keeps part :=
  (enc.effectsAmong_keeps h _ _).bind fun _ => (enc.effectsAmong_keeps h _ _).bind fun _ =>
    keeps_get.bind fun _ => keeps_lift _

/-- Actions are added to their table after their effects have been encoded. -/
theorem createActions_keeps (hactions : ∀ t actions, part { t with actions } = part t)
    (actions : List Grounded.Action) :
    Keeps part (actions.forM fun a => do discard (createAction (← enc.action a))) :=
  keeps_forM fun a => (enc.action_keeps h a).bind fun b => (createAction_keeps hactions b).map _

theorem createGoals_keeps (hgoals : ∀ t goals, part { t with goals } = part t)
    (goals : List Grounded.Action) :
    Keeps part (goals.forM fun a => do discard (createGoal (← enc.action a))) :=
  keeps_forM fun a => (enc.action_keeps h a).bind fun b => (createGoal_keeps hgoals b).map _

/-- Adding constructs changes actions, goals, constraints, the metric, mutex facts and domains. -/
theorem addConstructs_keeps (hactions : ∀ t actions, part { t with actions } = part t)
    (hgoals : ∀ t goals, part { t with goals } = part t)
    (hconstraints : ∀ t preferenceNames constraints metric,
      part { t with preferenceNames, constraints, metric } = part t)
    (hmutex : ∀ t mutex, part { t with mutex } = part t) (actions : List Grounded.Action)
    (mutex : Mutex.Relation) : (enc.addConstructs actions mutex).Keeps part := by
  refine Keeps.bind (enc.createActions_keeps h hactions actions) fun _ =>
    Keeps.bind (enc.createGoals_keeps h hgoals _) fun _ => keeps_get.bind fun T =>
      (keeps_lift _).bind fun constraints => (keeps_lift _).bind fun metric =>
        (keeps_modify fun t => hconstraints t _ _ _).bind fun _ => keeps_forM fun vw => ?_
  dsimp only
  unfold addMutexPair
  split
  · split
    · exact keeps_pure _
    · exact keeps_modify fun t => hmutex t _
  · exact keeps_pure _

end Actions

end Encoder

/-! ## Goals and constraints -/

namespace Encoder

variable (enc : Encoder)

/-- Mutex facts concern neither goals nor constraints. -/
theorem addMutexPair_keepsAims (v w : VarId) : (enc.addMutexPair v w).Keeps Task.aims := by
  unfold addMutexPair
  split
  · split
    · exact keeps_pure _
    · exact addMutex_keepsAims _ _
  · exact keeps_pure _

end Encoder

/-- Deriving changes the costs of goals only. -/
theorem derive_aims (keepStatic : Bool) (T : Task) : (derive keepStatic).Ensures T fun _ T' =>
    T'.goals = T.goals.map (fun goal => { goal with cost := goalCost }) ∧
      T'.constraints = T.constraints := by
  refine ensures_bind.mpr (ensures_modify.mpr ?_)
  have hrequirers : computeRequirers.Keeps Task.aims :=
    computeRequirers_keeps (fun _ _ => rfl) fun _ _ => rfl
  have hproducers : computeProducers.Keeps Task.aims := computeProducers_keeps fun _ _ => rfl
  have hmutex : computePermanentMutex.Keeps Task.aims :=
    computePermanentMutex_keeps (fun _ _ => rfl) fun _ _ => rfl
  refine ensures_bind.mpr ((hrequirers _).mono fun _ T₁ h₁ => ?_)
  refine ensures_bind.mpr ((hproducers T₁).mono fun _ T₂ h₂ => ?_)
  refine ensures_bind.mpr ((hmutex T₂).mono fun _ T₃ h₃ => ?_)
  have haims : (T₃.goals, T₃.constraints) = (T.goals, T.constraints) := (h₃.trans h₂).trans h₁
  obtain ⟨hgoals, hconstraints⟩ := Prod.mk.inj haims
  refine (computeCosts_aims keepStatic T₃).mono fun _ T₄ h₄ => ?_
  rw [← hgoals, ← hconstraints]
  exact h₄

end TemporalPlanning.Encoding
