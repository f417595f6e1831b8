import TemporalPlanning.Proofs.Grounding.Steps
import TemporalPlanning.Proofs.Execution
import TemporalPlanning.Proofs.Registry
/-!
The variable table while a task is grounded.

Variables are created on first use, at the end of the table, and found again by function and
arguments. `State.Creates` is the frame of everything that grounding does between two instances:
old variables stay as they are, new ones are numbered and have reached nothing, and nothing but the
variables and the preference names changes. The variables that are created for a task also know
which functions of the task are numeric. Steps with this frame compose.
-/
set_option autoImplicit false

namespace TemporalPlanning.Grounding

open Grounded

attribute [ext] ReachedValue

/-! ## Keys -/

/-- A key determines the function and the objects. -/
theorem atomKey_inj {f g : FunctionId} {as bs : List ObjectId} :
    atomKey f as = atomKey g bs ↔ f = g ∧ as = bs := by
  have hinj : Function.Injective ObjectId.index := fun ⟨_⟩ ⟨_⟩ h => by
    cases h
    rfl
  rw [atomKey, atomKey, List.cons.injEq, List.map_inj_right fun _ _ h => hinj h]
  exact and_congr_left' ⟨fun h => (by cases f; cases g; cases h; rfl), fun h => h ▸ rfl⟩

namespace State

/-- The variable at a position is a function applied to objects. -/
def Names (s : State) (var : VarId) (f : FunctionId) (as : List ObjectId) : Prop :=
  ∃ v, s.vars.get? var.index = some v ∧ v.function = f ∧ v.arguments = as

/-- A value has been reached, and this is recorded with a level. -/
def Records (s : State) (value : ReachedValue) (level : Nat) : Prop :=
  ∃ i v, s.vars.get? i = some v ∧ v.function = value.function ∧ v.arguments = value.arguments ∧
    (value.value, level) ∈ v.reached

/-- Variables carry their positions. -/
def IsNumbered (s : State) : Prop := ∀ i v, s.vars.get? i = some v → v.index = ⟨i⟩

/-- Variables know whether their functions are numeric. -/
def IsTyped (s : State) (task : Lifted.Task) : Prop :=
  ∀ i v, s.vars.get? i = some v → v.isNumeric = task.isNumeric v.function

variable {s s' s'' : State}

/-- A variable is the only one of its function and arguments. -/
theorem Names.unique {v w : VarId} {f : FunctionId} {as : List ObjectId} (hv : s.Names v f as)
    (hw : s.Names w f as) : v = w := by
  obtain ⟨a, ha, rfl, rfl⟩ := hv
  obtain ⟨b, hb, hf, has⟩ := hw
  have h := s.vars.position_unique ha hb (by rw [variableKey, variableKey, hf, has])
  cases v
  cases w
  cases h
  rfl

/-- A variable has one function and one list of arguments. -/
theorem Names.inj {v : VarId} {f g : FunctionId} {as bs : List ObjectId} (h : s.Names v f as)
    (h' : s.Names v g bs) : f = g ∧ as = bs := by
  obtain ⟨a, ha, rfl, rfl⟩ := h
  obtain ⟨b, hb, rfl, rfl⟩ := h'
  rw [ha] at hb
  cases hb
  exact ⟨rfl, rfl⟩

/-! ## Creating variables -/

/-- Nothing has changed but that new variables and preference names have been created. -/
structure Creates (s s' : State) : Prop where
  kept : ∀ i v, s.vars.get? i = some v → s'.vars.get? i = some v
  fresh : ∀ i v, s'.vars.get? i = some v →
    s.vars.get? i = some v ∨ (v.index = ⟨i⟩ ∧ v.reached = [] ∧ v.initialValues = [])
  named : ∀ i name, s.preferenceNames.get? i = some name → s'.preferenceNames.get? i = some name
  frame : s' = { s with vars := s'.vars, preferenceNames := s'.preferenceNames }

theorem Creates.refl (s : State) : s.Creates s :=
  ⟨fun _ _ h => h, fun _ _ h => Or.inl h, fun _ _ h => h, rfl⟩

/-- A variable that is new to the second step either is new to both or has been created by the
first. -/
theorem Creates.trans (h : s.Creates s') (h' : s'.Creates s'') : s.Creates s'' := by
  refine ⟨fun i v hv => h'.kept i v (h.kept i v hv), fun i v hv => ?_,
    fun i name hname => h'.named i name (h.named i name hname), ?_⟩
  · rcases h'.fresh i v hv with hv | hv
    · exact h.fresh i v hv
    · exact Or.inr hv
  · rw [h'.frame, h.frame]

/-- What has been created for a task knows whether its functions are numeric. -/
structure CreatesFor (task : Lifted.Task) (s s' : State) : Prop extends s.Creates s' where
  typed : ∀ i v, s'.vars.get? i = some v →
    s.vars.get? i = some v ∨ v.isNumeric = task.isNumeric v.function

theorem CreatesFor.refl (task : Lifted.Task) (s : State) : s.CreatesFor task s :=
  ⟨.refl s, fun _ _ h => Or.inl h⟩

theorem CreatesFor.trans {task : Lifted.Task} (h : s.CreatesFor task s')
    (h' : s'.CreatesFor task s'') : s.CreatesFor task s'' := by
  refine ⟨h.toCreates.trans h'.toCreates, fun i v hv => ?_⟩
  rcases h'.typed i v hv with hv | hv
  · exact h.typed i v hv
  · exact Or.inr hv

theorem CreatesFor.isTyped {task : Lifted.Task} (h : s.CreatesFor task s') (hs : s.IsTyped task) :
    s'.IsTyped task := fun i v hv =>
  (h.typed i v hv).elim (hs i v) id

theorem Names.mono (h : s.Creates s') {v : VarId} {f : FunctionId} {as : List ObjectId}
    (hv : s.Names v f as) : s'.Names v f as := by
  obtain ⟨a, ha, hf, has⟩ := hv
  exact ⟨a, h.kept _ _ ha, hf, has⟩

/-- New variables have reached nothing, and old ones have reached what they had reached. -/
theorem Creates.records_iff (h : s.Creates s') (value : ReachedValue) (level : Nat) :
    s'.Records value level ↔ s.Records value level := by
  constructor
  · rintro ⟨i, v, hv, hf, has, hmem⟩
    rcases h.fresh i v hv with hv | ⟨-, hempty, -⟩
    · exact ⟨i, v, hv, hf, has, hmem⟩
    · rw [hempty] at hmem
      cases hmem
  · rintro ⟨i, v, hv, hf, has, hmem⟩
    exact ⟨i, v, h.kept i v hv, hf, has, hmem⟩

/-- New variables are numbered by their positions. -/
theorem Creates.isNumbered (h : s.Creates s') (hs : s.IsNumbered) : s'.IsNumbered := by
  intro i v hv
  rcases h.fresh i v hv with hv | ⟨hindex, -, -⟩
  · exact hs i v hv
  · exact hindex

end State

/-! ## Steps that only create -/

/-- A step changes nothing but that it creates variables and preference names for a task. -/
def Step.OnlyCreates {α : Type} (x : Step α) (task : Lifted.Task) : Prop :=
  ∀ s : State, x.Ensures s fun _ s' => s.CreatesFor task s'

section Steps

variable {α β : Type} {task : Lifted.Task}

theorem onlyCreates_pure (a : α) : Step.OnlyCreates (pure a) task := fun s =>
  Step.ensures_pure.mpr (State.CreatesFor.refl task s)

theorem onlyCreates_lift (x : Except Error α) : Step.OnlyCreates (liftM x) task := fun s =>
  Step.ensures_lift.mpr fun _ _ => State.CreatesFor.refl task s

/-- There is nothing to be shown of a step that fails. -/
theorem onlyCreates_throw (e : Error) : Step.OnlyCreates (throw e : Step α) task := fun _ =>
  Step.ensures_throw

theorem onlyCreates_get : Step.OnlyCreates get task := fun s =>
  Step.ensures_get.mpr (State.CreatesFor.refl task s)

/-- Whatever the first step returns, the second one only creates. -/
theorem Step.OnlyCreates.bind {x : Step α} {f : α → Step β} (hx : x.OnlyCreates task)
    (hf : ∀ a, (f a).OnlyCreates task) : OnlyCreates (x >>= f) task := fun s =>
  Step.ensures_bind.mpr ((hx s).mono fun a s' hs' => (hf a s').mono fun _ _ hs'' => hs'.trans hs'')

theorem Step.OnlyCreates.map {x : Step α} (f : α → β) (hx : x.OnlyCreates task) :
    OnlyCreates (f <$> x) task := fun s =>
  Step.ensures_map.mpr (hx s)

end Steps

/-! ## Variables and names -/

/-- **A variable is created on first use**: afterwards the function and its arguments have a name,
which is the one returned. -/
theorem variableOf_ensures (task : Lifted.Task) (f : FunctionId) (as : List ObjectId) (s : State) :
    (variableOf task f as).Ensures s fun var s' => s.CreatesFor task s' ∧ s'.Names var f as := by
  rw [variableOf]
  refine Step.ensures_bind.mpr (Step.ensures_get.mpr ?_)
  -- the entry that is interned: it is in the table afterwards, at the end if it is new
  set fresh : Variable := ⟨⟨s.vars.size⟩, f, as, task.isNumeric f, [], []⟩ with hfresh
  have hentry : ∀ i v, (s.vars.intern fresh).2.get? i = some v →
      s.vars.get? i = some v ∨ (i = s.vars.size ∧ v = fresh) := by
    intro i v hv
    rcases s.vars.get?_intern_snd fresh i with h | ⟨hi, -, h⟩
    · exact Or.inl (h.symm.trans hv)
    · exact Or.inr ⟨hi, Option.some.inj (hv.symm.trans h)⟩
  refine Step.ensures_bind.mpr (Step.ensures_set.mpr (Step.ensures_pure.mpr
    ⟨⟨⟨fun i v hv => ?_, fun i v hv => ?_, fun _ _ h => h, rfl⟩, fun i v hv => ?_⟩, ?_⟩))
  · rcases s.vars.get?_intern_snd fresh i with h | ⟨-, h, -⟩
    · exact h.trans hv
    · rw [hv] at h
      cases h
  · refine (hentry i v hv).imp_right ?_
    rintro ⟨rfl, rfl⟩
    exact ⟨rfl, rfl, rfl⟩
  · refine (hentry i v hv).imp_right ?_
    rintro ⟨-, rfl⟩
    rfl
  · obtain ⟨v, hv, hkey⟩ := Option.map_eq_some_iff.mp (s.vars.get?_intern_fst fresh)
    obtain ⟨hf, has⟩ := atomKey_inj.mp hkey
    exact ⟨v, hv, hf, has⟩

theorem variableOf_onlyCreates (task : Lifted.Task) (f : FunctionId) (as : List ObjectId) :
    (variableOf task f as).OnlyCreates task :=
  fun s => (variableOf_ensures task f as s).mono fun _ _ h => h.1

/-- A preference name is found or created, and variables are left alone. -/
theorem preferenceIndex_ensures (name : String) (s : State) :
    (preferenceIndex name).Ensures s fun i s' =>
      s.Creates s' ∧ s'.vars = s.vars ∧ s'.preferenceNames.get? i = some name := by
  refine Step.ensures_bind.mpr (Step.ensures_get.mpr ?_)
  refine Step.ensures_bind.mpr (Step.ensures_set.mpr (Step.ensures_pure.mpr
    ⟨⟨fun _ _ h => h, fun _ _ h => Or.inl h, fun i n hn => ?_, rfl⟩, rfl, ?_⟩))
  · rcases s.preferenceNames.get?_intern_snd name i with h | ⟨-, h, -⟩
    · exact h.trans hn
    · rw [hn] at h
      cases h
  · -- a name is its own key
    obtain ⟨n, hn, hkey⟩ := Option.map_eq_some_iff.mp (s.preferenceNames.get?_intern_fst name)
    exact hn.trans (congrArg some hkey)

theorem preferenceIndex_onlyCreates (task : Lifted.Task) (name : String) :
    (preferenceIndex name).OnlyCreates task :=
  fun s => (preferenceIndex_ensures name s).mono fun _ _ ⟨hcreates, hvars, _⟩ =>
    ⟨hcreates, fun _ _ hv => Or.inl (hvars ▸ hv)⟩

/-- What has a name is found under it. -/
theorem find?_eq_some_of_names {s : State} {var : VarId} {f : FunctionId} {as : List ObjectId}
    (h : s.Names var f as) : s.vars.var? f as = some var := by
  obtain ⟨v, hv, rfl, rfl⟩ := h
  rw [VariableTable.var?, (s.vars.find?_eq_some_iff _ _).mpr (by rw [hv]; rfl)]
  rfl

/-- A variable that exists is found. -/
theorem existingVariable_yields {s : State} {var : VarId} {f : FunctionId} {as : List ObjectId}
    (h : s.Names var f as) :
    (existingVariable f as).Yields s fun found s' => s' = s ∧ found = var := by
  refine Attempt.ensures_bind.mpr (Attempt.ensures_step.mpr (Step.ensures_get.mpr ?_))
  refine Step.ensures_pure.mpr ⟨var, ?_, rfl, rfl⟩
  exact find?_eq_some_of_names h

/-! ## Values and instances -/

/-- What reaching a value does: nothing if it has been reached before, and otherwise the value is
recorded at its variable and appended to the values. -/
theorem reach_ensures (level : Nat) (c : Condition) (s : State) :
    (reach level c).Ensures s fun _ s' =>
      (s' = s ∧ ∀ v, s.vars.get? c.var.index = some v → v.isReached c.value = true) ∨
        ∃ v, s.vars.get? c.var.index = some v ∧ v.isReached c.value = false ∧
          (∀ i, s'.vars.get? i = if c.var.index = i then
            some { v with reached := setLevel c.value level v.reached } else s.vars.get? i) ∧
          s' = { s with
            vars := s'.vars
            values := s.values.push ⟨v.function, v.arguments, c.value⟩ } := by
  refine Step.ensures_modify.mpr ?_
  -- nothing happens without the variable, or if it knows the value
  split
  next hnone => exact Or.inl ⟨rfl, fun v hv => by rw [hnone] at hv; cases hv⟩
  next v hv =>
    split
    next hreached =>
      refine Or.inl ⟨rfl, fun w hw => ?_⟩
      rw [hv] at hw
      cases hw
      exact hreached
    next hnew =>
      refine Or.inr ⟨v, hv, Bool.eq_false_iff.mpr hnew, fun i => ?_, rfl⟩
      refine Array.getElem?_modify.trans ?_
      by_cases hi : c.var.index = i
      · rw [if_pos hi, if_pos hi, ← hi]
        exact congrArg _ hv
      · rw [if_neg hi, if_neg hi]
        rfl

/-- An instance has been looked at. -/
def State.HasTried (s : State) (schema : Schema) (name : String) (as : List ObjectId) : Prop :=
  if schema.operator.isGoal then schema.index :: as.map ObjectId.index ∈ s.triedGoals
  else name ∈ s.triedActions

/-- The state after an instance has been looked at for the first time. -/
def State.markTried (s : State) (schema : Schema) (name : String) (as : List ObjectId) : State :=
  if schema.operator.isGoal then
    { s with triedGoals := s.triedGoals.insert (schema.index :: as.map ObjectId.index) }
  else { s with triedActions := s.triedActions.insert name }

section Tried

variable {s : State} {schema : Schema} {name : String} {as : List ObjectId}

theorem State.hasTried_of_goal (h : schema.operator.isGoal = true) :
    s.HasTried schema name as ↔ schema.index :: as.map ObjectId.index ∈ s.triedGoals := by
  rw [HasTried, if_pos h]

theorem State.hasTried_of_ordinary (h : schema.operator.isGoal = false) :
    s.HasTried schema name as ↔ name ∈ s.triedActions := by
  rw [HasTried, if_neg (Bool.eq_false_iff.mp h)]

theorem State.markTried_of_goal (h : schema.operator.isGoal = true) :
    s.markTried schema name as =
      { s with triedGoals := s.triedGoals.insert (schema.index :: as.map ObjectId.index) } :=
  if_pos h

theorem State.markTried_of_ordinary (h : schema.operator.isGoal = false) :
    s.markTried schema name as = { s with triedActions := s.triedActions.insert name } :=
  if_neg (Bool.eq_false_iff.mp h)

end Tried

/-- **An instance is claimed once**: the first time it is noted and the step says so, later nothing
happens. -/
theorem claim_ensures (schema : Schema) (name : String) (as : List ObjectId) (s : State) :
    (claim schema name as).Ensures s fun fresh s' =>
      (fresh = false ∧ s.HasTried schema name as ∧ s' = s) ∨
        (fresh = true ∧ ¬s.HasTried schema name as ∧ s' = s.markTried schema name as) := by
  refine Step.ensures_bind.mpr (Step.ensures_get.mpr ?_)
  unfold State.HasTried State.markTried
  -- goals are noted by operator and arguments, other actions by their names
  by_cases hgoal : schema.operator.isGoal = true
  · simp only [if_pos hgoal]
    split
    next h => exact Step.ensures_pure.mpr (Or.inl ⟨rfl, Std.TreeSet.mem_iff_contains.mpr h, rfl⟩)
    next h =>
      refine Step.ensures_bind.mpr (Step.ensures_set.mpr (Step.ensures_pure.mpr ?_))
      exact Or.inr ⟨rfl, fun hmem => h (Std.TreeSet.mem_iff_contains.mp hmem), rfl⟩
  · simp only [if_neg hgoal]
    split
    next h => exact Step.ensures_pure.mpr (Or.inl ⟨rfl, Std.TreeSet.mem_iff_contains.mpr h, rfl⟩)
    next h =>
      refine Step.ensures_bind.mpr (Step.ensures_set.mpr (Step.ensures_pure.mpr ?_))
      exact Or.inr ⟨rfl, fun hmem => h (Std.TreeSet.mem_iff_contains.mp hmem), rfl⟩

end TemporalPlanning.Grounding
