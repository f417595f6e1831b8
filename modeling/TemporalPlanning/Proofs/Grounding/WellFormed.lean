import TemporalPlanning.Proofs.Grounding.Literals
/-!
Grounded tasks are well-formed.

Saturation leaves a task whose tables are in order. Each pass that removes static variables numbers
what remains anew, and it puts the new positions into everything that it keeps; names only
disappear. Deciding numeric conditions drops further actions, and entering the initial values does
not move anything.
-/
set_option autoImplicit false

namespace TemporalPlanning.Grounded

/-- Positions of variables and of preference names are positions in their tables. -/
def Task.bounds (t : Task) : Scope where
  var v := v.index < t.vars.size
  fluent _ := True
  object _ := True
  function _ := True
  preference i := i < t.preferenceNames.length

/-- A grounded task whose tables are in order, that refers to nothing outside of them, and whose
variables have the values of the facts about them. -/
structure Task.IsWellFormed (t : Task) : Prop where
  orderly : t.IsOrderly
  actions : ∀ a ∈ t.actions, a.Scoped t.bounds
  goals : ∀ a ∈ t.goals, a.Scoped t.bounds
  constraints : ∀ c ∈ t.constraints, c.Scoped t.bounds
  metric : ∀ m ∈ t.metric, m.Scoped t.bounds
  initialValues : ∀ (i : Nat) (v : Variable), t.vars[i]? = some v →
    v.initialValues = (Grounding.factsOf t.task v).map fun fact => (fact.time, fact.value)

end TemporalPlanning.Grounded

namespace TemporalPlanning.Grounding

open Grounded

/-! ## Numbering anew -/

section Renumber

variable {actions : List Action}

theorem getElem?_renumber (actions : List Action) (i : Nat) :
    (renumber actions)[i]? = actions[i]?.map fun a => { a with index := i } := by
  rw [renumber, List.getElem?_map, List.getElem?_zipIdx, Option.map_map]
  cases actions[i]? with
  | none => rfl
  | some a => simp

theorem index_of_getElem?_renumber {i : Nat} {a : Action} (h : (renumber actions)[i]? = some a) :
    a.index = i := by
  rw [getElem?_renumber] at h
  obtain ⟨b, -, rfl⟩ := Option.map_eq_some_iff.mp h
  rfl

theorem names_renumber (actions : List Action) :
    (renumber actions).map (·.name) = actions.map (·.name) := by
  refine List.ext_getElem? fun i => ?_
  rw [List.getElem?_map, List.getElem?_map, getElem?_renumber, Option.map_map]
  rfl

/-- What is kept of a list has its labels, in the same order. -/
theorem Selects.sublist_map {α β γ : Type} {Kept : α → β → Prop} {Dropped : α → Prop}
    {as : List α} {bs : List β} {f : α → γ} {g : β → γ} (h : Selects Kept Dropped as bs)
    (hkept : ∀ a b, Kept a b → g b = f a) : (bs.map g).Sublist (as.map f) := by
  induction h with
  | nil => exact .slnil
  | keep h _ ih =>
    rw [List.map_cons, List.map_cons, hkept _ _ h]
    exact ih.cons_cons _
  | drop _ _ ih => exact ih.cons _

end Renumber

/-! ## Passes -/

section Passes

variable {t t' : Task}

/-- A variable after a renumbering has been one before it. -/
theorem IsRenumbering.exists_entry {rename : VarId → Option VarId}
    (h : IsRenumbering t t' rename) {i : Nat} {v : Variable} (hv : t'.vars[i]? = some v) :
    ∃ w entry, rename w = some ⟨i⟩ ∧ t.vars[w.index]? = some entry ∧
      v = { entry with index := ⟨i⟩ } := by
  obtain ⟨w, hw⟩ := h.surjective ⟨i⟩ (Array.getElem?_eq_some_iff.mp hv).1
  obtain ⟨entry, hentry, hentry'⟩ := h.entry w ⟨i⟩ hw
  exact ⟨w, entry, hw, hentry, Option.some.inj (hv.symm.trans hentry')⟩

/-- A pass keeps the tables in order. -/
theorem Pass.isOrderly (h : Pass t t') (ht : t.IsOrderly) : t'.IsOrderly := by
  obtain ⟨count, h⟩ := h
  rcases removeStaticPass_eq_ok h with ⟨rfl, -⟩ | ⟨actions, goals, constraints, hactions, -, -,
    htask, hvars, hactions', hgoals', -, hpreferences, -⟩
  · exact ht
  have hrenumbering := isRenumbering_newPosition hvars
  refine ⟨fun i v hv => ?_, fun i v hv => ?_, fun i j v w hv hw hfunction harguments => ?_,
    fun i a ha => ?_, fun i a ha => ?_, ?_, ?_⟩
  · obtain ⟨_, _, -, -, rfl⟩ := hrenumbering.exists_entry hv
    rfl
  · obtain ⟨v', entry, -, hentry, rfl⟩ := hrenumbering.exists_entry hv
    rw [htask]
    exact ht.typed v'.index entry hentry
  · -- two variables of one function and arguments have been one variable
    obtain ⟨v', entry, hv', hentry, rfl⟩ := hrenumbering.exists_entry hv
    obtain ⟨w', entry', hw', hentry', rfl⟩ := hrenumbering.exists_entry hw
    have hsame : v' = w' := congrArg VarId.mk
      (ht.distinct _ _ entry entry' hentry hentry' hfunction harguments)
    rw [hsame, hw', Option.some.injEq, VarId.mk.injEq] at hv'
    exact hv'.symm
  · exact index_of_getElem?_renumber (hactions' ▸ ha)
  · exact index_of_getElem?_renumber (hgoals' ▸ ha)
  · rw [hactions', names_renumber]
    exact ((selects_of_keepResidues hactions).sublist_map fun a b h =>
      (isRemainder_of_substituteAction h).name).nodup ht.names
  · rw [hpreferences]
    exact ht.preferenceNames

theorem Pass.task_eq (h : Pass t t') : t'.task = t.task := by
  obtain ⟨count, h⟩ := h
  rcases removeStaticPass_eq_ok h with ⟨rfl, -⟩ | ⟨_, _, _, -, -, -, htask, -⟩
  · rfl
  · exact htask

end Passes

/-! ## Grounded tasks -/

/-- Deciding numeric conditions keeps the name of an action. -/
theorem name_of_decideConditions {a b : Action} (h : decideConditions a = some b) :
    b.name = a.name := by
  obtain ⟨_, -, h⟩ := Option.bind_eq_some_iff.mp h
  obtain ⟨_, -, h⟩ := Option.bind_eq_some_iff.mp h
  obtain ⟨_, -, h⟩ := Option.bind_eq_some_iff.mp h
  cases h
  rfl

theorem names_filterMap_decideConditions (actions : List Action) :
    ((actions.filterMap decideConditions).map (·.name)).Sublist (actions.map (·.name)) := by
  induction actions with
  | nil => exact .slnil
  | cons a actions ih =>
    rw [List.filterMap_cons]
    split
    · exact ih.cons _
    next b hb =>
      rw [List.map_cons, List.map_cons, name_of_decideConditions hb]
      exact ih.cons_cons _

theorem getElem?_setInitialValues (t : Task) (i : Nat) :
    (setInitialValues t).vars[i]? = t.vars[i]?.map fun v =>
      { v with initialValues := (factsOf t.task v).map fun fact => (fact.time, fact.value) } :=
  Array.getElem?_map

/-- What follows the passes keeps the tables in order. -/
theorem isOrderly_setInitialValues_decideNumericConditions {t : Task} (ht : t.IsOrderly) :
    (setInitialValues (decideNumericConditions t)).IsOrderly := by
  have hentry : ∀ {i : Nat} {v : Variable},
      (setInitialValues (decideNumericConditions t)).vars[i]? = some v →
        ∃ entry, t.vars[i]? = some entry ∧ v = { entry with initialValues := v.initialValues } := by
    intro i v hv
    rw [getElem?_setInitialValues] at hv
    obtain ⟨entry, hentry, rfl⟩ := Option.map_eq_some_iff.mp hv
    exact ⟨entry, hentry, rfl⟩
  refine ⟨fun i v hv => ?_, fun i v hv => ?_, fun i j v w hv hw hfunction harguments => ?_,
    fun i a ha => index_of_getElem?_renumber ha, ht.goals, ?_, ht.preferenceNames⟩
  · obtain ⟨entry, hentry, heq⟩ := hentry hv
    rw [heq]
    exact ht.numbered i entry hentry
  · obtain ⟨entry, hentry, heq⟩ := hentry hv
    rw [heq]
    exact ht.typed i entry hentry
  · obtain ⟨entry, hentry₁, heq⟩ := hentry hv
    obtain ⟨entry', hentry₂, heq'⟩ := hentry hw
    rw [heq, heq'] at hfunction harguments
    exact ht.distinct i j entry entry' hentry₁ hentry₂ hfunction harguments
  · show ((renumber _).map (·.name)).Nodup
    rw [names_renumber]
    exact (names_filterMap_decideConditions t.actions).nodup ht.names

/-- **The tables of grounded tasks are in order.** -/
theorem ground_isOrderly {p : Lifted.Problem} {keepStatic : Bool} {t : Task}
    (h : ground p keepStatic = .ok t) : t.IsOrderly :=
  ground_induction h (fun _ => saturate_isOrderly p) (fun _ _ hpass => hpass.isOrderly)
    (fun _ _ ht => { ht with }) fun _ => isOrderly_setInitialValues_decideNumericConditions

/-- Grounding takes the lifted task over. -/
theorem ground_task_eq {p : Lifted.Problem} {keepStatic : Bool} {t : Task}
    (h : ground p keepStatic = .ok t) : t.task = p.task :=
  ground_induction (Q := fun t => t.task = p.task) h
    (fun _ => saturate_ensures fun _ _ _ _ _ ht => ht.task_eq)
    (fun _ _ hpass ht => hpass.task_eq.trans ht) (fun _ _ ht => ht) fun _ ht => ht

/-- Variables have the values of the facts about them. -/
theorem ground_initialValues {p : Lifted.Problem} {keepStatic : Bool} {t : Task}
    (h : ground p keepStatic = .ok t) {i : Nat} {v : Variable} (hv : t.vars[i]? = some v) :
    v.initialValues = (factsOf t.task v).map fun fact => (fact.time, fact.value) := by
  obtain ⟨-, _, _, reduced, -, -, rfl⟩ := ground_eq_ok h
  rw [getElem?_setInitialValues] at hv
  obtain ⟨entry, -, rfl⟩ := Option.map_eq_some_iff.mp hv
  rfl

/-- A variable that is not numeric has objects as its initial values. -/
theorem exists_object_of_initialValue {p : Lifted.Problem} {keepStatic : Bool} {t : Task}
    (h : ground p keepStatic = .ok t) {i : Nat} {v : Variable} (hv : t.vars[i]? = some v)
    (hnumeric : v.isNumeric = false) {entry : Float × Value} (hentry : entry ∈ v.initialValues) :
    ∃ o, entry.2 = .object o := by
  rw [ground_initialValues h hv] at hentry
  obtain ⟨fact, hfact, rfl⟩ := List.mem_map.mp hentry
  obtain ⟨hinit, habout⟩ := List.mem_filter.mp hfact
  have hfunction : fact.function = v.function :=
    beq_iff_eq.mp ((Bool.and_eq_true _ _).mp habout).1
  rw [(ground_isOrderly h).typed i v hv, ← hfunction, ground_task_eq h] at hnumeric
  rw [ground_task_eq h] at hinit
  exact exists_object_of_fact (ground_eq_ok h).1 hinit hnumeric

/-- The variables and preference names of a scoped task are in its tables. -/
theorem taskScope_le_bounds (K : FunctionId → Prop) (t : Task) : (taskScope K t).Le t.bounds :=
  ⟨fun _ ⟨_, hv⟩ => (Array.getElem?_eq_some_iff.mp hv).1, fun _ _ => trivial, fun _ _ => trivial,
    fun _ _ => trivial, fun _ ⟨_, hi⟩ => (List.getElem?_eq_some_iff.mp hi).1⟩

/-- **Grounded tasks are well-formed.** -/
theorem ground_isWellFormed {p : Lifted.Problem} {keepStatic : Bool} {t : Task}
    (h : ground p keepStatic = .ok t) : t.task = p.task ∧ t.IsWellFormed := by
  have hscoped := ground_isScoped h
  have hle := taskScope_le_bounds (fun _ => True) t
  have horderly := ground_isOrderly h
  refine ⟨ground_task_eq h, horderly, fun a ha => (hscoped.actions a ha).mono hle,
    fun a ha => (hscoped.goals a ha).mono hle, fun c hc => (hscoped.constraints c hc).mono hle,
    fun m hm => (hscoped.metric m hm).mono hle, fun i v hv => ground_initialValues h hv⟩

/-- The lamp that has power keeps one of its two variables and both of its actions. -/
theorem lamp_isWellFormed : ∃ t, ground poweredLamp false = .ok t ∧ t.vars.size = 1 ∧
    t.actions.length = 2 ∧ t.task = poweredLamp.task ∧ t.IsWellFormed := by
  have hrun : ∃ t ∈ (ground poweredLamp false).toOption,
      t.vars.size = 1 ∧ t.actions.length = 2 := by decide +kernel
  obtain ⟨t, ht, hvars, hactions⟩ := hrun
  have hground := eq_ok_of_mem_toOption ht
  exact ⟨t, hground, hvars, hactions, ground_isWellFormed hground⟩

end TemporalPlanning.Grounding
