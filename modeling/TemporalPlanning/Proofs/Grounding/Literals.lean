import TemporalPlanning.Proofs.Grounding.Statics
/-!
The literals of a grounded task.

Conditions, preferences and constraints of a grounded task compare variables with objects of the
task. This is so when the task has been saturated, every pass that removes static variables keeps
it, and what comes after the passes only leaves out numeric conditions.
-/
set_option autoImplicit false

namespace TemporalPlanning.Grounded

/-! ## Literals of goals -/

mutual

/-- The literals of a goal. -/
def Goal.literals : Goal → List Condition
  | .fluent v o _ => [⟨v, o⟩]
  | .and goals | .or goals => Goal.literalsOfList goals
  | .not goal | .timed _ goal | .existential _ goal | .universal _ goal => goal.literals
  | .imply premise conclusion => premise.literals ++ conclusion.literals
  | .ungroundedFluent .. | .equality .. | .compare .. | .constant _ => []

/-- The literals of a list of goals. -/
def Goal.literalsOfList : List Goal → List Condition
  | [] => []
  | goal :: rest => goal.literals ++ Goal.literalsOfList rest

end

mutual

/-- The goals of a constraint. -/
def Constraint.goals : Constraint → List Goal
  | .and constraints => Constraint.goalsOfList constraints
  | .preference _ constraint => constraint.goals
  | .goalPreference _ goal => [goal]
  | .temporal _ _ goals => goals

/-- The goals of a list of constraints. -/
def Constraint.goalsOfList : List Constraint → List Goal
  | [] => []
  | constraint :: rest => constraint.goals ++ Constraint.goalsOfList rest

end

/-- The literals of an action. -/
def Action.literals (a : Action) : List Condition :=
  a.conditions ++ a.preferences.flatMap fun q => q.goal.literals

/-- The literals of the actions, goals and constraints of a task. -/
def Task.literals (t : Task) : List Condition :=
  (t.actions ++ t.goals).flatMap Action.literals
    ++ (Constraint.goalsOfList t.constraints).flatMap Goal.literals

section Scoped

variable {S : Scope}

mutual

theorem Goal.Scoped.literals : ∀ {g : Goal}, g.Scoped S → ∀ c ∈ g.literals, S.object c.value
  | .fluent v o _, h, c, hc => by
    rw [Goal.literals, List.mem_singleton] at hc
    rw [Goal.Scoped] at h
    rw [hc]
    exact h.2.2
  | .and _, h, c, hc | .or _, h, c, hc => by
    rw [Goal.literals] at hc
    rw [Goal.Scoped] at h
    exact Goal.ScopedAll.literals h c hc
  | .not _, h, c, hc | .timed _ _, h, c, hc | .existential _ _, h, c, hc
  | .universal _ _, h, c, hc => by
    rw [Goal.literals] at hc
    rw [Goal.Scoped] at h
    exact Goal.Scoped.literals h c hc
  | .imply _ _, h, c, hc => by
    rw [Goal.literals] at hc
    rw [Goal.Scoped] at h
    rcases List.mem_append.mp hc with hc | hc
    · exact Goal.Scoped.literals h.1 c hc
    · exact Goal.Scoped.literals h.2 c hc
  | .ungroundedFluent _ _ _ _, _, c, hc | .equality _ _ _, _, c, hc | .compare _ _, _, c, hc
  | .constant _, _, c, hc => by
    rw [Goal.literals] at hc
    cases hc

theorem Goal.ScopedAll.literals :
    ∀ {gs : List Goal}, Goal.ScopedAll S gs → ∀ c ∈ Goal.literalsOfList gs, S.object c.value
  | [], _, c, hc => by
    rw [Goal.literalsOfList] at hc
    cases hc
  | _ :: _, h, c, hc => by
    rw [Goal.literalsOfList] at hc
    rcases List.mem_append.mp hc with hc | hc
    · exact Goal.Scoped.literals h.1 c hc
    · exact Goal.ScopedAll.literals h.2 c hc

end

mutual

theorem Constraint.Scoped.goals : ∀ {c : Constraint}, c.Scoped S → ∀ g ∈ c.goals, g.Scoped S
  | .and _, h, g, hg => by
    rw [Constraint.goals] at hg
    rw [Constraint.Scoped] at h
    exact Constraint.ScopedAll.goals h g hg
  | .preference _ _, h, g, hg => by
    rw [Constraint.goals] at hg
    rw [Constraint.Scoped] at h
    exact Constraint.Scoped.goals h.2 g hg
  | .goalPreference _ _, h, g, hg => by
    rw [Constraint.goals, List.mem_singleton] at hg
    rw [Constraint.Scoped] at h
    rw [hg]
    exact h.2
  | .temporal _ _ _, h, g, hg => by
    rw [Constraint.goals] at hg
    rw [Constraint.Scoped] at h
    exact h g hg

theorem Constraint.ScopedAll.goals :
    ∀ {cs : List Constraint}, Constraint.ScopedAll S cs →
      ∀ g ∈ Constraint.goalsOfList cs, g.Scoped S
  | [], _, g, hg => by
    rw [Constraint.goalsOfList] at hg
    cases hg
  | _ :: _, h, g, hg => by
    rw [Constraint.goalsOfList] at hg
    rcases List.mem_append.mp hg with hg | hg
    · exact Constraint.Scoped.goals h.1 g hg
    · exact Constraint.ScopedAll.goals h.2 g hg

end

theorem Action.Scoped.literals {a : Action} (h : a.Scoped S) :
    ∀ c ∈ a.literals, S.object c.value := by
  intro c hc
  rcases List.mem_append.mp hc with hc | hc
  · exact (h.conditions c hc).2
  · obtain ⟨q, hq, hc⟩ := List.mem_flatMap.mp hc
    exact (h.preferences q hq).2.literals c hc

end Scoped

end TemporalPlanning.Grounded

namespace TemporalPlanning.Grounding

open Grounded

/-- **Literals of a scoped task are about objects of the task.** -/
theorem IsScopedTask.object_of_mem_literals {K : FunctionId → Prop} {t : Task}
    (h : IsScopedTask K t) : ∀ c ∈ t.literals, c.value.index < t.task.objects.size := by
  intro c hc
  rcases List.mem_append.mp hc with hc | hc
  · obtain ⟨a, ha, hc⟩ := List.mem_flatMap.mp hc
    rcases List.mem_append.mp ha with ha | ha
    · exact (h.actions a ha).literals c hc
    · exact (h.goals a ha).literals c hc
  · obtain ⟨g, hg, hc⟩ := List.mem_flatMap.mp hc
    exact (Constraint.ScopedAll.goals (Constraint.scopedAll_iff.mpr h.constraints) g hg).literals
      c hc

/-! ## After the passes -/

theorem passes_of_removePasses {passes removed : Nat} {t : Task} {result : Task × Nat}
    (h : removePasses passes removed t = .ok result) : Relation.ReflTransGen Pass t result.1 := by
  induction passes generalizing removed t with
  | zero =>
    cases h
    exact .refl
  | succ passes ih =>
    obtain ⟨⟨t', count⟩, hpass, h⟩ := except_bind_eq_ok.mp h
    dsimp only at h
    split at h
    · cases h
      exact .single ⟨count, hpass⟩
    · exact .head ⟨count, hpass⟩ (ih h)

/-- What saturation establishes, passes keep and the last step keeps holds of grounded tasks. -/
theorem ground_induction {p : Lifted.Problem} {keepStatic : Bool} {t : Task} {Q : Task → Prop}
    (h : ground p keepStatic = .ok t)
    (hsaturate : p.validate = .ok () → (saturate p).Ensures {} fun t _ => Q t)
    (hpass : ∀ t t', Pass t t' → Q t → Q t') (hstats : ∀ t stats, Q t → Q { t with stats })
    (hlast : ∀ t, Q t → Q (setInitialValues (decideNumericConditions t))) : Q t := by
  obtain ⟨hvalid, saturated, s, reduced, hrun, hreduced, rfl⟩ := ground_eq_ok h
  have hpasses : ∀ t', Relation.ReflTransGen Pass saturated t' → Q t' := fun t' h => by
    induction h with
    | refl => exact hsaturate hvalid _ _ hrun
    | tail _ h ih => exact hpass _ _ h ih
  refine hlast reduced ?_
  split at hreduced
  · rw [hreduced]
    exact hpasses saturated .refl
  · obtain ⟨result, hresult, heq⟩ := except_bind_eq_ok.mp hreduced
    cases heq
    exact hstats _ _ (hpasses _ (passes_of_removePasses hresult))

theorem openConditions_subset {cs cs' : List NumericCondition} (h : openConditions cs = some cs') :
    cs' ⊆ cs := by
  unfold openConditions at h
  split at h
  · cases h
  · cases h
    exact List.filter_subset_self _

/-- Leaving out numeric conditions keeps an action scoped. -/
theorem decideConditions_scoped {S : Scope} {a b : Action} (h : decideConditions a = some b)
    (ha : a.Scoped S) : b.Scoped S := by
  obtain ⟨startNumeric, hstart, h⟩ := Option.bind_eq_some_iff.mp h
  obtain ⟨numericInvariants, hinvariants, h⟩ := Option.bind_eq_some_iff.mp h
  obtain ⟨endNumeric, hend, h⟩ := Option.bind_eq_some_iff.mp h
  cases h
  refine { ha with numericConditions := fun c hc => ha.numericConditions c ?_ }
  simp only [Action.numericConditions, List.mem_append] at hc ⊢
  rcases hc with (hc | hc) | hc
  · exact Or.inl (Or.inl (openConditions_subset hstart hc))
  · exact Or.inl (Or.inr (openConditions_subset hinvariants hc))
  · exact Or.inr (openConditions_subset hend hc)

/-- What follows the passes keeps a task scoped. -/
theorem IsScopedTask.setInitialValues_decideNumericConditions {K : FunctionId → Prop} {t : Task}
    (h : IsScopedTask K t) : IsScopedTask K (setInitialValues (decideNumericConditions t)) := by
  have hle : (taskScope K t).Le (taskScope K (setInitialValues (decideNumericConditions t))) := by
    have hentry : ∀ {i : Nat} {entry : Variable}, t.vars[i]? = some entry →
        (setInitialValues (decideNumericConditions t)).vars[i]? = some { entry with
          initialValues := (factsOf t.task entry).map fun fact => (fact.time, fact.value) } := by
      intro i entry hi
      show (t.vars.map _)[i]? = some _
      rw [Array.getElem?_map, hi]
      rfl
    exact ⟨fun v ⟨entry, hv⟩ => ⟨_, hentry hv⟩, fun v ⟨entry, hv, hK⟩ => ⟨_, hentry hv, hK⟩,
      fun _ ho => ho, fun _ hf => hf, fun _ hi => hi⟩
  refine ⟨fun b hb => ?_, fun b hb => (h.goals b hb).mono hle,
    fun c hc => (h.constraints c hc).mono hle, fun m hm => (h.metric m hm).mono hle⟩
  -- actions have been decided and numbered anew
  obtain ⟨⟨b', i⟩, hb', rfl⟩ := List.mem_map.mp hb
  obtain ⟨a, ha, hdecide⟩ := List.mem_filterMap.mp (List.fst_mem_of_mem_zipIdx hb')
  have hscoped := (decideConditions_scoped hdecide (h.actions a ha)).mono hle
  exact { hscoped with }

/-- **Grounded tasks are scoped.** -/
theorem ground_isScoped {p : Lifted.Problem} {keepStatic : Bool} {t : Task}
    (h : ground p keepStatic = .ok t) : IsScopedTask (fun _ => True) t :=
  ground_induction h
    -- which functions goals compare does not matter here
    (fun hvalid => saturate_isScoped hvalid (fun _ _ => trivial)
      ⟨fun _ _ _ _ _ _ => trivial, fun _ _ _ _ => trivial⟩)
    (fun _ _ hpass ht => (hpass.isScopedTask ht).2)
    (fun _ _ ht => ⟨ht.actions, ht.goals, ht.constraints, ht.metric⟩)
    fun _ ht => ht.setInitialValues_decideNumericConditions

end TemporalPlanning.Grounding
