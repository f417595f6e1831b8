import TemporalPlanning.Proofs.Grounding.Scope
/-!
Instances of quantified goals stay within the scope of their state.

Eliminating quantifiers creates no variables: a function applied to objects is looked up, and what
does not exist is decided or leaves the goal unresolved. The objects that quantifiers range over
belong to the task, so the instances of a scoped goal are scoped.
-/
set_option autoImplicit false

namespace TemporalPlanning.Grounding

open Grounded

variable {task : Lifted.Task} {K : FunctionId → Prop} {s : State}

/-! ## Goals -/

section Goals

/-- Whatever a computation of a goal results in is scoped. -/
def ResultsScoped (S : Scope) (x : Except Error (Option Goal)) : Prop :=
  ∀ g, x = .ok (some g) → g.Scoped S

theorem resultsScoped_pure {S : Scope} {g : Goal} (h : g.Scoped S) :
    ResultsScoped S (pure (some g)) := fun _ h' => by cases h'; exact h

theorem resultsScoped_constant (S : Scope) (holds : Bool) :
    ResultsScoped S (pure (some (.constant holds))) :=
  resultsScoped_pure (by rw [Goal.Scoped]; trivial)

theorem resultsScoped_none (S : Scope) : ResultsScoped S (pure none) := fun _ h => by cases h

/-- Only results that there are need be looked at. -/
theorem resultsScoped_bind {α : Type} {S : Scope} {x : Except Error α}
    {f : α → Except Error (Option Goal)} (h : ∀ a, x = .ok a → ResultsScoped S (f a)) :
    ResultsScoped S (x >>= f) := fun g hg => by
  obtain ⟨a, ha, hg⟩ := except_bind_eq_ok.mp hg
  exact h a ha g hg

/-- A single goal stands for itself, several are joined. -/
theorem combineGoals_scoped {S : Scope} {conjunction : Bool} {gs : List Goal}
    (h : ∀ g ∈ gs, g.Scoped S) : (combineGoals conjunction gs).Scoped S := by
  unfold combineGoals
  split
  · rw [Goal.Scoped]
    trivial
  next g => exact h g (List.mem_singleton_self g)
  · split
    · rw [Goal.Scoped]
      exact Goal.scopedAll_iff.mpr h
    · rw [Goal.Scoped]
      exact Goal.scopedAll_iff.mpr h

/-- A premise that is decided leaves the conclusion or a constant. -/
theorem implyGoal_resultsScoped {S : Scope} {premise : Goal}
    {conclusion : Unit → Except Error (Option Goal)} (hpremise : premise.Scoped S)
    (hconclusion : ResultsScoped S (conclusion ())) :
    ResultsScoped S (implyGoal premise conclusion) := by
  unfold implyGoal
  split
  · exact resultsScoped_constant S true
  · exact hconclusion
  · refine resultsScoped_bind fun g? hg? => ?_
    split
    · exact resultsScoped_none S
    · exact resultsScoped_constant S true
    · refine resultsScoped_pure ?_
      rw [Goal.Scoped]
      exact hpremise
    next g _ _ =>
      refine resultsScoped_pure ?_
      rw [Goal.Scoped, Goal.ScopedAll, Goal.ScopedAll, Goal.Scoped]
      exact ⟨hpremise, hconclusion g hg?, trivial⟩

/-- The instances of a goal are combined to a scoped one, given scoped goals that are open. -/
theorem instantiateOver_resultsScoped {S : Scope} {conjunction : Bool}
    {f : List ObjectId → Except Error (Option Goal)} {instances : List (List ObjectId)}
    (hf : ∀ c ∈ instances, ResultsScoped S (f c)) {unresolved : Bool} {gs : List Goal}
    (hgs : ∀ g ∈ gs, g.Scoped S) :
    ResultsScoped S (instantiateOver conjunction f instances unresolved gs) := by
  induction instances generalizing unresolved gs with
  | nil =>
    rw [instantiateOver]
    split
    · exact resultsScoped_none S
    · exact resultsScoped_pure (combineGoals_scoped hgs)
  | cons c instances ih =>
    obtain ⟨hc, hrest⟩ := List.forall_mem_cons.mp hf
    rw [instantiateOver]
    refine resultsScoped_bind fun g? hg? => ?_
    split
    · exact ih hrest hgs
    · split
      · exact resultsScoped_constant S _
      · exact ih hrest hgs
    next g _ =>
      refine ih hrest fun g' hg' => ?_
      rcases List.mem_append.mp hg' with hg' | hg'
      · exact hgs g' hg'
      · rw [List.mem_singleton.mp hg']
        exact hc g hg?

/-- Quantified parameters range over the objects of their types. -/
theorem mem_combinations {setting : Setting} {types : List (List TypeId)} {c : List ObjectId} :
    c ∈ combinations setting types ↔
      List.Forall₂ (fun ts o => setting.admits ts o = true) types c := by
  induction types generalizing c with
  | nil => rw [combinations, List.mem_singleton, List.forall₂_nil_left_iff]
  | cons ts types ih =>
    simp only [combinations, List.mem_flatMap, List.mem_map, mem_objectsOf, ih,
      List.forall₂_cons_left_iff]
    constructor
    · rintro ⟨o, ho, rest, hrest, rfl⟩
      exact ⟨o, rest, ho, hrest, rfl⟩
    · rintro ⟨o, rest, ho, hrest, rfl⟩
      exact ⟨o, ho, rest, hrest, rfl⟩

/-- Quantifiers range over objects of the table. -/
theorem lt_size_of_mem_combinations {p : Lifted.Problem} {types : List (List TypeId)}
    {c : List ObjectId} (hc : c ∈ combinations (Setting.ofTask p.task) types) :
    ∀ o ∈ c, o.index < p.task.objects.size := fun _ ho =>
  let ⟨_, _, hadmits⟩ := exists_of_forall₂ (mem_combinations.mp hc) ho
  lt_size_of_admits hadmits

variable {bindings : List ObjectId}

/-- A quantified parameter stands for one of these objects. -/
theorem lt_size_of_resolve (hbindings : ∀ o ∈ bindings, o.index < task.objects.size)
    {term : PartialTerm} {o : ObjectId}
    (hterm : ∀ c, term = .object c → c.index < task.objects.size)
    (h : resolve bindings term = .ok o) : o.index < task.objects.size := by
  cases term with
  | object c =>
    cases h
    exact hterm o rfl
  | quantified i =>
    rw [resolve] at h
    split at h
    next c hc =>
      cases h
      exact hbindings o (List.mem_of_getElem? hc)
    · cases h

/-- A function applied to objects becomes its variable, if there is one, or a constant. -/
theorem instantiateFluent_resultsScoped {setting : Setting}
    (hbindings : ∀ o ∈ bindings, o.index < task.objects.size) {f : FunctionId} (hf : K f)
    {arguments : List PartialTerm} {value : PartialTerm} {equal : Bool}
    (hvalue : ∀ c, value = .object c → c.index < task.objects.size) :
    ResultsScoped (s.scope task K)
      (instantiateFluent setting s.vars bindings f arguments value equal) := by
  refine resultsScoped_bind fun objects _ => resultsScoped_bind fun o ho => ?_
  split
  next v hv =>
    have hnames := names_of_find? hv
    refine resultsScoped_pure ?_
    rw [Goal.Scoped]
    exact ⟨scope_of_names hnames, scope_fluent_of_names hnames hf,
      lt_size_of_resolve hbindings hvalue ho⟩
  · split
    · exact resultsScoped_constant _ _
    · exact resultsScoped_none _

/-- The same for functions in numeric comparisons, which are left unresolved without a variable. -/
theorem resolveQuantity_scoped {q q' : PartialQuantity} (hq : q.Scoped (s.scope task K))
    (h : (resolveQuantity s.vars bindings q).run = .ok (some q')) :
    q'.Scoped (s.scope task K) := by
  cases q with
  | number x =>
    cases h
    exact hq
  | var v =>
    cases h
    exact hq
  | ungrounded f arguments =>
    obtain ⟨objects, -, h⟩ := residue_bind_eq_some.mp h
    obtain ⟨v, hv, h⟩ := residue_bind_eq_some.mp h
    split at h
    · split at h
      · cases h
        exact scope_of_names (names_of_find? (Except.ok.inj hv))
      · cases h
    · cases h
  | term t =>
    obtain ⟨o, -, h⟩ := residue_bind_eq_some.mp h
    cases h
    trivial

theorem instantiateCompare_resultsScoped {comparator : Comparator}
    {terms : List (Expression PartialQuantity)}
    (hterms : ∀ e ∈ terms, ∀ q ∈ e.atoms, q.Scoped (s.scope task K)) :
    ResultsScoped (s.scope task K) (instantiateCompare s.vars bindings comparator terms) := by
  refine resultsScoped_bind fun terms? hterms? => ?_
  split
  · exact resultsScoped_none _
  · exact resultsScoped_constant _ _
  next terms' _ =>
    refine resultsScoped_pure ?_
    rw [Goal.Scoped]
    intro e' he' q' hq'
    obtain ⟨e, he, hmap⟩ := exists_of_forall₂ (residue_mapM_eq_some hterms?) he'
    obtain ⟨q, hq, hresolve⟩ := Expression.exists_atom_of_mapM hmap hq'
    exact resolveQuantity_scoped (hterms e he q hq) hresolve

mutual

/-- **Instances of scoped goals are scoped.** -/
theorem instantiate_resultsScoped {p : Lifted.Problem} : ∀ (g : Goal) {bindings : List ObjectId},
    (∀ o ∈ bindings, o.index < p.task.objects.size) → g.Scoped (s.scope p.task K) →
      ResultsScoped (s.scope p.task K) (instantiate (Setting.ofTask p.task) s.vars bindings g)
  | .fluent v o equal, bindings, hbindings, hg => by
    rw [instantiate]
    exact resultsScoped_pure hg
  | .constant holds, bindings, hbindings, hg => by
    rw [instantiate]
    exact resultsScoped_pure hg
  | .ungroundedFluent f arguments value equal, bindings, hbindings, hg => by
    rw [instantiate]
    rw [Goal.Scoped] at hg
    exact instantiateFluent_resultsScoped hbindings hg.1 hg.2
  | .and gs, bindings, hbindings, hg | .or gs, bindings, hbindings, hg => by
    rw [instantiate]
    rw [Goal.Scoped] at hg
    exact instantiateAll_resultsScoped gs hbindings hg (fun g' hg' => by cases hg')
  | .not g, bindings, hbindings, hg => by
    rw [instantiate]
    rw [Goal.Scoped] at hg
    refine resultsScoped_bind fun g? hg? => ?_
    split
    · exact resultsScoped_none _
    · exact resultsScoped_constant _ _
    next g' _ =>
      refine resultsScoped_pure ?_
      rw [Goal.Scoped]
      exact instantiate_resultsScoped g hbindings hg g' hg?
  | .imply premise conclusion, bindings, hbindings, hg => by
    rw [instantiate]
    rw [Goal.Scoped] at hg
    refine resultsScoped_bind fun g? hg? => ?_
    split
    · exact resultsScoped_none _
    · exact implyGoal_resultsScoped (instantiate_resultsScoped premise hbindings hg.1 _ hg?)
        (instantiate_resultsScoped conclusion hbindings hg.2)
  | .existential types g, bindings, hbindings, hg
  | .universal types g, bindings, hbindings, hg => by
    rw [instantiate]
    rw [Goal.Scoped] at hg
    -- what a quantifier ranges over is bound after what is bound already
    refine instantiateOver_resultsScoped (fun c hc => ?_) (fun g' hg' => by cases hg')
    refine instantiate_resultsScoped g (fun o ho => ?_) hg
    rcases List.mem_append.mp ho with ho | ho
    · exact hbindings o ho
    · exact lt_size_of_mem_combinations hc o ho
  | .equality equal left right, bindings, hbindings, hg => by
    rw [instantiate]
    exact resultsScoped_bind fun l _ => resultsScoped_bind fun r _ => resultsScoped_constant _ _
  | .compare comparator terms, bindings, hbindings, hg => by
    rw [instantiate]
    rw [Goal.Scoped] at hg
    exact instantiateCompare_resultsScoped hg
  | .timed time g, bindings, hbindings, hg => by
    rw [instantiate]
    rw [Goal.Scoped] at hg
    refine resultsScoped_bind fun g? hg? => ?_
    split
    · exact resultsScoped_none _
    · exact resultsScoped_constant _ _
    next g' _ =>
      refine resultsScoped_pure ?_
      rw [Goal.Scoped]
      exact instantiate_resultsScoped g hbindings hg g' hg?

/-- Operands are collected from the left until one of them decides or is unresolved. -/
theorem instantiateAll_resultsScoped {p : Lifted.Problem} {conjunction : Bool} :
    ∀ (gs : List Goal) {bindings : List ObjectId} {terms : List Goal},
      (∀ o ∈ bindings, o.index < p.task.objects.size) → Goal.ScopedAll (s.scope p.task K) gs →
        (∀ g ∈ terms, g.Scoped (s.scope p.task K)) → ResultsScoped (s.scope p.task K)
          (instantiateAll (Setting.ofTask p.task) s.vars bindings conjunction gs terms)
  | [], bindings, terms, hbindings, hgs, hterms => by
    rw [instantiateAll]
    exact resultsScoped_pure (combineGoals_scoped hterms)
  | g :: gs, bindings, terms, hbindings, hgs, hterms => by
    rw [instantiateAll]
    refine resultsScoped_bind fun g? hg? => ?_
    split
    · exact resultsScoped_none _
    · split
      · exact resultsScoped_constant _ _
      · exact instantiateAll_resultsScoped gs hbindings hgs.2 hterms
    next g' _ =>
      refine instantiateAll_resultsScoped gs hbindings hgs.2 fun h hh => ?_
      rcases List.mem_append.mp hh with hh | hh
      · exact hterms h hh
      · rw [List.mem_singleton.mp hh]
        exact instantiate_resultsScoped g hbindings hgs.1 g' hg?

end

end Goals

/-! ## Constraints -/

section Collecting

variable {α β : Type} {Q : State → β → Prop}

/-- Results that exist have a property. -/
def WhenSome (Q : State → β → Prop) : State → Option β → Prop := fun s b? =>
  ∀ b, b? = some b → Q s b

theorem whenSome_some {b : β} (h : Q s b) : WhenSome Q s (some b) := fun _ h' => by
  cases h'
  exact h

theorem whenSome_none : WhenSome Q s none := fun _ h => by cases h

/-- Nothing is asked of what comes to nothing. -/
theorem WhenSome.map {γ : Type} {R : State → γ → Prop} {f : β → γ} {b? : Option β}
    (h : WhenSome Q s b?) (hf : ∀ b, Q s b → R s (f b)) : WhenSome R s (b?.map f) := by
  cases b? with
  | none => exact whenSome_none
  | some b => exact whenSome_some (hf b (h b rfl))

/-- What holds of a result still holds in later states, so it holds of all results at the end. -/
theorem collect_gives (hQ : IsStable Q) {f : α → Step (Option β)} {as : List α}
    (hf : ∀ a ∈ as, ∀ s', s.Creates s' → (f a).Gives s' (WhenSome Q)) :
    (collect f as).Gives s fun s' bs => ∀ b ∈ bs, Q s' b := by
  induction as generalizing s with
  | nil =>
    rw [collect]
    exact Step.gives_pure fun b hb => by cases hb
  | cons a as ih =>
    rw [collect]
    refine (hf a List.mem_cons_self s (.refl s)).bind fun b? s₁ h₁ hb? => ?_
    have hrest := ih fun a' ha' s' hs' => hf a' (List.mem_cons_of_mem _ ha') s' (h₁.trans hs')
    split
    next b =>
      refine hrest.bind fun bs s₂ h₂ hbs => Step.gives_pure ?_
      exact List.forall_mem_cons.mpr ⟨hQ _ _ _ h₂ (hb? b rfl), hbs⟩
    · exact hrest

theorem collectAll_gives (hQ : IsStable Q) {f : α → Step (Option β)} {as : List α}
    (hf : ∀ a ∈ as, ∀ s', s.Creates s' → (f a).Gives s' (WhenSome Q)) :
    (collectAll f as).Gives s (WhenSome fun s' bs => ∀ b ∈ bs, Q s' b) := by
  induction as generalizing s with
  | nil =>
    rw [collectAll]
    exact Step.gives_pure (whenSome_some fun b hb => by cases hb)
  | cons a as ih =>
    rw [collectAll]
    refine (hf a List.mem_cons_self s (.refl s)).bind fun b? s₁ h₁ hb? => ?_
    split
    next b =>
      refine (ih fun a' ha' s' hs' => hf a' (List.mem_cons_of_mem _ ha') s' (h₁.trans hs')).bind
        fun bs? s₂ h₂ hbs? => Step.gives_pure (hbs?.map fun bs hbs => ?_)
      exact List.forall_mem_cons.mpr ⟨hQ _ _ _ h₂ (hb? b rfl), hbs⟩
    · exact Step.gives_pure whenSome_none

end Collecting

section Constraints

variable {p : Lifted.Problem}

variable (task K) in
/-- Scopes grow with the state. -/
theorem constraint_scoped_isStable :
    IsStable fun s (c : Constraint) => c.Scoped (s.scope task K) :=
  fun _ _ _ hcreates hc => hc.mono hcreates.grows.scope_le

/-- The goals of a constraint are ground and then resolved in the state that this has left. -/
theorem groundConstraintGoal_gives {arguments : List ObjectId} {context : String} {bound : Nat}
    (hobjects : ∀ o ∈ arguments, o.index < p.task.objects.size)
    (hnonnumeric : ∀ f, p.task.isNumeric f = false → K f) (hreserved : 2 ≤ p.task.objects.size)
    {goal : Lifted.Goal} (hcheck : p.task.checkGoal context bound goal = .ok ())
    (hliterals : ∀ l ∈ goal.literals, K l.function) (s : State) :
    (groundConstraintGoal (Setting.ofTask p.task) arguments goal).Gives s
      (WhenSome fun s' g => g.Scoped (s'.scope p.task K)) := by
  refine (groundGoal_gives hobjects hnonnumeric hreserved goal bound s hcheck hliterals).bind
    fun g s' _ hg => Step.gives_get_bind (Step.gives_lift fun g? hg? g' hg' => ?_)
  -- outside of quantifiers nothing is bound
  have hnone : ∀ o ∈ ([] : List ObjectId), o.index < p.task.objects.size := fun o ho => by cases ho
  refine instantiate_resultsScoped g hnone hg g' ?_
  rw [hg?, hg']

/-- A single constraint stands for itself as well. -/
theorem combineConstraints_scoped {S : Scope} {cs : List Constraint} {c : Constraint}
    (hcs : ∀ c ∈ cs, c.Scoped S) (h : combineConstraints cs = some c) : c.Scoped S := by
  unfold combineConstraints at h
  split at h
  · cases h
  next c' =>
    cases h
    exact hcs c (List.mem_singleton_self c)
  · cases h
    rw [Constraint.Scoped]
    exact Constraint.scopedAll_iff.mpr hcs

mutual

/-- **Grounded constraints are scoped.** -/
theorem groundConstraint_gives (hnonnumeric : ∀ f, p.task.isNumeric f = false → K f)
    (hreserved : 2 ≤ p.task.objects.size) :
    ∀ (c : Lifted.Constraint) (arguments : List ObjectId) (bound : Nat) (s : State),
      (∀ o ∈ arguments, o.index < p.task.objects.size) → p.task.checkConstraint bound c = .ok () →
        (∀ l ∈ c.literals, K l.function) →
          (groundConstraint (Setting.ofTask p.task) arguments c).Gives s
            (WhenSome fun s' c' => c'.Scoped (s'.scope p.task K))
  | .and cs, arguments, bound, s, hobjects, hcheck, hliterals => by
    rw [groundConstraint]
    rw [Lifted.Constraint.literals] at hliterals
    refine (groundConstraints_gives hnonnumeric hreserved cs arguments bound s hobjects hcheck
      hliterals).bind fun cs? s' _ hcs => ?_
    split
    · exact Step.gives_pure whenSome_none
    next c => exact Step.gives_pure (whenSome_some (hcs [c] rfl c (List.mem_singleton_self c)))
    next cs' _ =>
      refine Step.gives_pure (whenSome_some ?_)
      rw [Constraint.Scoped]
      exact Constraint.scopedAll_iff.mpr (hcs cs' rfl)
  | .universal ps c, arguments, bound, s, hobjects, hcheck, hliterals => by
    rw [groundConstraint]
    rw [Lifted.Constraint.literals] at hliterals
    rw [Lifted.Task.checkConstraint] at hcheck
    -- instances are ground for objects of the table, in whatever state the ones before have left
    have hinstance : ∀ objects ∈ combinations (Setting.ofTask p.task) (ps.map (·.types)), ∀ s',
        s.Creates s' → (groundConstraint (Setting.ofTask p.task) (arguments ++ objects) c).Gives s'
          (WhenSome fun s' c' => c'.Scoped (s'.scope p.task K)) := fun objects hin s' _ =>
      groundConstraint_gives hnonnumeric hreserved c _ _ s' (fun o ho => by
        rcases List.mem_append.mp ho with ho | ho
        · exact hobjects o ho
        · exact lt_size_of_mem_combinations hin o ho) (check_bind_eq_ok.mp hcheck).2 hliterals
    refine (collect_gives (constraint_scoped_isStable p.task K) hinstance).bind
      fun cs s' _ hcs => ?_
    exact Step.gives_pure fun c' hc' => combineConstraints_scoped hcs hc'
  | .preference name c, arguments, bound, s, hobjects, hcheck, hliterals => by
    rw [groundConstraint]
    rw [Lifted.Constraint.literals] at hliterals
    refine (preferenceIndex_gives name s).bind fun i s₁ _ hi => ?_
    refine (groundConstraint_gives hnonnumeric hreserved c arguments bound s₁ hobjects hcheck
      hliterals).bind fun c? s₂ h₂ hc => Step.gives_pure (hc.map fun c' hc' => ?_)
    rw [Constraint.Scoped]
    exact ⟨⟨name, h₂.named i name hi⟩, hc'⟩
  | .goalPreference name g, arguments, bound, s, hobjects, hcheck, hliterals => by
    rw [groundConstraint]
    rw [Lifted.Constraint.literals] at hliterals
    rw [Lifted.Task.checkConstraint] at hcheck
    refine (preferenceIndex_gives name s).bind fun i s₁ _ hi => ?_
    refine (groundConstraintGoal_gives hobjects hnonnumeric hreserved hcheck hliterals s₁).bind
      fun g? s₂ h₂ hg => Step.gives_pure (hg.map fun g' hg' => ?_)
    rw [Constraint.Scoped]
    exact ⟨⟨name, h₂.named i name hi⟩, hg'⟩
  | .temporal modality times gs, arguments, bound, s, hobjects, hcheck, hliterals => by
    rw [groundConstraint]
    rw [Lifted.Constraint.literals] at hliterals
    rw [Lifted.Task.checkConstraint] at hcheck
    have hgoals := check_forM_eq_ok (check_bind_eq_ok.mp hcheck).2
    refine (collectAll_gives (goal_scoped_isStable p.task K) fun g hg s' _ =>
      groundConstraintGoal_gives hobjects hnonnumeric hreserved (hgoals g hg)
        (fun l hl => hliterals l (Lifted.Goal.mem_literalsOfList.mpr ⟨g, hg, hl⟩)) s').bind
      fun gs? s' _ hgs => Step.gives_pure (hgs.map fun gs' hgs' => ?_)
    rw [Constraint.Scoped]
    exact hgs'

/-- The first of the constraints is still scoped when the last one has been ground. -/
theorem groundConstraints_gives (hnonnumeric : ∀ f, p.task.isNumeric f = false → K f)
    (hreserved : 2 ≤ p.task.objects.size) :
    ∀ (cs : List Lifted.Constraint) (arguments : List ObjectId) (bound : Nat) (s : State),
      (∀ o ∈ arguments, o.index < p.task.objects.size) → p.task.checkConstraints bound cs = .ok () →
        (∀ l ∈ Lifted.Constraint.literalsOfList cs, K l.function) →
          (groundConstraints (Setting.ofTask p.task) arguments cs).Gives s
            (WhenSome fun s' cs' => ∀ c ∈ cs', c.Scoped (s'.scope p.task K))
  | [], arguments, bound, s, hobjects, hcheck, hliterals => by
    rw [groundConstraints]
    exact Step.gives_pure (whenSome_some fun c hc => by cases hc)
  | c :: cs, arguments, bound, s, hobjects, hcheck, hliterals => by
    rw [groundConstraints]
    rw [Lifted.Constraint.literalsOfList] at hliterals
    rw [Lifted.Task.checkConstraints] at hcheck
    obtain ⟨hc, hcs⟩ := check_bind_eq_ok.mp hcheck
    refine (groundConstraint_gives hnonnumeric hreserved c arguments bound s hobjects hc
      fun l hl => hliterals l (List.mem_append_left _ hl)).bind fun c? s₁ _ hc' => ?_
    split
    · exact Step.gives_pure whenSome_none
    next c' =>
      refine (groundConstraints_gives hnonnumeric hreserved cs arguments bound s₁ hobjects hcs
        fun l hl => hliterals l (List.mem_append_right _ hl)).bind fun cs? s₂ h₂ hcs' => ?_
      refine Step.gives_pure (hcs'.map fun cs' hcs' => List.forall_mem_cons.mpr ⟨?_, hcs'⟩)
      exact (hc' c' rfl).mono h₂.grows.scope_le

end

end Constraints

end TemporalPlanning.Grounding
