import TemporalPlanning.Proofs.Grounding.SymbolicExpressions
/-!
Grounding a goal and eliminating its quantifiers keeps what it means.

A goal is related to its grounding under all objects for the parameters of the quantifiers around
it, and each quantifier appends the objects that it ranges over. Grounding never fails if the goal
is valid and does not mention the duration of an action, and no instance is unresolved if the
variables that it refers to exist.
-/
set_option autoImplicit false

namespace TemporalPlanning.Grounding

open Grounded

/-! ## Goals -/

section Goals

variable {task : Lifted.Task} {context : String} {arguments : List ObjectId}

/-- Where a lifted goal holds, if variables have values. -/
def holdsIn (task : Lifted.Task) (vars : VariableTable) (objects : List ObjectId)
    (goal : Lifted.Goal) : Grounded.Situations Float → TimePoint → Prop := fun x time =>
  goal.Holds task (fun t => vars.situation task (x t)) time objects

/-- The instances of a grounded goal express the lifted one, for all objects of quantifiers under
which this is valid and the variables that it refers to exist. -/
def RendersGoal (task : Lifted.Task) (context : String) (arguments : List ObjectId)
    (goal : Lifted.Goal) (s : State) (g : Goal) : Prop :=
  ∀ bindings, task.checkGoal context (arguments ++ bindings).length goal = .ok () →
    goal.HasVariables task s.vars (arguments ++ bindings) →
      Resolves (instantiate (Setting.ofTask task) s.vars bindings g)
        (holdsIn task s.vars (arguments ++ bindings) goal)

variable {goal premise conclusion : Lifted.Goal} {parameters : List Lifted.Parameter} {s : State}
  {g h : Goal}

/-- A goal that is rendered for a condition and a meaning is rendered as a goal if these are the
ones of the lifted goal. -/
theorem Renders.rendersGoal {C : VariableTable → List ObjectId → Prop}
    {P : Lifted.Situations → TimePoint → List ObjectId → Prop}
    (hg : Renders task arguments C P s g)
    (hC : ∀ vars objects, task.checkGoal context objects.length goal = .ok () →
      goal.HasVariables task vars objects → C vars objects)
    (hP : ∀ x time objects, P x time objects ↔ goal.Holds task x time objects) :
    RendersGoal task context arguments goal s g := fun bindings hcheck hvariables =>
  (hg bindings (hC _ _ hcheck hvariables)).congr fun _ time => hP _ time _

/-- Negation of a constant is decided at once. -/
theorem RendersGoal.not (hg : RendersGoal task context arguments goal s g) :
    RendersGoal task context arguments (.not goal) s (.not g) := by
  intro bindings hcheck hvariables
  rw [Lifted.Task.checkGoal] at hcheck
  rw [Lifted.Goal.HasVariables] at hvariables
  obtain ⟨g', hrun, hexpresses⟩ := hg bindings hcheck hvariables
  have hnot : Resolves (instantiate (Setting.ofTask task) s.vars bindings (.not g)) fun x time =>
      ¬holdsIn task s.vars (arguments ++ bindings) goal x time := by
    rw [instantiate]
    refine resolves_bind hrun ?_
    cases g' with
    | constant holds =>
      refine ⟨_, rfl, Goal.expresses_constant fun x time => ?_⟩
      rw [hexpresses.iff_of_constant]
      simp
    | _ => exact ⟨_, rfl, hexpresses.not⟩
  refine hnot.congr fun x time => ?_
  rw [holdsIn, holdsIn, Lifted.Goal.Holds]

/-- A time point changes nothing about a constant. -/
theorem RendersGoal.timed (hg : RendersGoal task context arguments goal s g) (time : TimePoint) :
    RendersGoal task context arguments (.timed time goal) s (.timed time g) := by
  intro bindings hcheck hvariables
  rw [Lifted.Task.checkGoal] at hcheck
  rw [Lifted.Goal.HasVariables] at hvariables
  obtain ⟨g', hrun, hexpresses⟩ := hg bindings hcheck hvariables
  have htimed : Resolves (instantiate (Setting.ofTask task) s.vars bindings (.timed time g))
      fun x _ => holdsIn task s.vars (arguments ++ bindings) goal x time := by
    rw [instantiate]
    refine resolves_bind hrun ?_
    cases g' with
    | constant holds =>
      exact ⟨_, rfl, Goal.expresses_constant fun x _ => hexpresses.iff_of_constant x time⟩
    | _ => exact ⟨_, rfl, hexpresses.timed time⟩
  refine htimed.congr fun x time' => ?_
  rw [holdsIn, holdsIn, Lifted.Goal.Holds]

theorem RendersGoal.imply (hg : RendersGoal task context arguments premise s g)
    (hh : RendersGoal task context arguments conclusion s h) :
    RendersGoal task context arguments (.imply premise conclusion) s (.imply g h) := by
  intro bindings hcheck hvariables
  rw [Lifted.Task.checkGoal] at hcheck
  rw [Lifted.Goal.HasVariables] at hvariables
  obtain ⟨hpremise, hconclusion⟩ := check_bind_eq_ok.mp hcheck
  obtain ⟨g', hrun, hexpresses⟩ := hg bindings hpremise hvariables.1
  rw [instantiate]
  refine resolves_bind hrun ?_
  refine (implyGoal_resolves hexpresses (hh bindings hconclusion hvariables.2)).congr ?_
  intro x time
  rw [holdsIn, holdsIn, holdsIn, Lifted.Goal.Holds]

/-- A quantifier binds its parameters behind those that are bound already. -/
theorem RendersGoal.instances {conjunction : Bool}
    (hg : RendersGoal task context arguments goal s g) {bindings : List ObjectId}
    (hcheck : task.checkGoal context ((arguments ++ bindings).length + parameters.length) goal =
      .ok ())
    (hvariables : ∀ more, task.Admits parameters more →
      goal.HasVariables task s.vars (arguments ++ bindings ++ more)) :
    let instances := combinations (Setting.ofTask task) (parameters.map (·.types))
    Resolves
      (instantiateOver conjunction
        (fun c => instantiate (Setting.ofTask task) s.vars (bindings ++ c) g) instances
        (!instances.isEmpty) [])
      fun x time => Joined conjunction
        (fun more => holdsIn task s.vars (arguments ++ bindings ++ more) goal x time) instances :=
  instantiateOver_resolves fun more hmore => by
    rw [List.append_assoc]
    -- the objects of the quantifier come last, behind those of the quantifiers around it
    refine hg (bindings ++ more) ?_ ?_
    · rw [← List.append_assoc, List.length_append, ← hmore.length_eq]
      exact hcheck
    · rw [← List.append_assoc]
      exact hvariables more hmore

/-- An existential goal is the disjunction of its instances. -/
theorem RendersGoal.existential (hg : RendersGoal task context arguments goal s g) :
    RendersGoal task context arguments (.existential parameters goal) s
      (.existential (parameters.map (·.types)) g) := by
  intro bindings hcheck hvariables
  rw [Lifted.Task.checkGoal] at hcheck
  rw [Lifted.Goal.HasVariables] at hvariables
  rw [instantiate]
  refine (hg.instances (check_bind_eq_ok.mp hcheck).2 hvariables).congr fun x time => ?_
  rw [holdsIn, Lifted.Goal.Holds]
  exact exists_congr fun more => and_congr_left' mem_combinations_iff_admits

/-- A universal goal is the conjunction of its instances. -/
theorem RendersGoal.universal (hg : RendersGoal task context arguments goal s g) :
    RendersGoal task context arguments (.universal parameters goal) s
      (.universal (parameters.map (·.types)) g) := by
  intro bindings hcheck hvariables
  rw [Lifted.Task.checkGoal] at hcheck
  rw [Lifted.Goal.HasVariables] at hvariables
  rw [instantiate]
  refine (hg.instances (check_bind_eq_ok.mp hcheck).2 hvariables).congr fun x time => ?_
  rw [holdsIn, Lifted.Goal.Holds]
  exact forall_congr' fun more => imp_congr_left mem_combinations_iff_admits

/-- The instances of grounded goals of a list express the lifted ones one by one. -/
def RendersGoals (task : Lifted.Task) (context : String) (arguments : List ObjectId)
    (goals : List Lifted.Goal) (s : State) (gs : List Goal) : Prop :=
  ∀ bindings, task.checkGoals context (arguments ++ bindings).length goals = .ok () →
    Lifted.Goal.HaveVariables task s.vars (arguments ++ bindings) goals →
      ∃ hs, List.Forall₂ (fun g h =>
          instantiate (Setting.ofTask task) s.vars bindings g = .ok (some h)) gs hs ∧
        List.Forall₂ (fun (goal : Lifted.Goal) (h : Goal) =>
          h.Expresses (holdsIn task s.vars (arguments ++ bindings) goal)) goals hs

variable {goals : List Lifted.Goal} {gs : List Goal}

theorem RendersGoal.cons (hg : RendersGoal task context arguments goal s g)
    (hgs : RendersGoals task context arguments goals s gs) :
    RendersGoals task context arguments (goal :: goals) s (g :: gs) := by
  intro bindings hcheck hvariables
  rw [Lifted.Task.checkGoals] at hcheck
  rw [Lifted.Goal.HaveVariables] at hvariables
  obtain ⟨hfirst, hrest⟩ := check_bind_eq_ok.mp hcheck
  obtain ⟨h, hrun, hexpresses⟩ := hg bindings hfirst hvariables.1
  obtain ⟨hs, hruns, hexpress⟩ := hgs bindings hrest hvariables.2
  exact ⟨h :: hs, .cons hrun hruns, .cons hexpresses hexpress⟩

/-- Goals of a list are joined as their instances are. -/
theorem RendersGoals.joined (hgs : RendersGoals task context arguments goals s gs)
    (conjunction : Bool) {bindings : List ObjectId}
    (hcheck : task.checkGoals context (arguments ++ bindings).length goals = .ok ())
    (hvariables : Lifted.Goal.HaveVariables task s.vars (arguments ++ bindings) goals) :
    Resolves (instantiateAll (Setting.ofTask task) s.vars bindings conjunction gs [])
      fun x time => Joined conjunction
        (fun goal => holdsIn task s.vars (arguments ++ bindings) goal x time) goals := by
  obtain ⟨hs, hruns, hexpress⟩ := hgs bindings hcheck hvariables
  exact ⟨_, instantiateAll_eq hruns [], joinGoals_expresses_joined hexpress⟩

theorem RendersGoals.and (hgs : RendersGoals task context arguments goals s gs) :
    RendersGoal task context arguments (.and goals) s (.and gs) := by
  intro bindings hcheck hvariables
  rw [Lifted.Task.checkGoal] at hcheck
  rw [Lifted.Goal.HasVariables] at hvariables
  rw [instantiate]
  refine (hgs.joined true hcheck hvariables).congr fun x time => ?_
  rw [holdsIn, Lifted.Goal.Holds]
  exact Lifted.Goal.holdsAll_iff.symm

theorem RendersGoals.or (hgs : RendersGoals task context arguments goals s gs) :
    RendersGoal task context arguments (.or goals) s (.or gs) := by
  intro bindings hcheck hvariables
  rw [Lifted.Task.checkGoal] at hcheck
  rw [Lifted.Goal.HasVariables] at hvariables
  rw [instantiate]
  refine (hgs.joined false hcheck hvariables).congr fun x time => ?_
  rw [holdsIn, Lifted.Goal.Holds]
  exact Lifted.Goal.holdsAny_iff.symm

/-! ## Grounding -/

mutual

/-- **Grounded goals render the lifted ones**, in all later states. -/
theorem groundGoal_establishes (context : String) : ∀ (goal : Lifted.Goal) (s : State),
    goal.RespectsKinds task →
      (groundGoal task arguments goal).Establishes task s (RendersGoal task context arguments goal)
  | .literal l, s, _ | .negLiteral l, s, _ => by
    rw [groundGoal]
    refine (fluentGoal_establishes l _ true s).mono fun s' g hg => hg.rendersGoal ?_ ?_
    · intro vars objects hcheck hvariables
      rw [Lifted.Task.checkGoal] at hcheck
      rw [Lifted.Goal.HasVariables] at hvariables
      exact ⟨isBound_of_checkLiteral hcheck, trivial, hvariables⟩
    · intro x time objects
      rw [Lifted.Goal.Holds]
      exact fluentHolds_object_iff
  | .and goals, s, hkinds => by
    rw [groundGoal]
    rw [Lifted.Goal.RespectsKinds] at hkinds
    exact (groundGoals_establishes context goals s hkinds).bind fun gs s' =>
      Step.establishes_pure fun s'' _ hgs => hgs.and
  | .or goals, s, hkinds => by
    rw [groundGoal]
    rw [Lifted.Goal.RespectsKinds] at hkinds
    exact (groundGoals_establishes context goals s hkinds).bind fun gs s' =>
      Step.establishes_pure fun s'' _ hgs => hgs.or
  | .not goal, s, hkinds => by
    rw [groundGoal]
    rw [Lifted.Goal.RespectsKinds] at hkinds
    exact (groundGoal_establishes context goal s hkinds).bind fun g s' =>
      Step.establishes_pure fun s'' _ hg => hg.not
  | .imply premise conclusion, s, hkinds => by
    rw [groundGoal]
    rw [Lifted.Goal.RespectsKinds] at hkinds
    exact (groundGoal_establishes context premise s hkinds.1).bind fun g s₁ =>
      (groundGoal_establishes context conclusion s₁ hkinds.2).bind fun h s₂ =>
        Step.establishes_pure fun s' _ hh hg => hg.imply hh
  | .existential parameters goal, s, hkinds => by
    rw [groundGoal]
    rw [Lifted.Goal.RespectsKinds] at hkinds
    exact (groundGoal_establishes context goal s hkinds).bind fun g s' =>
      Step.establishes_pure fun s'' _ hg => hg.existential
  | .universal parameters goal, s, hkinds => by
    rw [groundGoal]
    rw [Lifted.Goal.RespectsKinds] at hkinds
    exact (groundGoal_establishes context goal s hkinds).bind fun g s' =>
      Step.establishes_pure fun s'' _ hg => hg.universal
  | .compare comparator left right, s, hkinds => by
    rw [groundGoal]
    refine (compareGoal_establishes context hkinds s).mono fun s' g hg => hg.rendersGoal ?_ ?_
    · intro vars objects hcheck hvariables
      rw [Lifted.Task.checkGoal] at hcheck
      rw [Lifted.Goal.HasVariables] at hvariables
      obtain ⟨hleft, hright⟩ := check_bind_eq_ok.mp hcheck
      exact ⟨hleft, hright, hvariables⟩
    · intro x time objects
      rw [Lifted.Goal.Holds]
  | .equality left right, s, _ | .inequality left right, s, _ => by
    rw [groundGoal]
    refine Step.establishes_pure fun s' _ => (equality_renders s').rendersGoal ?_ ?_
    · intro vars objects hcheck _
      rw [Lifted.Task.checkGoal] at hcheck
      obtain ⟨hleft, hright⟩ := check_bind_eq_ok.mp hcheck
      exact ⟨isBound_of_check hleft, isBound_of_check hright⟩
    · intro x time objects
      rw [Lifted.Goal.Holds]
      simp
  | .timed time goal, s, hkinds => by
    rw [groundGoal]
    rw [Lifted.Goal.RespectsKinds] at hkinds
    exact (groundGoal_establishes context goal s hkinds).bind fun g s' =>
      Step.establishes_pure fun s'' _ hg => hg.timed time

theorem groundGoals_establishes (context : String) : ∀ (goals : List Lifted.Goal) (s : State),
    Lifted.Goal.RespectKinds task goals →
      (groundGoals task arguments goals).Establishes task s
        (RendersGoals task context arguments goals)
  | [], s, _ => by
    rw [groundGoals]
    exact Step.establishes_pure fun s' _ bindings _ _ => ⟨[], .nil, .nil⟩
  | goal :: goals, s, hkinds => by
    rw [groundGoals]
    rw [Lifted.Goal.RespectKinds] at hkinds
    exact (groundGoal_establishes context goal s hkinds.1).bind fun g s₁ =>
      (groundGoals_establishes context goals s₁ hkinds.2).bind fun gs s₂ =>
        Step.establishes_pure fun s' _ hgs hg => hg.cons hgs

end

/-- **Eliminating quantifiers keeps the meaning of goals.** Grounding a valid goal under objects for
its parameters succeeds and only creates variables. If by then all functions in it that are not
predicates have variables, whatever objects its quantifiers range over, then eliminating the
quantifiers leads to a plain goal. It holds exactly where the original goal does, for all values of
variables. -/
theorem groundGoal_eliminates (hs : s.IsTyped task)
    (hcheck : task.checkGoal context arguments.length goal = .ok ())
    (hkinds : goal.RespectsKinds task) :
    ∃ g s', (groundGoal task arguments goal).run s = .ok (g, s') ∧ s.CreatesFor task s' ∧
      (goal.HasVariables task s'.vars arguments →
        ∃ h, instantiate (Setting.ofTask task) s'.vars [] g = .ok (some h) ∧ h.IsPlain ∧
          ∀ (x : Grounded.Situations Float) (time : TimePoint), h.Holds x time ↔
            goal.Holds task (fun t => s'.vars.situation task (x t)) time arguments) := by
  obtain ⟨g, s', hrun, hcreates, hg⟩ := groundGoal_establishes context goal s hkinds
  refine ⟨g, s', hrun, hcreates, fun hvariables => ?_⟩
  -- outside of quantifiers nothing else is bound
  have hinstance := hg s' (.refl task s') (hcreates.isTyped hs) []
  rw [List.append_nil] at hinstance
  obtain ⟨h, hh, hexpresses⟩ := hinstance hcheck hvariables
  exact ⟨h, hh, hexpresses.plain, hexpresses.holds_iff⟩

end Goals

open Lifted in
/-- Places that roads may connect, each with a level. -/
def landscape : Lifted.Task where
  domainName := "landscape"
  problemName := "landscape"
  types := #[⟨"#boolean", []⟩, ⟨"number", []⟩, ⟨"place", []⟩]
  objects := #[⟨"#false", [⟨0⟩]⟩, ⟨"#true", [⟨0⟩]⟩, ⟨"depot", [⟨2⟩]⟩, ⟨"port", [⟨2⟩]⟩]
  functions := #[⟨"road", [⟨"from", [⟨2⟩]⟩, ⟨"to", [⟨2⟩]⟩], [⟨0⟩]⟩,
    ⟨"level", [⟨"of", [⟨2⟩]⟩], [⟨1⟩]⟩]
  init := []
  constraints := []
  metric := none

/-- The levels of both places are variables, and no road is. -/
def surveyed : State where
  vars :=
    let level (i : Nat) (place : ObjectId) : Variable := ⟨⟨i⟩, ⟨1⟩, [place], true, [], []⟩
    ((Registry.empty.intern (level 0 ⟨2⟩)).2.intern (level 1 ⟨3⟩)).2

open Lifted in
/-- Every place has a road to some place, or lies no lower than the given one. -/
def accessible : Lifted.Goal :=
  .universal [⟨"from", [⟨2⟩]⟩] (.existential [⟨"to", [⟨2⟩]⟩] (.or [
    .literal ⟨⟨0⟩, [.param 1, .param 2]⟩,
    .and [.equality (.param 2) (.param 0),
      .compare .greaterEq (.atom (.fluent ⟨⟨1⟩, [.param 1]⟩)) (.atom (.fluent ⟨⟨1⟩, [.param 0]⟩))]]))

theorem admits_landscape {more : List ObjectId}
    (h : landscape.Admits [⟨"from", [⟨2⟩]⟩] more) : more = [⟨2⟩] ∨ more = [⟨3⟩] := by
  have hmem := mem_combinations_iff_admits.mpr h
  have hall : combinations (Setting.ofTask landscape) [[⟨2⟩]] = [[⟨2⟩], [⟨3⟩]] := by decide +kernel
  simpa [hall] using hmem

theorem surveyed_isTyped : surveyed.IsTyped landscape := by
  intro i v hv
  have hentries : surveyed.vars.entries.toList =
      [⟨⟨0⟩, ⟨1⟩, [⟨2⟩], true, [], []⟩, ⟨⟨1⟩, ⟨1⟩, [⟨3⟩], true, [], []⟩] := by
    decide +kernel
  have hmem := List.mem_of_getElem? (Array.getElem?_toList.trans hv)
  rw [hentries, List.mem_cons, List.mem_singleton] at hmem
  rcases hmem with rfl | rfl <;> decide +kernel

theorem exists_level {s : State} (h : surveyed.Creates s) {o : ObjectId} (ho : o = ⟨2⟩ ∨ o = ⟨3⟩) :
    ∃ v, s.vars.var? ⟨1⟩ [o] = some v := by
  rcases ho with rfl | rfl
  · have hnames : surveyed.Names ⟨0⟩ ⟨1⟩ [⟨2⟩] := ⟨_, rfl, rfl, rfl⟩
    exact ⟨_, find?_eq_some_of_names (hnames.mono h)⟩
  · have hnames : surveyed.Names ⟨1⟩ ⟨1⟩ [⟨3⟩] := ⟨_, rfl, rfl, rfl⟩
    exact ⟨_, find?_eq_some_of_names (hnames.mono h)⟩

theorem accessible_respectsKinds : accessible.RespectsKinds landscape := by
  simp only [accessible, Lifted.Goal.RespectsKinds, Lifted.Goal.RespectKinds]
  exact ⟨rfl, ⟨trivial, Or.inr (by decide +kernel), trivial⟩, trivial⟩

theorem accessible_hasVariables {s : State} (h : surveyed.Creates s) :
    accessible.HasVariables landscape s.vars [⟨2⟩] := by
  simp only [accessible, Lifted.Goal.HasVariables, Lifted.Goal.HaveVariables]
  intro more hmore more' hmore'
  refine ⟨Or.inl (by decide +kernel), ⟨trivial, fun q hq => ?_, trivial⟩, trivial⟩
  rcases List.mem_append.mp hq with hq | hq
  · rw [Expression.mem_atoms_atom.mp hq]
    rcases admits_landscape hmore with rfl | rfl
    · exact Or.inr (exists_level h (Or.inl rfl))
    · exact Or.inr (exists_level h (Or.inr rfl))
  · rw [Expression.mem_atoms_atom.mp hq]
    exact Or.inr (exists_level h (Or.inl rfl))

/-- Both quantifiers can be eliminated, as roads are predicates and all levels are known. -/
theorem eliminates_accessible : ∃ g s h,
    (groundGoal landscape [⟨2⟩] accessible).run surveyed = .ok (g, s) ∧
      instantiate (Setting.ofTask landscape) s.vars [] g = .ok (some h) ∧ h.IsPlain ∧
      ∀ (x : Grounded.Situations Float) (time : TimePoint), h.Holds x time ↔
        accessible.Holds landscape (fun t => s.vars.situation landscape (x t)) time [⟨2⟩] := by
  have hcheck : landscape.checkGoal "" [(⟨2⟩ : ObjectId)].length accessible = .ok () := by
    decide +kernel
  obtain ⟨g, s, hrun, hcreates, h⟩ :=
    groundGoal_eliminates surveyed_isTyped hcheck accessible_respectsKinds
  obtain ⟨h, hinstance, hplain, hholds⟩ := h (accessible_hasVariables hcreates.toCreates)
  exact ⟨g, s, h, hrun, hinstance, hplain, hholds⟩

end TemporalPlanning.Grounding
