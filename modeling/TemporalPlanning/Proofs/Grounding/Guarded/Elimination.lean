import TemporalPlanning.Proofs.Grounding.Guarded.Goals
import TemporalPlanning.Proofs.Grounding.Quantifier
/-!
Guarded elimination of quantifiers.

Eliminating quantifiers reads the types that they range over, the variables of numeric functions
that are looked up, and the names of preferences that are dropped. In a closed goal no parameter is
unbound: what a quantifier binds is put behind what is bound already, and there are as many objects
in a combination as the quantifier has parameters. So closed goals are resolved without errors, and
constraints only fail if they compare durations.
-/
set_option autoImplicit false

namespace TemporalPlanning.Lifted

mutual

/-- The goals of a constraint. -/
def Constraint.goals : Constraint → List Goal
  | .and constraints => Constraint.goalsOfList constraints
  | .universal _ constraint | .preference _ constraint => constraint.goals
  | .goalPreference _ goal => [goal]
  | .temporal _ _ goals => goals

/-- The goals of a list of constraints. -/
def Constraint.goalsOfList : List Constraint → List Goal
  | [] => []
  | constraint :: rest => constraint.goals ++ Constraint.goalsOfList rest

end

end TemporalPlanning.Lifted

namespace TemporalPlanning.Grounding

open Grounded

namespace Guarded

/-! ## Definitions -/

section Definitions

variable (setting : Setting)

/-- Every combination of objects for a list of quantified parameters. -/
def combinations : List (List TypeId) → Guarded (List (List ObjectId))
  | [] => return [[]]
  | types :: rest => do
    let objects ← objectsOf setting types
    let tails ← combinations rest
    return objects.flatMap fun object => tails.map (object :: ·)

/-- A leaf of a numeric expression under the bindings of the enclosing quantifiers. -/
def resolveQuantity (vars : VariableTable) (bindings : List ObjectId) :
    PartialQuantity → OptionT Guarded PartialQuantity
  | .number x => return .number x
  | .var v => return .var v
  | .ungrounded function arguments => do
    let objects ← (unguarded (arguments.mapM (resolve bindings)) : Guarded _)
    let var ← OptionT.mk (pure (vars.var? function objects))
    let v ← (read .variables vars.entries var.index : Guarded _)
    if v.isNumeric then return .var var else failure
  | .term t => return .term (.object (← (unguarded (resolve bindings t) : Guarded _)))

/-- The instance of a comparison, decided if both sides are numbers. -/
def instantiateCompare (vars : VariableTable) (bindings : List ObjectId)
    (comparator : Comparator) (terms : List (Expression PartialQuantity)) :
    Guarded (Option Goal) := do
  let terms? ← (terms.mapM (Expression.mapM (resolveQuantity vars bindings))).run
  match terms? with
  | none => return none
  | some [.atom (.number l), .atom (.number r)] =>
    return some (.constant (comparator.holds l r))
  | some terms => return some (.compare comparator terms)

/-- The instance of an implication, given that of its premise. -/
def implyGoal (premise : Goal) (conclusion : Unit → Guarded (Option Goal)) :
    Guarded (Option Goal) :=
  match premise with
  | .constant false => return some (.constant true)
  | .constant true => conclusion ()
  | premise => do
    match ← conclusion () with
    | none => return none
    | some (.constant true) => return some (.constant true)
    | some (.constant false) => return some (.not premise)
    | some conclusion => return some (.or [.not premise, conclusion])

/-- The conjunction or disjunction of the instances of a goal. -/
def instantiateOver (conjunction : Bool) (instantiate : List ObjectId → Guarded (Option Goal)) :
    List (List ObjectId) → Bool → List Goal → Guarded (Option Goal)
  | [], unresolved, terms =>
    return if unresolved then none else some (combineGoals conjunction terms)
  | combination :: rest, unresolved, terms => do
    match ← instantiate combination with
    | none => instantiateOver conjunction instantiate rest unresolved terms
    | some (.constant holds) =>
      if holds != conjunction then return some (.constant holds)
      else instantiateOver conjunction instantiate rest false terms
    | some goal => instantiateOver conjunction instantiate rest false (terms ++ [goal])

mutual

/-- Replaces quantifiers and symbolic terms under the bindings of the enclosing quantifiers, and
simplifies. -/
def instantiate (vars : VariableTable) (bindings : List ObjectId) : Goal → Guarded (Option Goal)
  | .fluent var value equal => return some (.fluent var value equal)
  | .constant holds => return some (.constant holds)
  | .ungroundedFluent function arguments value equal =>
    unguarded (instantiateFluent setting vars bindings function arguments value equal)
  | .and goals => instantiateAll vars bindings true goals []
  | .or goals => instantiateAll vars bindings false goals []
  | .not goal => do
    match ← instantiate vars bindings goal with
    | none => return none
    | some (.constant holds) => return some (.constant (!holds))
    | some goal => return some (.not goal)
  | .imply premise conclusion => do
    match ← instantiate vars bindings premise with
    | none => return none
    | some premise => implyGoal premise fun _ => instantiate vars bindings conclusion
  | .existential types goal => do
    let instances ← combinations setting types
    instantiateOver false (fun c => instantiate vars (bindings ++ c) goal) instances
      (!instances.isEmpty) []
  | .universal types goal => do
    let instances ← combinations setting types
    instantiateOver true (fun c => instantiate vars (bindings ++ c) goal) instances
      (!instances.isEmpty) []
  | .equality equal left right =>
    unguarded do
      let left ← resolve bindings left
      let right ← resolve bindings right
      return some (.constant ((left == right) == equal))
  | .compare comparator terms => instantiateCompare vars bindings comparator terms
  | .timed time goal => do
    match ← instantiate vars bindings goal with
    | none => return none
    | some (.constant holds) => return some (.constant holds)
    | some goal => return some (.timed time goal)

/-- The conjunction or disjunction of a list of goals, of which `terms` are the ones already
looked at that are left open. -/
def instantiateAll (vars : VariableTable) (bindings : List ObjectId) (conjunction : Bool) :
    List Goal → List Goal → Guarded (Option Goal)
  | [], terms => return some (combineGoals conjunction terms)
  | goal :: rest, terms => do
    match ← instantiate vars bindings goal with
    | none => return none
    | some (.constant holds) =>
      if holds != conjunction then return some (.constant holds)
      else instantiateAll vars bindings conjunction rest terms
    | some goal => instantiateAll vars bindings conjunction rest (terms ++ [goal])

end

/-- The results of a step for a list, as far as they exist. -/
def collect {α β : Type} (f : α → Step (Option β)) : List α → Step (List β)
  | [] => return []
  | a :: rest => do
    match ← f a with
    | some b => return b :: (← collect f rest)
    | none => collect f rest

/-- The results of a step for a list, up to the first one that does not exist. -/
def collectAll {α β : Type} (f : α → Step (Option β)) : List α → Step (Option (List β))
  | [] => return some []
  | a :: rest => do
    match ← f a with
    | some b => return (← collectAll f rest).map (b :: ·)
    | none => return none

/-- Eliminates the quantifiers of a preference. One that cannot be resolved is dropped, which is
reported with its name. -/
def resolvePreference (p : Preference) : Step (Option Preference) := do
  let state ← get
  match ← (instantiate setting state.vars [] p.goal : Guarded _) with
  | some goal => return some { p with goal }
  | none => do
    let _ ← (read .preferenceNames state.preferenceNames.entries p.nameIndex : Guarded _)
    return none

/-- Eliminates the quantifiers in the preferences of an action. -/
def resolveAction (action : Action) : Step Action := do
  return { action with preferences := ← collect (resolvePreference setting) action.preferences }

/-- Grounds a goal of a constraint and eliminates its quantifiers. -/
def groundConstraintGoal (arguments : List ObjectId) (goal : Lifted.Goal) :
    Step (Option Goal) := do
  let goal ← report (groundGoal setting.task arguments goal)
  let state ← get
  (instantiate setting state.vars [] goal : Guarded _)

mutual

/-- Grounds a constraint; an unresolved one comes to nothing. -/
def groundConstraint (arguments : List ObjectId) : Lifted.Constraint → Step (Option Constraint)
  | .and constraints => do
    match ← groundConstraints arguments constraints with
    | none => return none
    | some [constraint] => return some constraint
    | some constraints => return some (.and constraints)
  | .universal parameters constraint => do
    let instances ← (combinations setting (parameters.map (·.types)) : Guarded _)
    let constraints ← collect (fun c => groundConstraint (arguments ++ c) constraint) instances
    return combineConstraints constraints
  | .preference name constraint => do
    let nameIndex ← report (preferenceIndex name)
    return (← groundConstraint arguments constraint).map (.preference nameIndex)
  | .goalPreference name goal => do
    let nameIndex ← report (preferenceIndex name)
    return (← groundConstraintGoal setting arguments goal).map (.goalPreference nameIndex)
  | .temporal modality times goals => do
    return (← collectAll (groundConstraintGoal setting arguments) goals).map
      (.temporal modality times)

/-- Grounds a list of constraints up to the first one that is unresolved. -/
def groundConstraints (arguments : List ObjectId) :
    List Lifted.Constraint → Step (Option (List Constraint))
  | [] => return some []
  | constraint :: rest => do
    match ← groundConstraint arguments constraint with
    | none => return none
    | some constraint => return (← groundConstraints arguments rest).map (constraint :: ·)

end

end Definitions

/-! ## Terms and leaves -/

section Leaves

variable {task : Lifted.Task} {vars : VariableTable} {bindings : List ObjectId}
  {E : Error → Prop}

/-- Closed terms are resolved. -/
theorem exists_resolve_of_isClosed {t : PartialTerm} (h : t.IsClosed bindings.length) :
    ∃ o, resolve bindings t = .ok o := by
  cases t with
  | object o => exact ⟨o, rfl⟩
  | quantified i =>
    have hi : i < bindings.length := h
    refine ⟨bindings[i], ?_⟩
    rw [resolve, List.getElem?_eq_getElem hi]

theorem exists_resolves_of_areClosed {ts : List PartialTerm}
    (h : ∀ t ∈ ts, t.IsClosed bindings.length) :
    ∃ os, ts.mapM (resolve bindings) = .ok os := by
  induction ts with
  | nil => exact ⟨[], rfl⟩
  | cons t ts ih =>
    obtain ⟨ht, hts⟩ := List.forall_mem_cons.mp h
    obtain ⟨o, ho⟩ := exists_resolve_of_isClosed ht
    obtain ⟨os, hos⟩ := ih hts
    refine ⟨o :: os, ?_⟩
    rw [List.mapM_cons, ho, hos]
    rfl

theorem combinations_eq_ok (htypes : task.HasClosedTypes) {types : List (List TypeId)}
    (h : ∀ ts ∈ types, task.HasTypes ts) :
    combinations (Setting.ofTask task) types =
      .ok (Grounding.combinations (Setting.ofTask task) types) := by
  induction types with
  | nil => rfl
  | cons ts types ih =>
    obtain ⟨hts, hrest⟩ := List.forall_mem_cons.mp h
    rw [combinations, objectsOf_eq_ok htypes hts, ih hrest]
    rfl

/-- What is found in the table is in the table. -/
theorem exists_read_var {f : FunctionId} {os : List ObjectId} {var : VarId}
    (h : vars.var? f os = some var) : ∃ v, vars.get? var.index = some v ∧
      read .variables vars.entries var.index = .ok v := by
  obtain ⟨i, hi, rfl⟩ := Option.map_eq_some_iff.mp h
  obtain ⟨v, hv, -⟩ := Option.map_eq_some_iff.mp ((vars.find?_eq_some_iff _ i).mp hi)
  exact ⟨v, hv, read_eq_ok hv⟩

theorem resolveQuantity_mirrors {q : PartialQuantity} (h : q.IsClosed bindings.length) :
    Mirrors E (resolveQuantity vars bindings q).run
      (Grounding.resolveQuantity vars bindings q).run := by
  cases q with
  | number x => exact .ok _
  | var v => exact .ok _
  | term t =>
    obtain ⟨o, ho⟩ := exists_resolve_of_isClosed h
    rw [resolveQuantity, Grounding.resolveQuantity, ho]
    exact .ok _
  | ungrounded f ts =>
    obtain ⟨os, hos⟩ := exists_resolves_of_areClosed h
    rw [resolveQuantity, Grounding.resolveQuantity, hos]
    refine mirrors_residue_bind (.ok _) fun os' hos' => ?_
    cases hos'
    refine mirrors_residue_bind (.ok (vars.var? f os)) fun var hvar => ?_
    obtain ⟨v, hv, hread⟩ := exists_read_var (Except.ok.inj hvar)
    rw [run_bind_of_eq_ok hread, hv]
    dsimp only
    split
    · exact .ok _
    · exact .ok none

theorem instantiateCompare_mirrors {comparator : Comparator}
    {terms : List (Expression PartialQuantity)}
    (h : ∀ e ∈ terms, ∀ q ∈ e.atoms, q.IsClosed bindings.length) :
    Mirrors E (instantiateCompare vars bindings comparator terms)
      (Grounding.instantiateCompare vars bindings comparator terms) := by
  refine Mirrors.bind (mirrors_residue_mapM fun e he => ?_) fun terms? _ => ?_
  · refine mirrors_foldM (fun _ _ _ => .ok _) fun q hq => ?_
    rw [map_eq_pure_bind, map_eq_pure_bind]
    exact mirrors_residue_bind (resolveQuantity_mirrors (h e he q hq)) fun _ _ => .ok _
  · rcases terms? with _ | terms'
    · exact .ok none
    -- whether there are two numbers decides both
    · rcases terms' with _ | ⟨(_ | _ | _ | _) | _, _ | ⟨(_ | _ | _ | _) | _, _ | ⟨_, _⟩⟩⟩ <;>
        exact .ok _

end Leaves

/-! ## Goals -/

section Goals

variable {task : Lifted.Task} {vars : VariableTable} {E : Error → Prop}

theorem implyGoal_mirrors (premise : Goal) {c : Unit → Guarded (Option Goal)}
    {conclusion : Unit → Except Error (Option Goal)} (h : Mirrors E (c ()) (conclusion ())) :
    Mirrors E (implyGoal premise c) (Grounding.implyGoal premise conclusion) := by
  cases premise with
  | constant holds =>
    cases holds
    · exact .ok _
    · exact h
  | _ =>
    refine h.bind fun g? _ => ?_
    rcases g? with _ | g
    · exact .ok none
    · cases g with
      | constant holds => cases holds <;> exact .ok _
      | _ => exact .ok _

theorem instantiateOver_mirrors {conjunction : Bool} {c : List ObjectId → Guarded (Option Goal)}
    {f : List ObjectId → Except Error (Option Goal)} {instances : List (List ObjectId)}
    (h : ∀ os ∈ instances, Mirrors E (c os) (f os)) {unresolved : Bool} {terms : List Goal} :
    Mirrors E (instantiateOver conjunction c instances unresolved terms)
      (Grounding.instantiateOver conjunction f instances unresolved terms) := by
  induction instances generalizing unresolved terms with
  | nil => exact .ok _
  | cons os instances ih =>
    obtain ⟨hos, hrest⟩ := List.forall_mem_cons.mp h
    rw [instantiateOver, Grounding.instantiateOver]
    refine hos.bind fun g? _ => ?_
    rcases g? with _ | g
    · exact ih hrest
    · cases g with
      | constant holds =>
        dsimp only
        split
        · exact .ok _
        · exact ih hrest
      | _ => exact ih hrest

mutual

/-- **Closed goals are resolved without errors**, and without reading what is not there. -/
theorem instantiate_mirrors (htypes : task.HasClosedTypes) :
    ∀ (g : Goal) (bindings : List ObjectId), g.IsClosed task bindings.length →
      Mirrors E (instantiate (Setting.ofTask task) vars bindings g)
        (Grounding.instantiate (Setting.ofTask task) vars bindings g)
  | .fluent v o equal, bindings, _ => by
    rw [instantiate, Grounding.instantiate]
    exact .ok _
  | .constant holds, bindings, _ => by
    rw [instantiate, Grounding.instantiate]
    exact .ok _
  | .ungroundedFluent f arguments value equal, bindings, h => by
    rw [Goal.IsClosed] at h
    obtain ⟨os, hos⟩ := exists_resolves_of_areClosed h.1
    obtain ⟨o, ho⟩ := exists_resolve_of_isClosed h.2
    rw [instantiate, Grounding.instantiate, instantiateFluent, hos, ho]
    refine mirrors_unguarded fun e he => ?_
    -- with all terms resolved, the variable is there or it is not
    dsimp only [Bind.bind, Except.bind] at he
    split at he
    · cases he
    · split at he <;> cases he
  | .and gs, bindings, h | .or gs, bindings, h => by
    rw [instantiate, Grounding.instantiate]
    rw [Goal.IsClosed] at h
    exact instantiateAll_mirrors htypes gs bindings [] h
  | .not g, bindings, h | .timed _ g, bindings, h => by
    rw [instantiate, Grounding.instantiate]
    rw [Goal.IsClosed] at h
    refine (instantiate_mirrors htypes g bindings h).bind fun g? _ => ?_
    rcases g? with _ | g'
    · exact .ok none
    · cases g' <;> exact .ok _
  | .imply premise conclusion, bindings, h => by
    rw [instantiate, Grounding.instantiate]
    rw [Goal.IsClosed] at h
    refine (instantiate_mirrors htypes premise bindings h.1).bind fun g? _ => ?_
    cases g? with
    | none => exact .ok none
    | some premise' =>
      exact implyGoal_mirrors _ (instantiate_mirrors htypes conclusion bindings h.2)
  | .existential types g, bindings, h | .universal types g, bindings, h => by
    rw [Goal.IsClosed] at h
    rw [instantiate, Grounding.instantiate, combinations_eq_ok htypes h.1]
    refine instantiateOver_mirrors fun os hos => instantiate_mirrors htypes g (bindings ++ os) ?_
    -- a combination has an object for each parameter
    rw [List.length_append, ← (mem_combinations.mp hos).length_eq]
    exact h.2
  | .equality equal left right, bindings, h => by
    rw [Goal.IsClosed] at h
    obtain ⟨l, hl⟩ := exists_resolve_of_isClosed h.1
    obtain ⟨r, hr⟩ := exists_resolve_of_isClosed h.2
    rw [instantiate, Grounding.instantiate, hl, hr]
    exact .ok _
  | .compare comparator terms, bindings, h => by
    rw [instantiate, Grounding.instantiate]
    rw [Goal.IsClosed] at h
    exact instantiateCompare_mirrors h

theorem instantiateAll_mirrors (htypes : task.HasClosedTypes) {conjunction : Bool} :
    ∀ (gs : List Goal) (bindings : List ObjectId) (terms : List Goal),
      Goal.AreClosed task bindings.length gs →
        Mirrors E (instantiateAll (Setting.ofTask task) vars bindings conjunction gs terms)
          (Grounding.instantiateAll (Setting.ofTask task) vars bindings conjunction gs terms)
  | [], bindings, terms, _ => by
    rw [instantiateAll, Grounding.instantiateAll]
    exact .ok _
  | g :: gs, bindings, terms, h => by
    rw [instantiateAll, Grounding.instantiateAll]
    refine (instantiate_mirrors htypes g bindings h.1).bind fun g? _ => ?_
    rcases g? with _ | g'
    · exact .ok none
    · cases g' with
      | constant holds =>
        dsimp only
        split
        · exact .ok _
        · exact instantiateAll_mirrors htypes gs bindings terms h.2
      | _ => exact instantiateAll_mirrors htypes gs bindings _ h.2

end

end Goals

/-! ## Preferences -/

section Collecting

variable {α β : Type} {E : Error → Prop} {I : State → Prop} {s : State}
  {c : α → Step (Option β)} {f : α → Grounding.Step (Option β)} {as : List α}

theorem guards_collect
    (h : ∀ a ∈ as, ∀ s, I s → Guards E s (c a) (f a) fun _ s' => I s') (hs : I s) :
    Guards E s (collect c as) (Grounding.collect f as) fun _ s' => I s' := by
  induction as generalizing s with
  | nil => exact guards_pure hs
  | cons a as ih =>
    obtain ⟨ha, has⟩ := List.forall_mem_cons.mp h
    rw [collect, Grounding.collect]
    refine (ha s hs).bind fun b? s' hs' => ?_
    cases b? with
    | none => exact ih has hs'
    | some b => exact (ih has hs').bind fun bs s'' hs'' => guards_pure hs''

theorem guards_collectAll
    (h : ∀ a ∈ as, ∀ s, I s → Guards E s (c a) (f a) fun _ s' => I s') (hs : I s) :
    Guards E s (collectAll c as) (Grounding.collectAll f as) fun _ s' => I s' := by
  induction as generalizing s with
  | nil => exact guards_pure hs
  | cons a as ih =>
    obtain ⟨ha, has⟩ := List.forall_mem_cons.mp h
    rw [collectAll, Grounding.collectAll]
    refine (ha s hs).bind fun b? s' hs' => ?_
    cases b? with
    | none => exact guards_pure hs'
    | some b => exact (ih has hs').bind fun bs s'' hs'' => guards_pure hs''

end Collecting

section Preferences

variable {task : Lifted.Task} {E : Error → Prop} {s : State}

/-- Preferences with closed goals and known names are resolved without errors. -/
theorem guards_resolveAction (htypes : task.HasClosedTypes) {a : Action}
    (hclosed : ∀ q ∈ a.preferences, q.goal.IsClosed task 0)
    (hnames : ∀ q ∈ a.preferences, ∃ name, s.preferenceNames.get? q.nameIndex = some name) :
    Guards E s (resolveAction (Setting.ofTask task) a)
      (Grounding.resolveAction (Setting.ofTask task) a) fun _ s' => s' = s := by
  refine Guards.bind (Q := fun _ s' => s' = s) (guards_collect (fun q hq s' hs' => ?_) rfl)
    fun _ s' hs' => guards_pure hs'
  subst hs'
  refine guards_get_bind ((guards_lift (Q := fun _ s'' => s'' = s')
    (instantiate_mirrors htypes q.goal [] (hclosed q hq)) fun _ _ => rfl).bind ?_)
  rintro goal? _ rfl
  cases goal? with
  | some goal => exact guards_pure rfl
  | none =>
    obtain ⟨name, hname⟩ := hnames q hq
    exact guards_bind_of_eq_ok (read_eq_ok hname) (guards_pure rfl)

end Preferences

/-! ## Constraints -/

section Constraints

variable {p : Lifted.Problem} {E : Error → Prop} {s : State}

theorem guards_groundConstraintGoal (htypes : p.task.HasClosedTypes) {arguments : List ObjectId}
    {context : String} (hobjects : ∀ o ∈ arguments, o.index < p.task.objects.size)
    {g : Lifted.Goal} (hcheck : p.task.checkGoal context arguments.length g = .ok ())
    (hE : g.ReadsDuration → E (.invalidTask .durationInGoal)) (hs : s.HasSortedVariables p.task) :
    Guards E s (groundConstraintGoal (Setting.ofTask p.task) arguments g)
      (Grounding.groundConstraintGoal (Setting.ofTask p.task) arguments g)
      fun _ s' => s'.HasSortedVariables p.task := by
  have hsafe : (groundGoal p.task arguments g).Safe E (·.HasSortedVariables p.task)
      (Goal.IsClosed p.task 0) :=
    groundGoal_safe hobjects g 0 hcheck fun q hq hduration => hE ⟨q, hq, hduration⟩
  refine (guards_safe hsafe hs).bind fun g' s' ⟨hs', hg'⟩ => guards_get_bind ?_
  exact guards_lift (instantiate_mirrors htypes g' [] hg') fun _ _ => hs'

mutual

/-- **Valid constraints are grounded** without reading what is not there. -/
theorem guards_groundConstraint (htypes : p.task.HasClosedTypes) :
    ∀ (c : Lifted.Constraint) (arguments : List ObjectId) (s : State),
      (∀ o ∈ arguments, o.index < p.task.objects.size) →
        p.task.checkConstraint arguments.length c = .ok () →
          (∀ g ∈ c.goals, g.ReadsDuration → E (.invalidTask .durationInGoal)) →
            s.HasSortedVariables p.task →
              Guards E s (groundConstraint (Setting.ofTask p.task) arguments c)
                (Grounding.groundConstraint (Setting.ofTask p.task) arguments c)
                fun _ s' => s'.HasSortedVariables p.task
  | .and cs, arguments, s, hobjects, hcheck, hE, hs => by
    rw [groundConstraint, Grounding.groundConstraint]
    rw [Lifted.Constraint.goals] at hE
    rw [Lifted.Task.checkConstraint] at hcheck
    refine (guards_groundConstraints htypes cs arguments s hobjects hcheck hE hs).bind
      fun cs? s' hs' => ?_
    rcases cs? with _ | _ | ⟨c, _ | ⟨d, rest⟩⟩ <;> exact guards_pure hs'
  | .universal ps c, arguments, s, hobjects, hcheck, hE, hs => by
    rw [groundConstraint, Grounding.groundConstraint]
    rw [Lifted.Constraint.goals] at hE
    rw [Lifted.Task.checkConstraint] at hcheck
    obtain ⟨hparameters, hc⟩ := check_bind_eq_ok.mp hcheck
    have hranges : ∀ ts ∈ ps.map (·.types), p.task.HasTypes ts := List.forall_mem_map.mpr
      fun q hq => hasTypes_of_check (check_forM_eq_ok hparameters q hq)
    refine guards_bind_of_eq_ok (combinations_eq_ok htypes hranges) ?_
    refine Guards.bind (Q := fun _ s' => s'.HasSortedVariables p.task)
      (guards_collect (fun os hos s' hs' => ?_) hs) fun cs s' hs' => guards_pure hs'
    -- a combination has an object of the table for each parameter
    refine guards_groundConstraint htypes c (arguments ++ os) s' (fun o ho => ?_) ?_ hE hs'
    · rcases List.mem_append.mp ho with ho | ho
      · exact hobjects o ho
      · exact lt_size_of_mem_combinations hos o ho
    · rw [List.length_append, ← (mem_combinations.mp hos).length_eq, List.length_map]
      exact hc
  | .preference name c, arguments, s, hobjects, hcheck, hE, hs => by
    rw [groundConstraint, Grounding.groundConstraint]
    rw [Lifted.Constraint.goals] at hE
    rw [Lifted.Task.checkConstraint] at hcheck
    refine (guards_safe (preferenceIndex_safe name) hs).bind fun i s₁ ⟨hs₁, _⟩ => ?_
    exact (guards_groundConstraint htypes c arguments s₁ hobjects hcheck hE hs₁).bind
      fun c? s₂ hs₂ => guards_pure hs₂
  | .goalPreference name g, arguments, s, hobjects, hcheck, hE, hs => by
    rw [groundConstraint, Grounding.groundConstraint]
    rw [Lifted.Constraint.goals] at hE
    rw [Lifted.Task.checkConstraint] at hcheck
    refine (guards_safe (preferenceIndex_safe name) hs).bind fun i s₁ ⟨hs₁, _⟩ => ?_
    exact (guards_groundConstraintGoal htypes hobjects hcheck
      (hE g (List.mem_singleton_self g)) hs₁).bind fun g? s₂ hs₂ => guards_pure hs₂
  | .temporal modality times gs, arguments, s, hobjects, hcheck, hE, hs => by
    rw [groundConstraint, Grounding.groundConstraint]
    rw [Lifted.Constraint.goals] at hE
    rw [Lifted.Task.checkConstraint] at hcheck
    have hgoals := check_forM_eq_ok (check_bind_eq_ok.mp hcheck).2
    exact (guards_collectAll (fun g hg s' hs' => guards_groundConstraintGoal htypes hobjects
      (hgoals g hg) (hE g hg) hs') hs).bind fun gs? s' hs' => guards_pure hs'

theorem guards_groundConstraints (htypes : p.task.HasClosedTypes) :
    ∀ (cs : List Lifted.Constraint) (arguments : List ObjectId) (s : State),
      (∀ o ∈ arguments, o.index < p.task.objects.size) →
        p.task.checkConstraints arguments.length cs = .ok () →
          (∀ g ∈ Lifted.Constraint.goalsOfList cs,
            g.ReadsDuration → E (.invalidTask .durationInGoal)) →
            s.HasSortedVariables p.task →
              Guards E s (groundConstraints (Setting.ofTask p.task) arguments cs)
                (Grounding.groundConstraints (Setting.ofTask p.task) arguments cs)
                fun _ s' => s'.HasSortedVariables p.task
  | [], arguments, s, _, _, _, hs => by
    rw [groundConstraints, Grounding.groundConstraints]
    exact guards_pure hs
  | c :: cs, arguments, s, hobjects, hcheck, hE, hs => by
    rw [groundConstraints, Grounding.groundConstraints]
    rw [Lifted.Constraint.goalsOfList] at hE
    rw [Lifted.Task.checkConstraints] at hcheck
    obtain ⟨hc, hcs⟩ := check_bind_eq_ok.mp hcheck
    refine (guards_groundConstraint htypes c arguments s hobjects hc
      (fun g hg => hE g (List.mem_append_left _ hg)) hs).bind fun c? s₁ hs₁ => ?_
    cases c? with
    | none => exact guards_pure hs₁
    | some c' =>
      exact (guards_groundConstraints htypes cs arguments s₁ hobjects hcs
        (fun g hg => hE g (List.mem_append_right _ hg)) hs₁).bind fun cs? s₂ hs₂ => guards_pure hs₂

end

end Constraints

end Guarded

end TemporalPlanning.Grounding
