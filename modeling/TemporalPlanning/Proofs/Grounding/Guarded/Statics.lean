import TemporalPlanning.Proofs.Grounding.Guarded.Lookups
import TemporalPlanning.Proofs.Grounding.Statics
/-!
Guarded removal of static variables.

A pass reads what is known about each variable and what stands for the variables that actions,
goals, constraints and the metric refer to. All of these are variables of the task, and there is an
entry for each of them. What is left refers to the variables that remain, so the next pass finds
what it reads as well. The only errors come from constant expressions, which are evaluated.
-/
set_option autoImplicit false

namespace TemporalPlanning.Grounding

open Grounded

namespace Guarded

/-! ## Definitions -/

section Tables

/-- Marks a variable. -/
def mark (marks : Array Bool) (var : VarId) : Guarded (Array Bool) := do
  let _ ← read .marks marks var.index
  return Grounding.mark marks var

/-- For every variable, whether an action writes it. -/
def writtenVariables (t : Task) : Guarded (Array Bool) :=
  t.actions.foldlM
    (fun marks action =>
      (action.effects.map (·.var) ++ action.numericEffects.map (·.var)).foldlM mark marks)
    (Array.replicate t.vars.size false)

/-- The constancy of every variable. -/
def constancies (t : Task) : Guarded (Array Constancy) := do
  let written ← writtenVariables t
  let entries ← t.vars.toList.zipIdx.mapM fun (v, i) => do
    return constancyOf t.task (← read .marks written i) v
  return entries.toArray

/-- The old positions of the remaining variables in their new order. -/
def remaining (vars : Array Variable) (constancies : Array Constancy) : Guarded (List Nat) := do
  (List.range vars.size).forM fun i => discard (read .constancies constancies i)
  return Grounding.remaining vars constancies

/-- What stands for every variable. -/
def replacements (constancies : Array Constancy) (remaining : List Nat) :
    Guarded (Array Replacement) :=
  remaining.zipIdx.foldlM
    (fun replaced (old, new) => do
      let _ ← read .replacements replaced old
      return replaced.setIfInBounds old (.renumbered ⟨new⟩))
    (constancies.map Constancy.replacement)

/-- The remaining variables in their new order. -/
def remainingVariables (vars : Array Variable) (remaining : List Nat) :
    Guarded (Array Variable) := do
  let entries ← remaining.zipIdx.mapM fun (old, new) => do
    return { ← read .variables vars old with index := ⟨new⟩ }
  return entries.toArray

end Tables

/-- What is left of a construct, if anything is. -/
abbrev Residue := OptionT Guarded

section Substitution

variable (replaced : Array Replacement)

/-- What stands for a variable. -/
def lookup (var : VarId) : Guarded Replacement := read .replacements replaced var.index

/-- An operation on numbers only is replaced by its value. -/
def foldConstants (op : Operation) (operands : List (Expression Quantity)) :
    Residue (Expression Quantity) := do
  let e := Expression.node op operands
  match ← OptionT.lift (unguarded (evaluate none e)) with
  | some value => return .atom (.number value)
  | none => return e

/-- A leaf of an expression. -/
def substituteQuantity : Quantity → Residue (Expression Quantity)
  | .var v => do
    match ← (lookup replaced v : Guarded _) with
    | .renumbered v => return .atom (.var v)
    | .fixed (.number x) => return .atom (.number x)
    | .fixed (.object o) => return .atom (.object o)
    | .missing => failure
  | q => return .atom q

/-- An expression; constant parts of it are evaluated. -/
def substituteExpression (e : Expression Quantity) : Residue (Expression Quantity) :=
  e.foldM (substituteQuantity replaced) fun op _ operands => foldConstants op operands

/-- An operation of a goal on numbers only is replaced by its value. -/
def foldPartialConstants (op : Operation) (operands : List (Expression PartialQuantity)) :
    Residue (Expression PartialQuantity) := do
  let e := Expression.node op operands
  match constant? e with
  | none => return e
  | some c =>
    match ← OptionT.lift (unguarded (evaluate none c)) with
    | some value => return .atom (.number value)
    | none => return e

/-- A leaf of an expression of a goal. -/
def substitutePartialQuantity : PartialQuantity → Residue (Expression PartialQuantity)
  | .var v => do
    match ← (lookup replaced v : Guarded _) with
    | .renumbered v => return .atom (.var v)
    | .fixed (.number x) => return .atom (.number x)
    | .fixed (.object o) => return .atom (.term (.object o))
    | .missing => failure
  | q => return .atom q

/-- An expression of a goal; constant parts of it are evaluated. -/
def substitutePartialExpression (e : Expression PartialQuantity) :
    Residue (Expression PartialQuantity) :=
  e.foldM (substitutePartialQuantity replaced) fun op _ operands => foldPartialConstants op operands

mutual

/-- A goal. Atoms on fixed variables are decided; connectives stay as they are. -/
def substituteGoal : Goal → Residue Goal
  | .fluent var value equal => do
    match ← (lookup replaced var : Guarded _) with
    | .renumbered var => return .fluent var value equal
    | .fixed (.object o) => return .constant ((o == value) == equal)
    | .fixed (.number _) | .missing => failure
  | .and goals => do return .and (← substituteGoals goals)
  | .or goals => do return .or (← substituteGoals goals)
  | .not goal => do return .not (← substituteGoal goal)
  | .timed time goal => do return .timed time (← substituteGoal goal)
  | .existential types goal => do return .existential types (← substituteGoal goal)
  | .universal types goal => do return .universal types (← substituteGoal goal)
  | .imply premise conclusion => do
    let premise ← substituteGoal premise
    let conclusion ← substituteGoal conclusion
    return .imply premise conclusion
  | .compare comparator terms => do
    return .compare comparator (← terms.mapM (substitutePartialExpression replaced))
  | .ungroundedFluent function arguments value equal =>
    return .ungroundedFluent function arguments value equal
  | .equality equal left right => return .equality equal left right
  | .constant holds => return .constant holds

/-- A list of goals. -/
def substituteGoals : List Goal → Residue (List Goal)
  | [] => return []
  | goal :: rest => do
    let goal ← substituteGoal goal
    let rest ← substituteGoals rest
    return goal :: rest

end

mutual

/-- A constraint. -/
def substituteConstraint : Constraint → Residue Constraint
  | .and constraints => do return .and (← substituteConstraints constraints)
  | .preference nameIndex constraint => do
    return .preference nameIndex (← substituteConstraint constraint)
  | .goalPreference nameIndex goal => do
    return .goalPreference nameIndex (← substituteGoal replaced goal)
  | .temporal modality times goals => do
    return .temporal modality times (← goals.mapM (substituteGoal replaced))

/-- A list of constraints. -/
def substituteConstraints : List Constraint → Residue (List Constraint)
  | [] => return []
  | constraint :: rest => do
    let constraint ← substituteConstraint constraint
    let rest ← substituteConstraints rest
    return constraint :: rest

end

/-- A leaf of the metric. -/
def substituteMeasure : Measure → Guarded Measure
  | .var v => do
    match ← lookup replaced v with
    | .renumbered v => return .var v
    | .fixed (.number x) => return .number x
    | .fixed (.object _) | .missing => return .number 0.0
  | m => return m

/-- The metric. -/
def substituteMetric (metric : Metric) : Guarded Metric := do
  return { metric with expression := ← metric.expression.mapM (substituteMeasure replaced) }

/-- Literal conditions or effects. -/
def substituteConditions : List Condition → Residue (List Condition)
  | [] => return []
  | c :: rest => do
    match ← (lookup replaced c.var : Guarded _) with
    | .renumbered var => return ⟨var, c.value⟩ :: (← substituteConditions rest)
    | .fixed (.object o) => if o = c.value then substituteConditions rest else failure
    | .fixed (.number _) | .missing => failure

/-- A numeric condition. -/
def substituteNumericCondition (c : NumericCondition) : Residue NumericCondition := do
  let c := { c with terms := ← c.terms.mapM (substituteExpression replaced) }
  if c.isViolated then failure else return c

/-- A numeric effect. -/
def substituteNumericEffect (e : NumericEffect) : Residue NumericEffect := do
  match ← (lookup replaced e.var : Guarded _) with
  | .renumbered var => return ⟨e.assignment, var, ← substituteExpression replaced e.expression⟩
  | .fixed _ | .missing => failure

/-- An action. -/
def substituteAction (a : Action) : Residue Action := do
  let durations ← a.durations.mapM fun d => do
    return { d with expression := ← substituteExpression replaced d.expression }
  if hasNoDuration durations then failure
  let startConditions ← substituteConditions replaced a.startConditions
  let invariants ← substituteConditions replaced a.invariants
  let endConditions ← substituteConditions replaced a.endConditions
  let startEffects ← substituteConditions replaced a.startEffects
  let endEffects ← substituteConditions replaced a.endEffects
  let startNumericConditions ←
    a.startNumericConditions.mapM (substituteNumericCondition replaced)
  let numericInvariants ← a.numericInvariants.mapM (substituteNumericCondition replaced)
  let endNumericConditions ← a.endNumericConditions.mapM (substituteNumericCondition replaced)
  let startNumericEffects ← a.startNumericEffects.mapM (substituteNumericEffect replaced)
  let endNumericEffects ← a.endNumericEffects.mapM (substituteNumericEffect replaced)
  let preferences ← a.preferences.mapM fun p => do
    return { p with goal := ← substituteGoal replaced p.goal }
  return { a with
    durations, startConditions, invariants, endConditions, startEffects, endEffects,
    startNumericConditions, numericInvariants, endNumericConditions, startNumericEffects,
    endNumericEffects, preferences }

end Substitution

/-- What is left of the constructs of a list. -/
def keepResidues {α : Type} (substitute : α → Residue α) : List α → Guarded (List α)
  | [] => return []
  | a :: rest => do
    match ← (substitute a).run with
    | some a => return a :: (← keepResidues substitute rest)
    | none => keepResidues substitute rest

/-- Removes the variables that are static, and tells how many there were. -/
def removeStaticPass (t : Task) : Guarded (Task × Nat) := do
  let constancies ← constancies t
  let count := (constancies.toList.filter fun c => c ≠ .changing).length
  if count = 0 then return (t, 0)
  let remaining ← remaining t.vars constancies
  let replaced ← replacements constancies remaining
  let actions ← keepResidues (substituteAction replaced) t.actions
  let goals ← keepResidues (substituteAction replaced) t.goals
  let constraints ← keepResidues (substituteConstraint replaced) t.constraints
  let metric ← t.metric.mapM (substituteMetric replaced)
  let vars ← remainingVariables t.vars remaining
  let dropped := t.actions.length + t.goals.length - actions.length - goals.length
  let result := { t with
    vars
    actions := renumber actions
    goals := renumber goals
    constraints
    metric
    stats := { t.stats with droppedActions := t.stats.droppedActions + dropped } }
  return (result, count)

/-- Repeats passes until one removes nothing. -/
def removePasses : Nat → Nat → Task → Guarded (Task × Nat)
  | 0, removed, t => return (t, removed)
  | passes + 1, removed, t => do
    let (t, count) ← removeStaticPass t
    if count = 0 then return (t, removed) else removePasses passes (removed + count) t

/-- Removes static variables until none is left. -/
def removeStatics (t : Task) : Guarded Task := do
  let (t, removed) ← removePasses (t.vars.size + 1) 0 t
  return { t with
    stats := { t.stats with staticVariables := t.stats.staticVariables + removed } }

/-! ## Tables of the variables -/

section Tables

variable {t : Task}

/-- Variables that have a mark can be marked. -/
theorem foldlM_mark_eq_ok {vs : List VarId} {marks : Array Bool}
    (h : ∀ v ∈ vs, v.index < marks.size) :
    vs.foldlM mark marks = .ok (vs.foldl Grounding.mark marks) ∧
      (vs.foldl Grounding.mark marks).size = marks.size := by
  refine foldlM_eq_ok (P := fun marks' : Array Bool => marks'.size = marks.size)
    (fun v hv marks' hmarks' => ⟨?_, ?_⟩) rfl
  · obtain ⟨_, -, hread⟩ := exists_read_eq_ok .marks (hmarks'.symm ▸ h v hv)
    exact bind_of_eq_ok hread rfl
  · rwa [Grounding.mark, Array.size_setIfInBounds]

/-- Actions write variables of the task, so all of them can be marked. -/
theorem writtenVariables_eq_ok
    (h : ∀ a ∈ t.actions, ∀ v, a.writes v = true → v.index < t.vars.size) :
    writtenVariables t = .ok (Grounding.writtenVariables t) ∧
      (Grounding.writtenVariables t).size = t.vars.size := by
  refine foldlM_eq_ok (P := fun marks : Array Bool => marks.size = t.vars.size)
    (fun a ha marks hmarks => ?_) Array.size_replicate
  have hmarked : ∀ v ∈ a.effects.map (·.var) ++ a.numericEffects.map (·.var),
      v.index < marks.size := fun v hv => hmarks.symm ▸ h a ha v ((writes_iff a v).mpr hv)
  obtain ⟨hrun, hsize⟩ := foldlM_mark_eq_ok hmarked
  exact ⟨hrun, hsize.trans hmarks⟩

/-- Every variable that an action writes is in the table, so all marks are found. -/
theorem constancies_eq_ok
    (h : ∀ a ∈ t.actions, ∀ v, a.writes v = true → v.index < t.vars.size) :
    constancies t = .ok (Grounding.constancies t) := by
  obtain ⟨hwritten, hsize⟩ := writtenVariables_eq_ok h
  refine bind_of_eq_ok hwritten (bind_of_eq_ok (mapM_eq_ok (g := fun entry =>
    constancyOf t.task ((Grounding.writtenVariables t).getD entry.2 false) entry.1) ?_) ?_)
  · rintro ⟨v, i⟩ hentry
    have hi : i < (Grounding.writtenVariables t).size := by
      have := List.snd_lt_of_mem_zipIdx hentry
      rw [Array.length_toList] at this
      omega
    refine bind_of_eq_ok (read_eq_ok (Array.getElem?_eq_getElem hi)) ?_
    rw [Array.getD_eq_getD_getElem?, Array.getElem?_eq_getElem hi]
    rfl
  · refine congrArg Except.ok (Array.ext_getElem? fun i => ?_)
    rw [Grounding.constancies, Array.getElem?_mapIdx, List.getElem?_toArray, List.getElem?_map,
      List.getElem?_zipIdx, Array.getElem?_toList]
    cases t.vars[i]? with
    | none => rfl
    | some v => simp

theorem size_constancies (t : Task) : (Grounding.constancies t).size = t.vars.size :=
  Array.size_mapIdx

/-- Constancies are read at the positions of the variables. -/
theorem remaining_eq_ok {vars : Array Variable} {cs : Array Constancy}
    (h : cs.size = vars.size) : remaining vars cs = .ok (Grounding.remaining vars cs) := by
  refine bind_of_eq_ok (forM_eq_ok fun i hi => ?_) rfl
  rw [List.mem_range, ← h] at hi
  obtain ⟨_, -, hread⟩ := exists_read_eq_ok .constancies hi
  exact bind_of_eq_ok hread rfl

/-- There is a replacement for every variable. -/
theorem replacements_eq_ok {cs : Array Constancy} {l : List Nat} (h : ∀ i ∈ l, i < cs.size) :
    replacements cs l = .ok (Grounding.replacements cs l) ∧
      (Grounding.replacements cs l).size = cs.size := by
  rw [replacements_eq]
  refine foldlM_eq_ok (P := fun replaced : Array Replacement => replaced.size = cs.size) ?_
    Array.size_map
  rintro ⟨old, new⟩ hentry replaced hreplaced
  refine ⟨?_, by rwa [Array.size_setIfInBounds]⟩
  have hold : old < replaced.size := hreplaced ▸ h old (List.fst_mem_of_mem_zipIdx hentry)
  obtain ⟨_, -, hread⟩ := exists_read_eq_ok .replacements hold
  exact bind_of_eq_ok hread rfl

theorem remainingVariables_eq_ok {vars : Array Variable} {l : List Nat}
    (h : ∀ i ∈ l, i < vars.size) :
    remainingVariables vars l = .ok (Grounding.remainingVariables vars l) := by
  refine bind_of_eq_ok (mapM_eq_ok_filterMap ?_) rfl
  rintro ⟨old, new⟩ hentry
  obtain ⟨v, hv, hread⟩ :=
    exists_read_eq_ok .variables (h old (List.fst_mem_of_mem_zipIdx hentry))
  exact ⟨_, bind_of_eq_ok hread rfl, Option.map_eq_some_iff.mpr ⟨v, hv, rfl⟩⟩

end Tables

/-! ## Constants -/

section Constants

variable {E : Error → Prop}

/-- The only errors of evaluation are divisions by zero. -/
theorem exists_of_evaluate_eq_error {duration : Option Float} {e : Expression Quantity}
    {error : Error} (h : evaluate duration e = .error error) :
    ∃ text, error = .divisionByZero text := by
  have hmirrors : Mirrors (fun error => ∃ text, error = .divisionByZero text)
      (e.foldM (fun q => OptionT.mk (pure (q.value? duration))) fun op operands values =>
        OptionT.lift (unguarded (Expression.combine Quantity.form op operands values))).run
      (evaluate duration e) := by
    refine mirrors_foldM (fun op operands values => ?_) fun q _ => .ok (q.value? duration)
    refine mirrors_residue_lift (mirrors_unguarded fun error herror => ?_)
    rw [Expression.combine] at herror
    split at herror <;> cases herror
    exact ⟨_, rfl⟩
  exact hmirrors.of_eq_error h

/-- Whatever is reported when a constant expression is evaluated is foreseen. -/
def ForeseesConstants (E : Error → Prop) : Prop :=
  ∀ e error, evaluate none e = .error error → E error

variable (hE : ForeseesConstants E)
include hE

/-- Folding reads no table, so it can only fail as evaluation does. -/
theorem foldConstants_mirrors (op : Operation) (operands : List (Expression Quantity)) :
    Mirrors E (foldConstants op operands).run (Grounding.foldConstants op operands).run := by
  refine mirrors_residue_bind (mirrors_residue_lift (mirrors_unguarded (hE _))) fun value? _ => ?_
  cases value? with
  | none => exact .ok _
  | some value => exact .ok _

theorem foldPartialConstants_mirrors (op : Operation)
    (operands : List (Expression PartialQuantity)) :
    Mirrors E (foldPartialConstants op operands).run
      (Grounding.foldPartialConstants op operands).run := by
  rw [foldPartialConstants, Grounding.foldPartialConstants]
  cases constant? (.node op operands) with
  | none => exact .ok _
  | some c =>
    refine mirrors_residue_bind (mirrors_residue_lift (mirrors_unguarded (hE _))) fun value? _ => ?_
    cases value? with
    | none => exact .ok _
    | some value => exact .ok _

end Constants

/-! ## Substitution -/

section Substitution

/-- Something stands for every variable of a scope. -/
def Covers (replaced : Array Replacement) (S : Scope) : Prop :=
  ∀ v, S.var v → v.index < replaced.size

variable {S : Scope} {replaced : Array Replacement} {E : Error → Prop}
  (hvars : Covers replaced S)
include hvars

/-- A variable in scope has a replacement. -/
theorem lookup_eq_ok {v : VarId} (h : S.var v) :
    lookup replaced v = .ok (Grounding.lookup replaced v) := by
  have hv := Array.getElem?_eq_getElem (hvars v h)
  rw [lookup, read_eq_ok hv, Grounding.lookup, Array.getD_eq_getD_getElem?, hv]
  rfl

theorem substituteQuantity_mirrors {q : Quantity} (h : q.Scoped S) :
    Mirrors E (substituteQuantity replaced q).run
      (Grounding.substituteQuantity replaced q).run := by
  cases q with
  | var v =>
    rw [substituteQuantity, Grounding.substituteQuantity,
      run_bind_of_eq_ok (lookup_eq_ok hvars h)]
    rcases Grounding.lookup replaced v with _ | (_ | _) | _ <;> exact .ok _
  | _ => exact .ok _

theorem substitutePartialQuantity_mirrors {q : PartialQuantity} (h : q.Scoped S) :
    Mirrors E (substitutePartialQuantity replaced q).run
      (Grounding.substitutePartialQuantity replaced q).run := by
  cases q with
  | var v =>
    rw [substitutePartialQuantity, Grounding.substitutePartialQuantity,
      run_bind_of_eq_ok (lookup_eq_ok hvars h)]
    rcases Grounding.lookup replaced v with _ | (_ | _) | _ <;> exact .ok _
  | _ => exact .ok _

/-- A variable without a number counts as zero in the metric. -/
theorem substituteMeasure_eq_ok {m : Measure} (h : m.Scoped S) :
    substituteMeasure replaced m = .ok (Grounding.substituteMeasure replaced m) := by
  cases m with
  | var v =>
    rw [substituteMeasure, Grounding.substituteMeasure]
    refine bind_of_eq_ok (lookup_eq_ok hvars h) ?_
    rcases Grounding.lookup replaced v with _ | (_ | _) | _ <;> rfl
  | _ => rfl

theorem substituteConditions_mirrors {cs : List Condition} (h : ∀ c ∈ cs, c.Scoped S) :
    Mirrors E (substituteConditions replaced cs).run
      (Grounding.substituteConditions replaced cs).run := by
  induction cs with
  | nil => exact .ok _
  | cons c cs ih =>
    obtain ⟨hc, hcs⟩ := List.forall_mem_cons.mp h
    rw [substituteConditions, Grounding.substituteConditions,
      run_bind_of_eq_ok (lookup_eq_ok hvars hc.1)]
    rcases Grounding.lookup replaced c.var with _ | (o | _) | _
    · exact mirrors_residue_bind (ih hcs) fun _ _ => .ok _
    · dsimp only
      by_cases ho : o = c.value
      · rw [if_pos ho, if_pos ho]
        exact ih hcs
      · rw [if_neg ho, if_neg ho]
        exact .ok none
    · exact .ok none
    · exact .ok none

variable (hE : ForeseesConstants E)
include hE

theorem substituteExpression_mirrors {e : Expression Quantity} (h : ∀ q ∈ e.atoms, q.Scoped S) :
    Mirrors E (substituteExpression replaced e).run
      (Grounding.substituteExpression replaced e).run :=
  mirrors_foldM (fun op _ operands => foldConstants_mirrors hE op operands)
    fun q hq => substituteQuantity_mirrors hvars (h q hq)

theorem substitutePartialExpression_mirrors {e : Expression PartialQuantity}
    (h : ∀ q ∈ e.atoms, q.Scoped S) :
    Mirrors E (substitutePartialExpression replaced e).run
      (Grounding.substitutePartialExpression replaced e).run :=
  mirrors_foldM (fun op _ operands => foldPartialConstants_mirrors hE op operands)
    fun q hq => substitutePartialQuantity_mirrors hvars (h q hq)

omit hvars hE

mutual

/-- Substitution in a goal in scope meets no fault, whatever becomes of the goal. -/
theorem substituteGoal_mirrors (hvars : Covers replaced S) (hE : ForeseesConstants E) :
    ∀ {g : Goal}, g.Scoped S →
      Mirrors E (substituteGoal replaced g).run (Grounding.substituteGoal replaced g).run
  | .fluent v o equal, h => by
    rw [Goal.Scoped] at h
    rw [substituteGoal, Grounding.substituteGoal, run_bind_of_eq_ok (lookup_eq_ok hvars h.1)]
    rcases Grounding.lookup replaced v with _ | (_ | _) | _ <;> exact .ok _
  | .and gs, h | .or gs, h => by
    rw [Goal.Scoped] at h
    rw [substituteGoal, Grounding.substituteGoal]
    exact mirrors_residue_bind (substituteGoals_mirrors hvars hE h) fun _ _ => .ok _
  | .not g, h | .timed _ g, h | .existential _ g, h | .universal _ g, h => by
    rw [Goal.Scoped] at h
    rw [substituteGoal, Grounding.substituteGoal]
    exact mirrors_residue_bind (substituteGoal_mirrors hvars hE h) fun _ _ => .ok _
  | .imply premise conclusion, h => by
    rw [Goal.Scoped] at h
    rw [substituteGoal, Grounding.substituteGoal]
    exact mirrors_residue_bind (substituteGoal_mirrors hvars hE h.1) fun _ _ =>
      mirrors_residue_bind (substituteGoal_mirrors hvars hE h.2) fun _ _ => .ok _
  | .compare comparator terms, h => by
    rw [Goal.Scoped] at h
    rw [substituteGoal, Grounding.substituteGoal]
    exact mirrors_residue_bind (mirrors_residue_mapM fun e he =>
      substitutePartialExpression_mirrors hvars hE (h e he)) fun _ _ => .ok _
  | .ungroundedFluent _ _ _ _, _ | .equality _ _ _, _ | .constant _, _ => by
    rw [substituteGoal, Grounding.substituteGoal]
    exact .ok _

theorem substituteGoals_mirrors (hvars : Covers replaced S) (hE : ForeseesConstants E) :
    ∀ {gs : List Goal}, Goal.ScopedAll S gs →
      Mirrors E (substituteGoals replaced gs).run (Grounding.substituteGoals replaced gs).run
  | [], _ => by
    rw [substituteGoals, Grounding.substituteGoals]
    exact .ok _
  | g :: gs, h => by
    rw [substituteGoals, Grounding.substituteGoals]
    exact mirrors_residue_bind (substituteGoal_mirrors hvars hE h.1) fun _ _ =>
      mirrors_residue_bind (substituteGoals_mirrors hvars hE h.2) fun _ _ => .ok _

end

mutual

theorem substituteConstraint_mirrors (hvars : Covers replaced S) (hE : ForeseesConstants E) :
    ∀ {c : Constraint}, c.Scoped S →
      Mirrors E (substituteConstraint replaced c).run
        (Grounding.substituteConstraint replaced c).run
  | .and cs, h => by
    rw [Constraint.Scoped] at h
    rw [substituteConstraint, Grounding.substituteConstraint]
    exact mirrors_residue_bind (substituteConstraints_mirrors hvars hE h) fun _ _ => .ok _
  | .preference _ c, h => by
    rw [Constraint.Scoped] at h
    rw [substituteConstraint, Grounding.substituteConstraint]
    exact mirrors_residue_bind (substituteConstraint_mirrors hvars hE h.2) fun _ _ => .ok _
  | .goalPreference _ g, h => by
    rw [Constraint.Scoped] at h
    rw [substituteConstraint, Grounding.substituteConstraint]
    exact mirrors_residue_bind (substituteGoal_mirrors hvars hE h.2) fun _ _ => .ok _
  | .temporal _ _ gs, h => by
    rw [Constraint.Scoped] at h
    rw [substituteConstraint, Grounding.substituteConstraint]
    exact mirrors_residue_bind (mirrors_residue_mapM fun g hg =>
      substituteGoal_mirrors hvars hE (h g hg)) fun _ _ => .ok _

theorem substituteConstraints_mirrors (hvars : Covers replaced S) (hE : ForeseesConstants E) :
    ∀ {cs : List Constraint}, Constraint.ScopedAll S cs →
      Mirrors E (substituteConstraints replaced cs).run
        (Grounding.substituteConstraints replaced cs).run
  | [], _ => by
    rw [substituteConstraints, Grounding.substituteConstraints]
    exact .ok _
  | c :: cs, h => by
    rw [substituteConstraints, Grounding.substituteConstraints]
    exact mirrors_residue_bind (substituteConstraint_mirrors hvars hE h.1) fun _ _ =>
      mirrors_residue_bind (substituteConstraints_mirrors hvars hE h.2) fun _ _ => .ok _

end

include hvars hE

theorem substituteNumericCondition_mirrors {c : NumericCondition} (h : c.Scoped S) :
    Mirrors E (substituteNumericCondition replaced c).run
      (Grounding.substituteNumericCondition replaced c).run := by
  refine mirrors_residue_bind (mirrors_residue_mapM fun e he =>
    substituteExpression_mirrors hvars hE (h e he)) fun terms _ => ?_
  dsimp only
  by_cases hviolated : NumericCondition.isViolated { c with terms } = true
  · rw [if_pos hviolated, if_pos hviolated]
    exact .ok none
  · rw [if_neg hviolated, if_neg hviolated]
    exact .ok _

theorem substituteNumericEffect_mirrors {e : NumericEffect} (h : e.Scoped S) :
    Mirrors E (substituteNumericEffect replaced e).run
      (Grounding.substituteNumericEffect replaced e).run := by
  rw [substituteNumericEffect, Grounding.substituteNumericEffect,
    run_bind_of_eq_ok (lookup_eq_ok hvars h.1)]
  cases Grounding.lookup replaced e.var with
  | renumbered v =>
    exact mirrors_residue_bind (substituteExpression_mirrors hvars hE h.2) fun _ _ => .ok _
  | _ => exact .ok none

/-- Nor does it in an action, part by part and in the order of the parts. -/
theorem substituteAction_mirrors {a : Action} (h : a.Scoped S) :
    Mirrors E (substituteAction replaced a).run (Grounding.substituteAction replaced a).run := by
  have hconditions : ∀ {cs : List Condition}, cs ⊆ a.conditions ++ a.effects →
      Mirrors E (substituteConditions replaced cs).run
        (Grounding.substituteConditions replaced cs).run := fun hcs =>
    substituteConditions_mirrors hvars fun c hc =>
      (List.mem_append.mp (hcs hc)).elim (h.conditions c) (h.effects c)
  have hnumericConditions : ∀ {cs : List NumericCondition}, cs ⊆ a.numericConditions →
      Mirrors E (cs.mapM (substituteNumericCondition replaced)).run
        (cs.mapM (Grounding.substituteNumericCondition replaced)).run := fun hcs =>
    mirrors_residue_mapM fun c hc =>
      substituteNumericCondition_mirrors hvars hE (h.numericConditions c (hcs hc))
  have hnumericEffects : ∀ {es : List NumericEffect}, es ⊆ a.numericEffects →
      Mirrors E (es.mapM (substituteNumericEffect replaced)).run
        (es.mapM (Grounding.substituteNumericEffect replaced)).run := fun hes =>
    mirrors_residue_mapM fun e he =>
      substituteNumericEffect_mirrors hvars hE (h.numericEffects e (hes he))
  refine mirrors_residue_bind (mirrors_residue_mapM fun d hd => mirrors_residue_bind
    (substituteExpression_mirrors hvars hE (h.durations d hd)) fun _ _ => .ok _)
    fun durations _ => ?_
  by_cases hnone : hasNoDuration durations = true
  · rw [if_pos hnone, if_pos hnone]
    exact .ok none
  rw [if_neg hnone, if_neg hnone]
  iterate 5
    refine mirrors_residue_bind (hconditions fun c hc => ?_) fun _ _ => ?_
    · simp [Action.conditions, Action.effects, hc]
  iterate 3
    refine mirrors_residue_bind (hnumericConditions fun c hc => ?_) fun _ _ => ?_
    · simp [Action.numericConditions, hc]
  iterate 2
    refine mirrors_residue_bind (hnumericEffects fun e he => ?_) fun _ _ => ?_
    · simp [Action.numericEffects, he]
  refine mirrors_residue_bind (mirrors_residue_mapM fun q hq => mirrors_residue_bind
    (substituteGoal_mirrors hvars hE (h.preferences q hq).2) fun _ _ => .ok _) fun _ _ => .ok _

end Substitution

/-! ## Passes -/

section Passes

variable {K : FunctionId → Prop} {t : Task} {E : Error → Prop}

theorem substituteMetric_eq_ok {S : Scope} {replaced : Array Replacement}
    (hvars : Covers replaced S) {m : Metric} (h : m.Scoped S) :
    substituteMetric replaced m = .ok (Grounding.substituteMetric replaced m) :=
  bind_of_eq_ok (mapM_expression_eq_ok fun q hq => substituteMeasure_eq_ok hvars (h q hq)) rfl

/-- Dropping what comes to nothing introduces no fault. -/
theorem keepResidues_mirrors {α : Type} {c : α → Residue α} {f : α → Grounding.Residue α}
    {l : List α} (h : ∀ a ∈ l, Mirrors E (c a).run (f a).run) :
    Mirrors E (keepResidues c l) (Grounding.keepResidues f l) := by
  induction l with
  | nil => exact .ok []
  | cons a l ih =>
    obtain ⟨ha, hl⟩ := List.forall_mem_cons.mp h
    rw [keepResidues, Grounding.keepResidues]
    refine ha.bind fun b? _ => ?_
    cases b? with
    | none => exact ih hl
    | some b => exact (ih hl).bind fun bs _ => .ok (b :: bs)

/-- Actions of scoped tasks write variables of the task. -/
theorem lt_size_of_writes (h : IsScopedTask K t) {a : Action} (ha : a ∈ t.actions) {v : VarId}
    (hv : a.writes v = true) : v.index < t.vars.size := by
  have hscoped : (taskScope K t).var v := by
    rcases List.mem_append.mp ((writes_iff a v).mp hv) with hv | hv
    · obtain ⟨e, he, rfl⟩ := List.mem_map.mp hv
      exact ((h.actions a ha).effects e he).1
    · obtain ⟨e, he, rfl⟩ := List.mem_map.mp hv
      exact ((h.actions a ha).numericEffects e he).1
  obtain ⟨_, hentry⟩ := hscoped
  exact (Array.getElem?_eq_some_iff.mp hentry).1

/-- Something stands for every variable of a task. -/
theorem substitution_eq_ok (t : Task) :
    replacements (Grounding.constancies t) (Grounding.remaining t.vars (Grounding.constancies t)) =
      .ok (substitution t) ∧ Covers (substitution t) (taskScope K t) := by
  have hsize := size_constancies t
  have hremaining : ∀ i ∈ Grounding.remaining t.vars (Grounding.constancies t),
      i < (Grounding.constancies t).size := by
    intro i hi
    rw [hsize]
    exact lt_size_of_mem_remaining hi
  obtain ⟨hrun, hsubstitution⟩ := replacements_eq_ok hremaining
  refine ⟨hrun, ?_⟩
  rintro v ⟨_, hentry⟩
  rw [hsubstitution, hsize]
  exact (Array.getElem?_eq_some_iff.mp hentry).1

theorem substituteMetric?_eq_ok {S : Scope} {replaced : Array Replacement}
    (hvars : Covers replaced S) {m? : Option Metric} (h : ∀ m ∈ m?, m.Scoped S) :
    m?.mapM (substituteMetric replaced) =
      .ok (m?.map (Grounding.substituteMetric replaced)) := by
  cases m? with
  | none => rfl
  | some m =>
    rw [Option.mapM_some, substituteMetric_eq_ok hvars (h m rfl)]
    rfl

/-- A pass looks only at variables of the task, which all have entries in its tables. -/
theorem removeStaticPass_mirrors (hE : ForeseesConstants E) (h : IsScopedTask K t) :
    Mirrors E (removeStaticPass t) (Grounding.removeStaticPass t) := by
  obtain ⟨hreplacements, hvars⟩ := substitution_eq_ok (K := K) t
  refine mirrors_bind_of_eq_ok (constancies_eq_ok fun a ha v => lt_size_of_writes h ha) ?_
  rw [Grounding.removeStaticPass]
  dsimp only
  by_cases hcount : ((Grounding.constancies t).toList.filter fun c => c ≠ .changing).length = 0
  · rw [if_pos hcount, if_pos hcount]
    exact .ok _
  rw [if_neg hcount, if_neg hcount]
  refine mirrors_bind_of_eq_ok (remaining_eq_ok (size_constancies t)) ?_
  refine mirrors_bind_of_eq_ok hreplacements ?_
  refine (keepResidues_mirrors fun a ha =>
    substituteAction_mirrors hvars hE (h.actions a ha)).bind fun actions _ => ?_
  refine (keepResidues_mirrors fun a ha =>
    substituteAction_mirrors hvars hE (h.goals a ha)).bind fun goals _ => ?_
  refine (keepResidues_mirrors fun c hc =>
    substituteConstraint_mirrors hvars hE (h.constraints c hc)).bind fun constraints _ => ?_
  refine mirrors_bind_of_eq_ok (substituteMetric?_eq_ok hvars h.metric) ?_
  exact mirrors_bind_of_eq_ok
    (remainingVariables_eq_ok fun _ => lt_size_of_mem_remaining) (.ok _)

/-- No pass meets a fault, as what a pass leaves is scoped again. -/
theorem removePasses_mirrors (hE : ForeseesConstants E) (passes removed : Nat)
    (h : IsScopedTask K t) :
    Mirrors E (removePasses passes removed t) (Grounding.removePasses passes removed t) := by
  induction passes generalizing removed t with
  | zero => exact .ok _
  | succ passes ih =>
    rw [removePasses, Grounding.removePasses]
    refine (removeStaticPass_mirrors hE h).bind fun ⟨t', count⟩ hpass => ?_
    dsimp only
    by_cases hcount : count = 0
    · rw [if_pos hcount, if_pos hcount]
      exact .ok _
    · rw [if_neg hcount, if_neg hcount]
      -- what is left refers to the variables that are left
      exact ih _ (Pass.isScopedTask ⟨count, hpass⟩ h).2

/-- **Removing static variables reads nothing that is not there**, and fails only where a constant
expression has no value. -/
theorem removeStatics_mirrors (hE : ForeseesConstants E) (h : IsScopedTask K t) :
    Mirrors E (removeStatics t) (Grounding.removeStatics t) :=
  (removePasses_mirrors hE _ _ h).bind fun _ _ => .ok _

end Passes

end Guarded

end TemporalPlanning.Grounding
