import TemporalPlanning.Grounding.Statics
import TemporalPlanning.Proofs.Scope
/-!
What the substitution of variables keeps.

A substitution is read as a change of situations: a situation before it agrees with one after it if
every renumbered variable has the value of the variable that replaces it, and every fixed variable
its fixed value. Whatever is left of a construct then means in the later situation what the
construct means in the earlier one. This is proved for each kind of construct, first for leaves and
then along the structure.

If nothing is left of a construct, it refers to a variable without a value, or what is known of the
fixed variables alone violates it.
-/
set_option autoImplicit false

namespace TemporalPlanning.Grounded

/-- Two constraints have the same form, and their goals correspond one by one. -/
inductive Constraint.Corresponds (R : Goal → Goal → Prop) : Constraint → Constraint → Prop
  | and {cs cs' : List Constraint} (h : List.Forall₂ (Constraint.Corresponds R) cs cs') :
    Constraint.Corresponds R (.and cs) (.and cs')
  | preference {c c' : Constraint} (nameIndex : Nat) (h : Constraint.Corresponds R c c') :
    Constraint.Corresponds R (.preference nameIndex c) (.preference nameIndex c')
  | goalPreference {g g' : Goal} (nameIndex : Nat) (h : R g g') :
    Constraint.Corresponds R (.goalPreference nameIndex g) (.goalPreference nameIndex g')
  | temporal {gs gs' : List Goal} (modality : Modality) (times : List Float)
    (h : List.Forall₂ R gs gs') :
    Constraint.Corresponds R (.temporal modality times gs) (.temporal modality times gs')

end TemporalPlanning.Grounded

namespace TemporalPlanning.Grounding

open Grounded

variable {replaced : Array Replacement}

/-- Two situations agree about what stands for every variable. -/
structure AgreeUnder (replaced : Array Replacement) (x y : Situation Float) : Prop where
  objects : ∀ v v', lookup replaced v = .renumbered v' → x.objects v = y.objects v'
  numbers : ∀ v v', lookup replaced v = .renumbered v' → x.numbers v = y.numbers v'
  fixedObject : ∀ v value, lookup replaced v = .fixed value → x.objects v = value.object?
  fixedNumber : ∀ v value, lookup replaced v = .fixed value → x.numbers v = value.number?

/-- The new position of a variable that is renumbered. -/
def newPosition (replaced : Array Replacement) (v : VarId) : Option VarId :=
  match lookup replaced v with
  | .renumbered v' => some v'
  | .fixed _ | .missing => none

theorem newPosition_eq_some_iff {v v' : VarId} :
    newPosition replaced v = some v' ↔ lookup replaced v = .renumbered v' := by
  unfold newPosition
  split
  next w hw => rw [hw, Option.some.injEq, Replacement.renumbered.injEq]
  next value hv => simp [hv]
  next hv => simp [hv]

/-! ## Expressions -/

section Expressions

variable {x y : Situation Float} (hxy : AgreeUnder replaced x y) (duration : Option Float)

/-- A number that is computed without a state is the value in every situation. -/
theorem valueOf_of_evaluate {e : Expression Quantity} {n : Float}
    (h : evaluate none e = .ok (some n)) (y : Situation Float) :
    valueOf y duration e = some n := by
  refine Expression.value?_mono (fun q n hq => ?_) (value?_of_evaluate h)
  cases q <;> cases hq
  rfl

/-- A constant in a goal has the value of the constant. -/
theorem valueInGoal_of_constant? {e : Expression PartialQuantity} {c : Expression Quantity}
    (hc : constant? e = some c) {n : Float} (h : evaluate none c = .ok (some n))
    (y : Situation Float) : valueInGoal y e = some n := by
  have hvalue := valueOf_of_evaluate none h y
  rw [← hvalue]
  -- the leaves of the constant are the numbers of the expression
  unfold constant? at hc
  clear hvalue h
  induction e using Expression.operandsInduction generalizing c with
  | atom q =>
    rw [Expression.mapM_atom] at hc
    cases q <;> cases hc
    rfl
  | node op es ih =>
    rw [Expression.mapM_node] at hc
    obtain ⟨cs, hcs, hc⟩ := Option.bind_eq_some_iff.mp hc
    cases hc
    refine Expression.value?_node_congr op ?_
    clear hc
    induction es generalizing cs with
    | nil =>
      cases hcs
      exact .nil
    | cons e es ihs =>
      obtain ⟨he, hes⟩ := List.forall_mem_cons.mp ih
      rw [List.mapM_cons] at hcs
      obtain ⟨c, hc, hcs⟩ := Option.bind_eq_some_iff.mp hcs
      obtain ⟨cs', hcs', hcs⟩ := Option.bind_eq_some_iff.mp hcs
      cases hcs
      exact .cons (he hc) (ihs hes cs' hcs')

theorem valueInGoal_foldPartialConstants {op : Operation} {es : List (Expression PartialQuantity)}
    {e : Expression PartialQuantity} (h : (foldPartialConstants op es).run = .ok (some e))
    (y : Situation Float) : valueInGoal y e = valueInGoal y (.node op es) := by
  unfold foldPartialConstants at h
  dsimp only at h
  split at h
  · cases h
    rfl
  next c hc =>
    obtain ⟨n?, hevaluate, h⟩ := residue_bind_eq_some.mp h
    obtain ⟨n?', hevaluate, hn⟩ := except_bind_eq_ok.mp hevaluate
    cases hn
    cases n? with
    | none =>
      cases h
      rfl
    | some n =>
      cases h
      exact (valueInGoal_of_constant? hc hevaluate y).symm

theorem foldPartialConstants_ne_none (op : Operation) (es : List (Expression PartialQuantity)) :
    (foldPartialConstants op es).run ≠ .ok none := by
  intro h
  unfold foldPartialConstants at h
  dsimp only at h
  split at h
  · cases h
  · rcases residue_bind_eq_none.mp h with h | ⟨n?, -, h⟩
    · obtain ⟨n?, -, h⟩ := except_bind_eq_ok.mp h
      cases h
    · cases n? <;> cases h

include hxy in
theorem valueInGoal_substitutePartialExpression {e e' : Expression PartialQuantity}
    (h : (substitutePartialExpression replaced e).run = .ok (some e')) :
    valueInGoal y e' = valueInGoal x e := by
  refine Expression.foldM_induction (R := fun e e' => valueInGoal y e' = valueInGoal x e)
    (fun q e' hq => ?_) (fun op es es' e' hes he' => ?_) h
  · cases q with
    | var v =>
      rw [substitutePartialQuantity] at hq
      split at hq
      next v' hv =>
        cases hq
        exact (hxy.numbers v v' hv).symm
      next n hv =>
        cases hq
        exact (hxy.fixedNumber v _ hv).symm
      next o hv =>
        cases hq
        exact (hxy.fixedNumber v _ hv).symm
      · cases hq
    | _ =>
      cases hq
      rfl
  · rw [valueInGoal_foldPartialConstants he' y]
    exact Expression.value?_node_congr op hes

theorem exists_missing_of_substitutePartialExpression {e : Expression PartialQuantity}
    (h : (substitutePartialExpression replaced e).run = .ok none) :
    ∃ v ∈ partialVarsOf e, lookup replaced v = .missing := by
  obtain ⟨q, hq, h⟩ :=
    Expression.exists_atom_of_foldM_eq_none (fun op _ es => foldPartialConstants_ne_none op es) h
  cases q with
  | var v =>
    refine ⟨v, mem_partialVarsOf.mpr hq, ?_⟩
    rw [substitutePartialQuantity] at h
    split at h
    · cases h
    · cases h
    · cases h
    next hv => exact hv
  | _ => cases h

end Expressions

/-! ## Literals -/

section Literals

variable {t t' : Task}
  (hproposition : ∀ v v', lookup replaced v = .renumbered v' →
    t'.isProposition v' = t.isProposition v)
  {x y : Situation Float} (hxy : AgreeUnder replaced x y)

include hproposition hxy in
/-- A literal on a renumbered variable holds as before. -/
theorem holds_of_renumbered {v v' : VarId} (hv : lookup replaced v = .renumbered v')
    (o : ObjectId) : t'.Holds y.objects ⟨v', o⟩ ↔ t.Holds x.objects ⟨v, o⟩ := by
  rw [Task.Holds, Task.Holds, hxy.objects v v' hv, hproposition v v' hv]

include hxy in
/-- A literal on a fixed variable holds if it asks for the fixed value. -/
theorem holds_of_fixed {v : VarId} {o : ObjectId} (hv : lookup replaced v = .fixed (.object o))
    (o' : ObjectId) : t.Holds x.objects ⟨v, o'⟩ ↔ o = o' := by
  have hvalue : x.objects v = some o := hxy.fixedObject v _ hv
  rw [Task.Holds, hvalue, Option.some.injEq]
  refine or_iff_left_of_imp ?_
  rintro ⟨hnone, -⟩
  cases hnone

/-- What is left of a list of conditions are those on renumbered variables; the others ask for the
fixed value. -/
theorem substituteConditions_eq_some {cs cs' : List Condition}
    (h : (substituteConditions replaced cs).run = .ok (some cs')) :
    cs' = cs.filterMap (fun c => (newPosition replaced c.var).map fun v => ⟨v, c.value⟩) ∧
      ∀ c ∈ cs, newPosition replaced c.var = none →
        lookup replaced c.var = .fixed (.object c.value) := by
  induction cs generalizing cs' with
  | nil =>
    cases h
    exact ⟨rfl, fun c hc => by cases hc⟩
  | cons c cs ih =>
    rw [substituteConditions] at h
    rw [List.filterMap_cons, List.forall_mem_cons]
    split at h
    next v' hv =>
      obtain ⟨rest, hrest, h⟩ := residue_bind_eq_some.mp h
      obtain ⟨hrest, herased⟩ := ih hrest
      cases h
      have hposition := newPosition_eq_some_iff.mpr hv
      rw [hposition, hrest]
      exact ⟨rfl, fun hnone => (Option.some_ne_none v' hnone).elim, herased⟩
    next o hv =>
      have hposition : newPosition replaced c.var = none := by rw [newPosition, hv]
      split at h
      next ho =>
        rw [hposition, ← ho]
        exact ⟨(ih h).1, fun _ => hv, (ih h).2⟩
      · cases h
    · cases h
    · cases h

end Literals

/-! ## Numeric conditions, effects and bounds -/

section Numeric

variable {x y : Situation Float} (hxy : AgreeUnder replaced x y) (duration : Option Float)

/-- A single bound that leaves no duration is an upper bound that is not positive. -/
theorem of_hasNoDuration {ds : List DurationBound} (h : hasNoDuration ds = true) :
    ∃ d n, ds = [d] ∧ d.comparator ∈ [.eq, .less, .lessEq] ∧ d.expression = .atom (.number n) ∧
      n ≤ 0.0 := by
  unfold hasNoDuration at h
  split at h
  next time comparator n =>
    simp only [Bool.and_eq_true, Bool.or_eq_true, beq_iff_eq, decide_eq_true_eq] at h
    refine ⟨_, n, rfl, ?_, rfl, h.1⟩
    simpa [or_assoc] using h.2
  · cases h

end Numeric

/-! ## Goals and constraints -/

section Goals

variable {t t' : Task} {x y : Situations Float}

mutual

/-- What is left of a goal is as true as the goal. -/
theorem truth?_substituteGoal (hproposition : ∀ v v', lookup replaced v = .renumbered v' →
    t'.isProposition v' = t.isProposition v) (hxy : ∀ time, AgreeUnder replaced (x time) (y time)) :
    ∀ {g g' : Goal} (time : TimePoint),
    (substituteGoal replaced g).run = .ok (some g') → g'.truth? t' y time = g.truth? t x time
  | .fluent v o equal, g', time, h => by
    rw [substituteGoal] at h
    split at h
    next v' hv =>
      cases h
      rw [Goal.truth?, Goal.truth?]
      simp only [holds_of_renumbered hproposition (hxy time) hv]
    next o' hv =>
      cases h
      rw [Goal.truth?, Goal.truth?]
      simp only [holds_of_fixed (hxy time) hv, beq_eq_decide]
    · cases h
    · cases h
  | .and gs, g', time, h => by
    rw [substituteGoal] at h
    obtain ⟨gs', hgs, h⟩ := residue_bind_eq_some.mp h
    cases h
    rw [Goal.truth?, Goal.truth?, truths?_substituteGoals hproposition hxy time hgs]
  | .or gs, g', time, h => by
    rw [substituteGoal] at h
    obtain ⟨gs', hgs, h⟩ := residue_bind_eq_some.mp h
    cases h
    rw [Goal.truth?, Goal.truth?, truths?_substituteGoals hproposition hxy time hgs]
  | .not g, g', time, h => by
    rw [substituteGoal] at h
    obtain ⟨g'', hg, h⟩ := residue_bind_eq_some.mp h
    cases h
    rw [Goal.truth?, Goal.truth?, truth?_substituteGoal hproposition hxy time hg]
  | .timed time' g, g', time, h => by
    rw [substituteGoal] at h
    obtain ⟨g'', hg, h⟩ := residue_bind_eq_some.mp h
    cases h
    rw [Goal.truth?, Goal.truth?, truth?_substituteGoal hproposition hxy time' hg]
  | .existential types g, g', time, h => by
    rw [substituteGoal] at h
    obtain ⟨g'', -, h⟩ := residue_bind_eq_some.mp h
    cases h
    rw [Goal.truth?, Goal.truth?]
  | .universal types g, g', time, h => by
    rw [substituteGoal] at h
    obtain ⟨g'', -, h⟩ := residue_bind_eq_some.mp h
    cases h
    rw [Goal.truth?, Goal.truth?]
  | .imply premise conclusion, g', time, h => by
    rw [substituteGoal] at h
    obtain ⟨premise', hpremise, h⟩ := residue_bind_eq_some.mp h
    obtain ⟨conclusion', hconclusion, h⟩ := residue_bind_eq_some.mp h
    cases h
    rw [Goal.truth?, Goal.truth?, truth?_substituteGoal hproposition hxy time hpremise,
      truth?_substituteGoal hproposition hxy time hconclusion]
  | .compare comparator terms, g', time, h => by
    rw [substituteGoal] at h
    obtain ⟨terms', hterms, h⟩ := residue_bind_eq_some.mp h
    cases h
    rw [Goal.truth?, Goal.truth?, map_eq_map_of_forall₂ ((residue_mapM_eq_some hterms).imp
      fun e e' he => valueInGoal_substitutePartialExpression (hxy time) he)]
  | .ungroundedFluent _ _ _ _, g', time, h => by
    rw [substituteGoal] at h
    cases h
    rw [Goal.truth?, Goal.truth?]
  | .equality equal left right, g', time, h => by
    rw [substituteGoal] at h
    cases h
    cases left <;> cases right <;> simp only [Goal.truth?]
  | .constant _, g', time, h => by
    rw [substituteGoal] at h
    cases h
    rw [Goal.truth?, Goal.truth?]

theorem truths?_substituteGoals (hproposition : ∀ v v', lookup replaced v = .renumbered v' →
    t'.isProposition v' = t.isProposition v) (hxy : ∀ time, AgreeUnder replaced (x time) (y time)) :
    ∀ {gs gs' : List Goal} (time : TimePoint),
    (substituteGoals replaced gs).run = .ok (some gs') →
      Goal.truths? t' y time gs' = Goal.truths? t x time gs
  | [], gs', time, h => by
    rw [substituteGoals] at h
    cases h
    rw [Goal.truths?, Goal.truths?]
  | g :: gs, gs', time, h => by
    rw [substituteGoals] at h
    obtain ⟨g', hg, h⟩ := residue_bind_eq_some.mp h
    obtain ⟨gs'', hgs, h⟩ := residue_bind_eq_some.mp h
    cases h
    rw [Goal.truths?, Goal.truths?, truth?_substituteGoal hproposition hxy time hg,
      truths?_substituteGoals hproposition hxy time hgs]

end

end Goals

section Constraints

variable {R : Goal → Goal → Prop}

mutual

/-- What is left of a constraint has the same form. -/
theorem corresponds_substituteConstraint
    (hR : ∀ g g', (substituteGoal replaced g).run = .ok (some g') → R g g') :
    ∀ {c c' : Constraint}, (substituteConstraint replaced c).run = .ok (some c') →
      Constraint.Corresponds R c c'
  | .and cs, c', h => by
    rw [substituteConstraint] at h
    obtain ⟨cs', hcs, h⟩ := residue_bind_eq_some.mp h
    cases h
    exact .and (forall₂_substituteConstraints hR hcs)
  | .preference nameIndex c, c', h => by
    rw [substituteConstraint] at h
    obtain ⟨c'', hc, h⟩ := residue_bind_eq_some.mp h
    cases h
    exact .preference nameIndex (corresponds_substituteConstraint hR hc)
  | .goalPreference nameIndex g, c', h => by
    rw [substituteConstraint] at h
    obtain ⟨g', hg, h⟩ := residue_bind_eq_some.mp h
    cases h
    exact .goalPreference nameIndex (hR g g' hg)
  | .temporal modality times gs, c', h => by
    rw [substituteConstraint] at h
    obtain ⟨gs', hgs, h⟩ := residue_bind_eq_some.mp h
    cases h
    exact .temporal modality times ((residue_mapM_eq_some hgs).imp hR)

theorem forall₂_substituteConstraints
    (hR : ∀ g g', (substituteGoal replaced g).run = .ok (some g') → R g g') :
    ∀ {cs cs' : List Constraint}, (substituteConstraints replaced cs).run = .ok (some cs') →
      List.Forall₂ (Constraint.Corresponds R) cs cs'
  | [], cs', h => by
    rw [substituteConstraints] at h
    cases h
    exact .nil
  | c :: cs, cs', h => by
    rw [substituteConstraints] at h
    obtain ⟨c', hc, h⟩ := residue_bind_eq_some.mp h
    obtain ⟨cs'', hcs, h⟩ := residue_bind_eq_some.mp h
    cases h
    exact .cons (corresponds_substituteConstraint hR hc) (forall₂_substituteConstraints hR hcs)

end

end Constraints

section Dropped

variable {S : Scope}

mutual

/-- If nothing is left of a goal, it refers to a variable without a value. -/
theorem exists_missing_of_substituteGoal
    (hfluent : ∀ v n, S.fluent v → lookup replaced v ≠ .fixed (.number n)) :
    ∀ {g : Goal}, g.Scoped S → (substituteGoal replaced g).run = .ok none →
      ∃ v ∈ g.variables, lookup replaced v = .missing
  | .fluent v o equal, hg, h => by
    rw [Goal.Scoped] at hg
    rw [substituteGoal] at h
    split at h
    · cases h
    · cases h
    next n hv => exact absurd hv (hfluent v n hg.2.1)
    next hv => exact ⟨v, by rw [Goal.variables]; exact List.mem_singleton.mpr rfl, hv⟩
  | .and gs, hg, h | .or gs, hg, h => by
    rw [Goal.Scoped] at hg
    rw [substituteGoal] at h
    rw [Goal.variables]
    rcases residue_bind_eq_none.mp h with h | ⟨_, -, h⟩
    · exact exists_missing_of_substituteGoals hfluent hg h
    · cases h
  | .not g, hg, h | .timed _ g, hg, h | .existential _ g, hg, h | .universal _ g, hg, h => by
    rw [Goal.Scoped] at hg
    rw [substituteGoal] at h
    rw [Goal.variables]
    rcases residue_bind_eq_none.mp h with h | ⟨_, -, h⟩
    · exact exists_missing_of_substituteGoal hfluent hg h
    · cases h
  | .imply premise conclusion, hg, h => by
    rw [Goal.Scoped] at hg
    rw [substituteGoal] at h
    rw [Goal.variables]
    rcases residue_bind_eq_none.mp h with h | ⟨_, -, h⟩
    · obtain ⟨v, hv, hmissing⟩ := exists_missing_of_substituteGoal hfluent hg.1 h
      exact ⟨v, List.mem_append_left _ hv, hmissing⟩
    rcases residue_bind_eq_none.mp h with h | ⟨_, -, h⟩
    · obtain ⟨v, hv, hmissing⟩ := exists_missing_of_substituteGoal hfluent hg.2 h
      exact ⟨v, List.mem_append_right _ hv, hmissing⟩
    · cases h
  | .compare _ terms, _, h => by
    rw [substituteGoal] at h
    rw [Goal.variables]
    rcases residue_bind_eq_none.mp h with h | ⟨_, -, h⟩
    · obtain ⟨e, he, h⟩ := residue_mapM_eq_none h
      obtain ⟨v, hv, hmissing⟩ := exists_missing_of_substitutePartialExpression h
      exact ⟨v, List.mem_flatMap.mpr ⟨e, he, hv⟩, hmissing⟩
    · cases h
  | .ungroundedFluent _ _ _ _, _, h | .equality _ _ _, _, h | .constant _, _, h => by
    rw [substituteGoal] at h
    cases h

theorem exists_missing_of_substituteGoals
    (hfluent : ∀ v n, S.fluent v → lookup replaced v ≠ .fixed (.number n)) :
    ∀ {gs : List Goal}, Goal.ScopedAll S gs → (substituteGoals replaced gs).run = .ok none →
      ∃ v ∈ Goal.variablesOfList gs, lookup replaced v = .missing
  | [], _, h => by
    rw [substituteGoals] at h
    cases h
  | g :: gs, hg, h => by
    rw [Goal.ScopedAll] at hg
    rw [substituteGoals] at h
    rw [Goal.variablesOfList]
    rcases residue_bind_eq_none.mp h with h | ⟨_, -, h⟩
    · obtain ⟨v, hv, hmissing⟩ := exists_missing_of_substituteGoal hfluent hg.1 h
      exact ⟨v, List.mem_append_left _ hv, hmissing⟩
    rcases residue_bind_eq_none.mp h with h | ⟨_, -, h⟩
    · obtain ⟨v, hv, hmissing⟩ := exists_missing_of_substituteGoals hfluent hg.2 h
      exact ⟨v, List.mem_append_right _ hv, hmissing⟩
    · cases h

end

end Dropped

end TemporalPlanning.Grounding
