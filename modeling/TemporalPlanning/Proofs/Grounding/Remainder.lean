import TemporalPlanning.Proofs.Grounding.Substitution
/-!
What is left of actions.

What is left of an action consists of what is left of its parts, and if nothing is left of it, then
nothing is left of one of them, or none of its durations is positive. What is left of a scoped
construct is scoped, if the scope is carried along.
-/
set_option autoImplicit false

namespace TemporalPlanning.Grounding

open Grounded

variable {replaced : Array Replacement}

/-! ## Actions -/

/-- What is left of an action consists of what is left of its parts. -/
structure IsRemainder (replaced : Array Replacement) (a b : Action) : Prop where
  name : b.name = a.name
  operator : b.operator = a.operator
  arguments : b.arguments = a.arguments
  isGoal : b.isGoal = a.isGoal
  durations : List.Forall₂ (fun d d' => d'.time = d.time ∧ d'.comparator = d.comparator ∧
    (substituteExpression replaced d.expression).run = .ok (some d'.expression))
    a.durations b.durations
  startConditions : (substituteConditions replaced a.startConditions).run =
    .ok (some b.startConditions)
  invariants : (substituteConditions replaced a.invariants).run = .ok (some b.invariants)
  endConditions : (substituteConditions replaced a.endConditions).run = .ok (some b.endConditions)
  startEffects : (substituteConditions replaced a.startEffects).run = .ok (some b.startEffects)
  endEffects : (substituteConditions replaced a.endEffects).run = .ok (some b.endEffects)
  startNumericConditions : List.Forall₂
    (fun c c' => (substituteNumericCondition replaced c).run = .ok (some c'))
    a.startNumericConditions b.startNumericConditions
  numericInvariants : List.Forall₂
    (fun c c' => (substituteNumericCondition replaced c).run = .ok (some c'))
    a.numericInvariants b.numericInvariants
  endNumericConditions : List.Forall₂
    (fun c c' => (substituteNumericCondition replaced c).run = .ok (some c'))
    a.endNumericConditions b.endNumericConditions
  startNumericEffects : List.Forall₂
    (fun e e' => (substituteNumericEffect replaced e).run = .ok (some e'))
    a.startNumericEffects b.startNumericEffects
  endNumericEffects : List.Forall₂
    (fun e e' => (substituteNumericEffect replaced e).run = .ok (some e'))
    a.endNumericEffects b.endNumericEffects
  preferences : List.Forall₂ (fun q q' => q'.nameIndex = q.nameIndex ∧
    (substituteGoal replaced q.goal).run = .ok (some q'.goal)) a.preferences b.preferences

theorem of_substituteDurations {ds ds' : List DurationBound}
    (h : (ds.mapM fun (d : DurationBound) => do
      return { d with expression := ← substituteExpression replaced d.expression }).run =
        .ok (some ds')) :
    List.Forall₂ (fun d d' => d'.time = d.time ∧ d'.comparator = d.comparator ∧
      (substituteExpression replaced d.expression).run = .ok (some d'.expression)) ds ds' := by
  refine (residue_mapM_eq_some h).imp fun d d' hd => ?_
  obtain ⟨e, he, hd⟩ := residue_bind_eq_some.mp hd
  cases hd
  exact ⟨rfl, rfl, he⟩

/-- What is left of an action is put together from what is left of each part, in the order of its
fields. -/
theorem isRemainder_of_substituteAction {a b : Action}
    (h : (substituteAction replaced a).run = .ok (some b)) : IsRemainder replaced a b := by
  obtain ⟨durations, hdurations, h⟩ := residue_bind_eq_some.mp h
  -- an action that is left has a duration
  split at h
  · cases h
  obtain ⟨startConditions, hstartConditions, h⟩ := residue_bind_eq_some.mp h
  obtain ⟨invariants, hinvariants, h⟩ := residue_bind_eq_some.mp h
  obtain ⟨endConditions, hendConditions, h⟩ := residue_bind_eq_some.mp h
  obtain ⟨startEffects, hstartEffects, h⟩ := residue_bind_eq_some.mp h
  obtain ⟨endEffects, hendEffects, h⟩ := residue_bind_eq_some.mp h
  obtain ⟨startNumericConditions, hstartNumericConditions, h⟩ := residue_bind_eq_some.mp h
  obtain ⟨numericInvariants, hnumericInvariants, h⟩ := residue_bind_eq_some.mp h
  obtain ⟨endNumericConditions, hendNumericConditions, h⟩ := residue_bind_eq_some.mp h
  obtain ⟨startNumericEffects, hstartNumericEffects, h⟩ := residue_bind_eq_some.mp h
  obtain ⟨endNumericEffects, hendNumericEffects, h⟩ := residue_bind_eq_some.mp h
  obtain ⟨preferences, hpreferences, h⟩ := residue_bind_eq_some.mp h
  cases h
  refine ⟨rfl, rfl, rfl, rfl, of_substituteDurations hdurations, hstartConditions, hinvariants,
    hendConditions, hstartEffects, hendEffects, residue_mapM_eq_some hstartNumericConditions,
    residue_mapM_eq_some hnumericInvariants, residue_mapM_eq_some hendNumericConditions,
    residue_mapM_eq_some hstartNumericEffects, residue_mapM_eq_some hendNumericEffects, ?_⟩
  refine (residue_mapM_eq_some hpreferences).imp fun q q' hq => ?_
  obtain ⟨g, hg, hq⟩ := residue_bind_eq_some.mp hq
  cases hq
  exact ⟨rfl, hg⟩

/-- Whatever a scope allows stays allowed when variables are replaced. -/
structure Carries (replaced : Array Replacement) (S S' : Scope) : Prop where
  var : ∀ v v', S.var v → lookup replaced v = .renumbered v' → S'.var v'
  fluent : ∀ v v', S.fluent v → lookup replaced v = .renumbered v' → S'.fluent v'
  object : ∀ o, S.object o → S'.object o
  function : ∀ f, S.function f → S'.function f
  preference : ∀ i, S.preference i → S'.preference i

/-- An operation is left as it is or becomes the number that it computes. -/
theorem foldConstants_eq_some {op : Operation} {es : List (Expression Quantity)}
    {e : Expression Quantity} (h : (foldConstants op es).run = .ok (some e)) :
    e = .node op es ∨ ∃ n, e = .atom (.number n) := by
  obtain ⟨n?, -, h⟩ := residue_bind_eq_some.mp h
  cases n? with
  | none =>
    cases h
    exact Or.inl rfl
  | some n =>
    cases h
    exact Or.inr ⟨n, rfl⟩

/-- The same for operations in goals, which are also left as they are if they have no value. -/
theorem foldPartialConstants_eq_some {op : Operation} {es : List (Expression PartialQuantity)}
    {e : Expression PartialQuantity} (h : (foldPartialConstants op es).run = .ok (some e)) :
    e = .node op es ∨ ∃ n, e = .atom (.number n) := by
  unfold foldPartialConstants at h
  dsimp only at h
  split at h
  · cases h
    exact Or.inl rfl
  · obtain ⟨n?, -, h⟩ := residue_bind_eq_some.mp h
    cases n? with
    | none =>
      cases h
      exact Or.inl rfl
    | some n =>
      cases h
      exact Or.inr ⟨n, rfl⟩

section Scoped

variable {S S' : Scope}

/-- By induction over the expression: a variable that is left is renumbered, any other one has
become a number, and folding constants makes no new variables. -/
theorem scoped_substituteExpression (hcarries : Carries replaced S S') {e e' : Expression Quantity}
    (h : (substituteExpression replaced e).run = .ok (some e'))
    (he : ∀ q ∈ e.atoms, q.Scoped S) : ∀ q ∈ e'.atoms, q.Scoped S' := by
  refine Expression.forall_mem_atoms_of_foldM (fun q e hq hscoped => ?_)
    (fun op es es' e' he' => ?_) h he
  · cases q with
    | var v =>
      rw [substituteQuantity] at hq
      split at hq <;> cases hq <;> rw [Expression.forall_mem_atoms_atom]
      next v' hv => exact hcarries.var v v' hscoped hv
      all_goals trivial
    | _ =>
      cases hq
      exact Expression.forall_mem_atoms_atom.mpr trivial
  · rcases foldConstants_eq_some he' with heq | ⟨n, hn⟩
    · exact Or.inl heq
    · exact Or.inr ⟨_, hn, trivial⟩

theorem scoped_substitutePartialExpression (hcarries : Carries replaced S S')
    {e e' : Expression PartialQuantity}
    (h : (substitutePartialExpression replaced e).run = .ok (some e'))
    (he : ∀ q ∈ e.atoms, q.Scoped S) : ∀ q ∈ e'.atoms, q.Scoped S' := by
  refine Expression.forall_mem_atoms_of_foldM (fun q e hq hscoped => ?_)
    (fun op es es' e' he' => ?_) h he
  · cases q with
    | var v =>
      rw [substitutePartialQuantity] at hq
      split at hq <;> cases hq <;> rw [Expression.forall_mem_atoms_atom]
      next v' hv => exact hcarries.var v v' hscoped hv
      all_goals trivial
    | _ =>
      cases hq
      exact Expression.forall_mem_atoms_atom.mpr trivial
  · rcases foldPartialConstants_eq_some he' with heq | ⟨n, hn⟩
    · exact Or.inl heq
    · exact Or.inr ⟨_, hn, trivial⟩

/-- Conditions that are satisfied for good are erased, the others refer to renumbered variables. -/
theorem scoped_substituteConditions (hcarries : Carries replaced S S') {cs cs' : List Condition}
    (h : (substituteConditions replaced cs).run = .ok (some cs')) (hcs : ∀ c ∈ cs, c.Scoped S) :
    ∀ c ∈ cs', c.Scoped S' := by
  induction cs generalizing cs' with
  | nil =>
    cases h
    exact fun c hc => by cases hc
  | cons c cs ih =>
    obtain ⟨hc, hcs⟩ := List.forall_mem_cons.mp hcs
    rw [substituteConditions] at h
    split at h
    next v' hv =>
      obtain ⟨rest, hrest, h⟩ := residue_bind_eq_some.mp h
      cases h
      -- the condition is kept
      exact List.forall_mem_cons.mpr
        ⟨⟨hcarries.var _ v' hc.1 hv, hcarries.object _ hc.2⟩, ih hrest hcs⟩
    · -- its variable has a fixed value: the condition is erased if this is the one, else nothing is
      -- left
      split at h
      · exact ih h hcs
      · cases h
    · cases h
    · cases h

theorem scoped_substituteNumericCondition (hcarries : Carries replaced S S')
    {c c' : NumericCondition} (h : (substituteNumericCondition replaced c).run = .ok (some c'))
    (hc : c.Scoped S) : c'.Scoped S' := by
  obtain ⟨terms, hterms, h⟩ := residue_bind_eq_some.mp h
  dsimp only at h
  -- a condition that is left is not violated
  split at h
  · cases h
  · cases h
    exact forall_mem_of_forall₂ (residue_mapM_eq_some hterms) hc fun e e' h he =>
      scoped_substituteExpression hcarries h he

theorem scoped_substituteNumericEffect (hcarries : Carries replaced S S') {e e' : NumericEffect}
    (h : (substituteNumericEffect replaced e).run = .ok (some e')) (he : e.Scoped S) :
    e'.Scoped S' := by
  rw [substituteNumericEffect] at h
  split at h
  next v' hv =>
    obtain ⟨expression, hexpression, h⟩ := residue_bind_eq_some.mp h
    cases h
    exact ⟨hcarries.var _ v' he.1 hv, scoped_substituteExpression hcarries hexpression he.2⟩
  · cases h
  · cases h

mutual

/-- Goals keep their shape. What changes are the comparisons at the leaves, where a decided one
becomes a constant. -/
theorem scoped_substituteGoal (hcarries : Carries replaced S S') : ∀ {g g' : Goal},
    (substituteGoal replaced g).run = .ok (some g') → g.Scoped S → g'.Scoped S'
  | .fluent v o equal, g', h, hg => by
    rw [Goal.Scoped] at hg
    rw [substituteGoal] at h
    split at h <;> cases h <;> rw [Goal.Scoped]
    next v' hv =>
      exact ⟨hcarries.var v v' hg.1 hv, hcarries.fluent v v' hg.2.1 hv, hcarries.object o hg.2.2⟩
    trivial
  | .and gs, g', h, hg | .or gs, g', h, hg => by
    rw [Goal.Scoped] at hg
    rw [substituteGoal] at h
    obtain ⟨gs', hgs, h⟩ := residue_bind_eq_some.mp h
    cases h
    rw [Goal.Scoped]
    exact scopedAll_substituteGoals hcarries hgs hg
  | .not g, g', h, hg | .timed _ g, g', h, hg | .existential _ g, g', h, hg
  | .universal _ g, g', h, hg => by
    rw [Goal.Scoped] at hg
    rw [substituteGoal] at h
    obtain ⟨g'', hg', h⟩ := residue_bind_eq_some.mp h
    cases h
    rw [Goal.Scoped]
    exact scoped_substituteGoal hcarries hg' hg
  | .imply premise conclusion, g', h, hg => by
    rw [Goal.Scoped] at hg
    rw [substituteGoal] at h
    obtain ⟨premise', hpremise, h⟩ := residue_bind_eq_some.mp h
    obtain ⟨conclusion', hconclusion, h⟩ := residue_bind_eq_some.mp h
    cases h
    rw [Goal.Scoped]
    exact ⟨scoped_substituteGoal hcarries hpremise hg.1,
      scoped_substituteGoal hcarries hconclusion hg.2⟩
  | .compare comparator terms, g', h, hg => by
    rw [Goal.Scoped] at hg
    rw [substituteGoal] at h
    obtain ⟨terms', hterms, h⟩ := residue_bind_eq_some.mp h
    cases h
    rw [Goal.Scoped]
    exact forall_mem_of_forall₂ (residue_mapM_eq_some hterms) hg fun e e' h he =>
      scoped_substitutePartialExpression hcarries h he
  | .ungroundedFluent f arguments value equal, g', h, hg => by
    rw [Goal.Scoped] at hg
    rw [substituteGoal] at h
    cases h
    rw [Goal.Scoped]
    exact ⟨hcarries.function f hg.1, fun o ho => hcarries.object o (hg.2 o ho)⟩
  | .equality _ _ _, g', h, _ | .constant _, g', h, _ => by
    rw [substituteGoal] at h
    cases h
    rw [Goal.Scoped]
    trivial

theorem scopedAll_substituteGoals (hcarries : Carries replaced S S') : ∀ {gs gs' : List Goal},
    (substituteGoals replaced gs).run = .ok (some gs') → Goal.ScopedAll S gs →
      Goal.ScopedAll S' gs'
  | [], gs', h, _ => by
    rw [substituteGoals] at h
    cases h
    trivial
  | g :: gs, gs', h, hg => by
    rw [Goal.ScopedAll] at hg
    rw [substituteGoals] at h
    obtain ⟨g', hg', h⟩ := residue_bind_eq_some.mp h
    obtain ⟨gs'', hgs, h⟩ := residue_bind_eq_some.mp h
    cases h
    rw [Goal.ScopedAll]
    exact ⟨scoped_substituteGoal hcarries hg' hg.1, scopedAll_substituteGoals hcarries hgs hg.2⟩

end

mutual

/-- Constraints keep their shape as well, and the names of preferences with it. -/
theorem scoped_substituteConstraint (hcarries : Carries replaced S S') : ∀ {c c' : Constraint},
    (substituteConstraint replaced c).run = .ok (some c') → c.Scoped S → c'.Scoped S'
  | .and cs, c', h, hc => by
    rw [Constraint.Scoped] at hc
    rw [substituteConstraint] at h
    obtain ⟨cs', hcs, h⟩ := residue_bind_eq_some.mp h
    cases h
    rw [Constraint.Scoped]
    exact scopedAll_substituteConstraints hcarries hcs hc
  | .preference nameIndex c, c', h, hc => by
    rw [Constraint.Scoped] at hc
    rw [substituteConstraint] at h
    obtain ⟨c'', hc', h⟩ := residue_bind_eq_some.mp h
    cases h
    rw [Constraint.Scoped]
    exact ⟨hcarries.preference nameIndex hc.1, scoped_substituteConstraint hcarries hc' hc.2⟩
  | .goalPreference nameIndex g, c', h, hc => by
    rw [Constraint.Scoped] at hc
    rw [substituteConstraint] at h
    obtain ⟨g', hg, h⟩ := residue_bind_eq_some.mp h
    cases h
    rw [Constraint.Scoped]
    exact ⟨hcarries.preference nameIndex hc.1, scoped_substituteGoal hcarries hg hc.2⟩
  | .temporal modality times gs, c', h, hc => by
    rw [Constraint.Scoped] at hc
    rw [substituteConstraint] at h
    obtain ⟨gs', hgs, h⟩ := residue_bind_eq_some.mp h
    cases h
    rw [Constraint.Scoped]
    exact forall_mem_of_forall₂ (residue_mapM_eq_some hgs) hc fun g g' h hg =>
      scoped_substituteGoal hcarries h hg

theorem scopedAll_substituteConstraints (hcarries : Carries replaced S S') :
    ∀ {cs cs' : List Constraint}, (substituteConstraints replaced cs).run = .ok (some cs') →
      Constraint.ScopedAll S cs → Constraint.ScopedAll S' cs'
  | [], cs', h, _ => by
    rw [substituteConstraints] at h
    cases h
    trivial
  | c :: cs, cs', h, hc => by
    rw [Constraint.ScopedAll] at hc
    rw [substituteConstraints] at h
    obtain ⟨c', hc', h⟩ := residue_bind_eq_some.mp h
    obtain ⟨cs'', hcs, h⟩ := residue_bind_eq_some.mp h
    cases h
    rw [Constraint.ScopedAll]
    exact ⟨scoped_substituteConstraint hcarries hc' hc.1,
      scopedAll_substituteConstraints hcarries hcs hc.2⟩

end

theorem scoped_substituteMetric (hcarries : Carries replaced S S') {m : Metric} (hm : m.Scoped S) :
    (substituteMetric replaced m).Scoped S' := by
  intro q' hq'
  obtain ⟨q, hq, rfl⟩ := Expression.mem_atoms_fold.mp hq'
  have hscoped := hm q hq
  cases q with
  | var v =>
    rw [substituteMeasure]
    split
    next v' hv => exact hcarries.var v v' hscoped hv
    all_goals trivial
  | isViolated i => exact hcarries.preference i hscoped
  | number x => trivial
  | totalTime => trivial

/-- What is left of a scoped action is scoped. -/
theorem IsRemainder.scoped (hcarries : Carries replaced S S') {a b : Action}
    (h : IsRemainder replaced a b) (ha : a.Scoped S) : b.Scoped S' := by
  have hconditions : ∀ c ∈ a.startConditions ++ a.invariants ++ a.endConditions, c.Scoped S :=
    ha.conditions
  have heffects : ∀ e ∈ a.startEffects ++ a.endEffects, e.Scoped S := ha.effects
  have hnumericConditions : ∀ c ∈ a.startNumericConditions ++ a.numericInvariants ++
      a.endNumericConditions, c.Scoped S := ha.numericConditions
  have hnumericEffects : ∀ e ∈ a.startNumericEffects ++ a.endNumericEffects, e.Scoped S :=
    ha.numericEffects
  simp only [List.forall_mem_append] at hconditions heffects hnumericConditions hnumericEffects
  -- the same two facts serve all time points
  have hcompare : ∀ c c', (substituteNumericCondition replaced c).run = .ok (some c') →
      c.Scoped S → c'.Scoped S' := fun _ _ => scoped_substituteNumericCondition hcarries
  have hassign : ∀ e e', (substituteNumericEffect replaced e).run = .ok (some e') →
      e.Scoped S → e'.Scoped S' := fun _ _ => scoped_substituteNumericEffect hcarries
  constructor
  · exact forall_mem_of_forall₂ h.durations ha.durations fun d d' ⟨_, _, h⟩ hd =>
      scoped_substituteExpression hcarries h hd
  · refine List.forall_mem_append.mpr ⟨List.forall_mem_append.mpr ⟨?_, ?_⟩, ?_⟩
    · exact scoped_substituteConditions hcarries h.startConditions hconditions.1.1
    · exact scoped_substituteConditions hcarries h.invariants hconditions.1.2
    · exact scoped_substituteConditions hcarries h.endConditions hconditions.2
  · refine List.forall_mem_append.mpr ⟨?_, ?_⟩
    · exact scoped_substituteConditions hcarries h.startEffects heffects.1
    · exact scoped_substituteConditions hcarries h.endEffects heffects.2
  · refine List.forall_mem_append.mpr ⟨List.forall_mem_append.mpr ⟨?_, ?_⟩, ?_⟩
    · exact forall_mem_of_forall₂ h.startNumericConditions hnumericConditions.1.1 hcompare
    · exact forall_mem_of_forall₂ h.numericInvariants hnumericConditions.1.2 hcompare
    · exact forall_mem_of_forall₂ h.endNumericConditions hnumericConditions.2 hcompare
  · refine List.forall_mem_append.mpr ⟨?_, ?_⟩
    · exact forall_mem_of_forall₂ h.startNumericEffects hnumericEffects.1 hassign
    · exact forall_mem_of_forall₂ h.endNumericEffects hnumericEffects.2 hassign
  · exact forall_mem_of_forall₂ h.preferences ha.preferences fun q q' ⟨hname, h⟩ hq =>
      ⟨hname ▸ hcarries.preference _ hq.1, scoped_substituteGoal hcarries h hq.2⟩

end Scoped

end TemporalPlanning.Grounding
