import TemporalPlanning.Proofs.Grounding.Removal
/-!
What is constant in a grounded task.

Substituting variables folds every operation whose value is known without a state, so an expression
that is left either is a number or has no such value. Whatever a pass has looked at therefore shows
its constant parts as plain numbers, and comparisons of plain numbers are decided: no action or goal
that cannot be carried out because of constants alone is left.

Whether there is such a pass depends on the variables: if none of them is static, expressions stay
as they are written, and only conditions between plain numbers are decided.
-/
set_option autoImplicit false

namespace TemporalPlanning.Grounded

/-- A condition compares two numbers that do not depend on a state, and fails. -/
def NumericCondition.FailsAlways (c : NumericCondition) : Prop :=
  ∃ l r x y, c.terms = [l, r] ∧ evaluate none l = .ok (some x) ∧ evaluate none r = .ok (some y) ∧
    c.comparator.holds x y = false

/-- The only bound on the duration of an action is an upper bound that does not depend on a state
and is not positive. -/
def Action.HasNoDuration (a : Action) : Prop :=
  ∃ d x, a.durations = [d] ∧ d.comparator ∈ [.eq, .less, .lessEq] ∧
    evaluate none d.expression = .ok (some x) ∧ x ≤ 0.0

/-- An expression that has a value without a state is written as a number. -/
def IsFolded (e : Expression Quantity) : Prop :=
  ∀ x, evaluate none e = .ok (some x) → e = .atom (.number x)

theorem evaluate_number (duration : Option Float) (x : Float) :
    evaluate duration (.atom (.number x)) = .ok (some x) := rfl

theorem isFolded_atom (q : Quantity) : IsFolded (.atom q) := by
  intro x h
  have hvalue : q.value? none = some x := Except.ok.inj h
  cases q <;> cases hvalue
  rfl

/-- A folded condition that fails for constants is one between plain numbers. -/
theorem NumericCondition.isViolated_of_failsAlways {c : NumericCondition}
    (hfolded : ∀ e ∈ c.terms, IsFolded e) (h : c.FailsAlways) : c.isViolated = true := by
  obtain ⟨l, r, x, y, hterms, hl, hr, hfails⟩ := h
  rw [hterms] at hfolded
  obtain rfl := hfolded l (by simp) x hl
  obtain rfl := hfolded r (by simp) y hr
  rw [isViolated, hterms]
  simp [hfails]

end TemporalPlanning.Grounded

namespace TemporalPlanning.Grounding

open Grounded

/-! ## Folding -/

section Folding

variable {replaced : Array Replacement}

theorem isFolded_of_substituteQuantity {q : Quantity} {e : Expression Quantity}
    (h : (substituteQuantity replaced q).run = .ok (some e)) : IsFolded e := by
  -- whatever stands for a leaf is a leaf
  have hatom : ∃ q', e = .atom q' := by
    unfold substituteQuantity at h
    split at h
    · split at h <;> cases h <;> exact ⟨_, rfl⟩
    · cases h
      exact ⟨_, rfl⟩
  obtain ⟨q', rfl⟩ := hatom
  exact isFolded_atom q'

theorem isFolded_of_foldConstants {op : Operation} {es : List (Expression Quantity)}
    {e : Expression Quantity} (h : (foldConstants op es).run = .ok (some e)) : IsFolded e := by
  obtain ⟨n?, hevaluate, h⟩ := residue_bind_eq_some.mp h
  obtain ⟨n?', hevaluate, hn⟩ := except_bind_eq_ok.mp hevaluate
  cases hn
  cases n? with
  | some n =>
    cases h
    exact isFolded_atom _
  | none =>
    -- an operation that stays has no value
    cases h
    intro x hx
    rw [hevaluate] at hx
    cases hx

/-- **What is left of an expression is folded.** -/
theorem isFolded_of_substituteExpression {e e' : Expression Quantity}
    (h : (substituteExpression replaced e).run = .ok (some e')) : IsFolded e' :=
  Expression.foldM_induction (R := fun _ r => IsFolded r)
    (fun _ _ hq => isFolded_of_substituteQuantity hq)
    (fun _ _ _ _ _ hop => isFolded_of_foldConstants hop) h

theorem isFolded_of_substituteNumericCondition {c c' : NumericCondition}
    (h : (substituteNumericCondition replaced c).run = .ok (some c')) :
    ∀ e ∈ c'.terms, IsFolded e := by
  obtain ⟨terms, hterms, h⟩ := residue_bind_eq_some.mp h
  dsimp only at h
  split at h
  · cases h
  · cases h
    intro e he
    obtain ⟨e₀, -, he₀⟩ := exists_of_forall₂ (residue_mapM_eq_some hterms) he
    exact isFolded_of_substituteExpression he₀

end Folding

/-! ## Actions that a pass has looked at -/

section Examined

variable {a b : Action}

theorem IsExamined.not_failsAlways (h : IsExamined a) :
    ∀ c ∈ a.numericConditions, ¬c.FailsAlways := by
  intro c hc hfails
  obtain ⟨replaced, a₀, hremainder⟩ := h.remainder
  obtain ⟨c₀, hc₀⟩ := hremainder.exists_numericCondition hc
  have hviolated := c.isViolated_of_failsAlways (isFolded_of_substituteNumericCondition hc₀) hfails
  rw [h.isViolated c hc] at hviolated
  cases hviolated

/-- A folded bound that leaves no duration shows that it does. -/
theorem hasNoDuration_eq_true {d : DurationBound} {x : Float}
    (hcomparator : d.comparator ∈ [.eq, .less, .lessEq]) (he : d.expression = .atom (.number x))
    (hx : x ≤ 0.0) : hasNoDuration [d] = true := by
  obtain ⟨time, comparator, expression⟩ := d
  cases he
  simp only [List.mem_cons, List.not_mem_nil, or_false] at hcomparator
  simp only [hasNoDuration, Bool.and_eq_true, Bool.or_eq_true, beq_iff_eq, decide_eq_true_eq]
  exact ⟨hx, by tauto⟩

theorem IsExamined.not_hasNoDuration (h : IsExamined a) : ¬a.HasNoDuration := by
  rintro ⟨d, x, hd, hcomparator, hvalue, hx⟩
  obtain ⟨replaced, a₀, hremainder⟩ := h.remainder
  obtain ⟨d₀, -, -, -, hd₀⟩ := exists_of_forall₂ hremainder.durations
    (hd ▸ List.mem_singleton_self d : d ∈ a.durations)
  have hnone := hasNoDuration_eq_true hcomparator (isFolded_of_substituteExpression hd₀ x hvalue) hx
  rw [← hd, h.duration] at hnone
  cases hnone

end Examined

/-! ## Grounded tasks -/

section Tasks

variable {p : Lifted.Problem} {t : Task} {a b : Action}

/-- Deciding numeric conditions does not bring in anything that constants rule out. -/
theorem IsDecided.not_failsAlways (h : IsDecided a b)
    (ha : ∀ c ∈ a.numericConditions, ¬c.FailsAlways) : ∀ c ∈ b.numericConditions, ¬c.FailsAlways :=
  fun c hc => ha c (h.subset hc)

theorem IsDecided.not_hasNoDuration (h : IsDecided a b) (ha : ¬a.HasNoDuration) :
    ¬b.HasNoDuration := by
  rw [h.eq]
  exact ha

/-- An action that is left after the passes comes from one that is left by them. -/
theorem exists_isDecided_of_mem (ha : a ∈ (decideNumericConditions t).actions) :
    ∃ a₀ ∈ t.actions, IsDecided a₀ a := by
  obtain ⟨i, hi⟩ := List.mem_iff_getElem?.mp ha
  replace hi : (renumber (t.actions.filterMap decideConditions))[i]? = some a := hi
  rw [getElem?_renumber] at hi
  obtain ⟨b, hb, rfl⟩ := Option.map_eq_some_iff.mp hi
  obtain ⟨a₀, ha₀, hdecided⟩ := List.mem_filterMap.mp (List.mem_of_getElem? hb)
  have hb := isDecided_of_decideConditions hdecided
  exact ⟨a₀, ha₀, congrArg (fun b => { b with index := i }) hb.eq, hb.subset, hb.isConstant⟩

/-- **No action or goal of a grounded task is ruled out by constants** if a static variable has been
removed. Otherwise no condition of an action compares two plain numbers. -/
theorem ground_decides_constants (h : ground p false = .ok t) :
    (∀ a ∈ t.actions, ∀ c ∈ a.numericConditions, c.isConstant = false) ∧
    (0 < t.stats.staticVariables → ∀ a ∈ t.actions ++ t.goals,
      (∀ c ∈ a.numericConditions, ¬c.FailsAlways) ∧ ¬a.HasNoDuration) := by
  obtain ⟨saturated, reduced, -, rfl, -, hlast⟩ := exists_reduced_of_ground h
  constructor
  · intro a ha
    obtain ⟨a₀, -, hdecided⟩ := exists_isDecided_of_mem ha
    exact hdecided.isConstant
  · intro hstatic a ha
    rcases hlast with ⟨-, hnone, -⟩ | ⟨-, hexamined⟩
    · exact absurd hnone (Nat.ne_of_gt hstatic)
    rcases List.mem_append.mp ha with ha | ha
    · obtain ⟨a₀, ha₀, hdecided⟩ := exists_isDecided_of_mem ha
      have ha₀ := hexamined a₀ (List.mem_append_left _ ha₀)
      exact ⟨hdecided.not_failsAlways ha₀.not_failsAlways,
        hdecided.not_hasNoDuration ha₀.not_hasNoDuration⟩
    · have ha := hexamined a (List.mem_append_right _ ha)
      exact ⟨ha.not_failsAlways, ha.not_hasNoDuration⟩

end Tasks

open Lifted in
/-- A flash lasts no time at all. The power, about which there may be a fact, has nothing to do with
it. -/
def flash (facts : List Nat) : Problem where
  task := .ofPropositions ["lit", "power"] facts
  operators := [
    { Operator.ofHappenings "flash" ⟨[], [], [.ofProposition 0 .truth], []⟩ .empty with
      durations := [⟨.unspecified, .eq, .atom (.number 0.0)⟩] }]

/-- With a fact about the power, the flash is dropped. -/
theorem flash_is_dropped : ∃ t, ground (flash [1]) false = .ok t ∧ t.stats.staticVariables = 2 ∧
    t.stats.droppedActions = 1 ∧ ∀ a ∈ t.actions ++ t.goals, ¬a.HasNoDuration := by
  have hrun : ∃ t ∈ (ground (flash [1]) false).toOption,
      t.stats.staticVariables = 2 ∧ t.stats.droppedActions = 1 := by decide +kernel
  obtain ⟨t, ht, hstatic, hdropped⟩ := hrun
  have hground := eq_ok_of_mem_toOption ht
  have hdecided := (ground_decides_constants hground).2 (by omega)
  exact ⟨t, hground, hstatic, hdropped, fun a ha => (hdecided a ha).2⟩

/-- Without it there is no static variable, so no pass looks at the flash, and it is left. -/
theorem exists_flash_left : ∃ t, ground (flash []) false = .ok t ∧ t.stats.staticVariables = 0 ∧
    ∃ a ∈ t.actions, a.name = "flash" ∧ a.HasNoDuration := by
  have hrun : ∃ t ∈ (ground (flash []) false).toOption, t.stats.staticVariables = 0 ∧
      ∃ a ∈ t.actions, a.name = "flash" ∧ hasNoDuration a.durations = true := by decide +kernel
  obtain ⟨t, ht, hstatic, a, ha, hname, hnone⟩ := hrun
  obtain ⟨d, x, hd, hcomparator, he, hx⟩ := of_hasNoDuration hnone
  exact ⟨t, eq_ok_of_mem_toOption ht, hstatic, a, ha, hname, d, x, hd, hcomparator,
    by rw [he, evaluate_number], hx⟩

end TemporalPlanning.Grounding
