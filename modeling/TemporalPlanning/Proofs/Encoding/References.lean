import TemporalPlanning.Proofs.Encoding.ClosedPlaces
import TemporalPlanning.Proofs.Encoding.InitialState
import TemporalPlanning.Proofs.Encoding.Kinds
import TemporalPlanning.Proofs.Encoding.Literals
import TemporalPlanning.Proofs.Expression
import TemporalPlanning.Proofs.FiniteDomain.PermanentMutex
import TemporalPlanning.Proofs.FiniteDomain.References
/-!
Encoded tasks are closed.

Codes are handed out while variables are placed. Afterwards effects and initial values may allow a
variable to be undefined, but take nothing out of a domain; so the place of a proposition remains a
value of its variable, and whatever is built from places refers to what exists. Effects come before
the other parts of an action, as these refer to the domains that effects leave.
-/
set_option autoImplicit false

namespace TemporalPlanning.Encoding

open FiniteDomain Grounding

/-! ## Initial values -/

theorem widens_setProposition {size : Nat} {value : ValueId} {holds : Bool} {time : Float}
    {x x' : Variable} (h : setProposition value holds time x = .ok x') :
    Variable.Widens size x x' := by
  unfold setProposition at h
  split at h
  · exact Variable.widens_addInitialValue h
  split at h
  · exact (Variable.widens_allowUndefined size x).trans (Variable.widens_addInitialValue h)
  · cases h
    exact .refl size x

theorem widens_setDefault {size : Nat} {x x' : Variable} (h : setDefault x = .ok x') :
    Variable.Widens size x x' := by
  unfold setDefault at h
  split at h
  · cases h
    exact .refl size x
  split at h
  · exact Variable.widens_addInitialValue h
  · exact (Variable.widens_allowUndefined size x).trans (Variable.widens_addInitialValue h)

theorem index_addInitialValue {x x' : NumericVariable} {number time : Float}
    (h : x.addInitialValue number time = .ok x') : x'.index = x.index := by
  unfold NumericVariable.addInitialValue at h
  split at h
  · split at h
    · cases h
      rfl
    · cases h
  · cases h
    rfl

namespace Encoder

variable (enc : Encoder)

theorem setInitial_widens (v : Grounded.Variable) (T : Task) :
    (enc.setInitial v).Ensures T fun _ T' => T.Widens T' := by
  unfold setInitial
  split
  · refine forM_widens (fun ⟨time, value⟩ T => ?_) T
    unfold setNumber
    dsimp only
    split
    · exact updateNumericVariable_widens T fun _ _ h => index_addInitialValue h
    · exact Update.ensures_throw
  split
  · refine forM_widens (fun ⟨time, value⟩ T => Update.ensures_bind.mpr (Update.ensures_get.mpr ?_)) T
    split
    · exact updateVariable_widens T fun _ _ h => Variable.widens_addInitialValue h
    · exact Update.ensures_throw
  split
  · exact forM_widens (fun ⟨time, value⟩ T => updateVariable_widens T fun _ _ h =>
      widens_setProposition h) T
  · exact Update.ensures_pure.mpr (.refl T)

/-- Entering initial values takes nothing out of a domain. -/
theorem setInitialValues_widens (T : Task) :
    enc.setInitialValues.Ensures T fun _ T' => T.Widens T' := by
  refine Update.ensures_bind.mpr ((forM_widens enc.setInitial_widens T).mono fun _ T₁ h₁ => ?_)
  refine Update.ensures_bind.mpr (Update.ensures_get.mpr ?_)
  refine Update.ensures_bind.mpr (Update.ensures_lift.mpr fun vars hvars => ?_)
  refine Update.ensures_modify.mpr (h₁.trans (widens_of_forall₂ ?_))
  exact (except_mapM_eq_ok hvars).imp fun _ _ h => widens_setDefault h

/-! ## Places -/

/-- The places of an encoder exist: facts of propositions are values of variables, and numeric
variables are there. -/
structure HasPlacesIn (T : Task) : Prop where
  fact : ∀ v f, enc.placement.fact? v = some f → T.HasValueAt f.var f.value
  numeric : ∀ v n, enc.placement.numeric? v = some n → n < T.numericVars.size

variable {enc} {T T' : Task}

theorem HasPlacesIn.mono (h : enc.HasPlacesIn T) (hext : T.Extends T') : enc.HasPlacesIn T' :=
  ⟨fun v f hf => hext.held _ _ (h.fact v f hf), fun v n hn =>
    Nat.lt_of_lt_of_le (h.numeric v n hn) hext.numericSize⟩

theorem hasValueAt_of_objectFact {v : VarId} {o : ObjectId} {var : Nat} {value : ValueId}
    (h : enc.objectFact T v o = .ok (var, value)) : T.HasValueAt var value := by
  unfold objectFact at h
  split at h
  · cases h
  · split at h
    next hvalue =>
      cases h
      obtain ⟨named, -, hvalue⟩ := Option.bind_eq_some_iff.mp hvalue
      obtain ⟨x, hx, hvalue⟩ := Option.bind_eq_some_iff.mp hvalue
      split at hvalue
      next hhas =>
        cases hvalue
        exact ⟨x, hx, List.contains_iff_mem.mp hhas⟩
      · cases hvalue
    · cases h

/-- The other value of the variable of a fact is one of its values. -/
theorem hasValueAt_of_oppositeOf {f : FactCode} {value : ValueId} (h : oppositeOf T f = .ok value) :
    T.HasValueAt f.var value := by
  unfold oppositeOf at h
  split at h
  next x hx => exact ⟨x, hx, Variable.mem_of_opposite h⟩
  · cases h

section Places

variable (hplaces : enc.HasPlacesIn T)
include hplaces

/-! ## Conditions and effects -/

theorem isClosedIn_condition {c : Grounded.Condition} {d : Condition}
    (h : enc.condition T c = .ok d) : d.IsClosedIn T := by
  unfold condition at h
  split at h
  · obtain ⟨f, hf, h⟩ := except_bind_eq_ok.mp h
    split at h
    · obtain ⟨value, hvalue, h⟩ := except_bind_eq_ok.mp h
      cases h
      exact hasValueAt_of_oppositeOf hvalue
    · cases h
      exact hplaces.fact c.var f (enc.fact_eq_ok hf)
  · obtain ⟨⟨var, value⟩, hplace, h⟩ := except_bind_eq_ok.mp h
    cases h
    exact hasValueAt_of_objectFact hplace

omit hplaces in
/-- A deletion gives a variable falsity or, after making room for it, the value for none. -/
theorem deletion_isClosedIn {f : FactCode} (hf : f.var < T.vars.size) :
    (deletion f).Ensures T fun c T' => T.Widens T' ∧ c.IsClosedIn T' := by
  have hx := Array.getElem?_eq_getElem hf
  refine Update.ensures_bind.mpr (Update.ensures_get.mpr ?_)
  split
  next hboolean =>
    refine Update.ensures_pure.mpr ⟨.refl T, _, hx, ?_⟩
    rw [hx, Option.any_some, Variable.isBoolean, beq_iff_eq] at hboolean
    rw [hboolean]
    exact List.mem_cons_self
  · refine Update.ensures_bind.mpr (Update.Ensures.mono (Update.Ensures.and
      (modifyVariable_widens T fun x _ => Variable.widens_allowUndefined _ x)
      (Update.ensures_modify.mpr ?_)) fun _ T' h' => Update.ensures_pure.mpr h')
    refine ⟨T.vars[f.var].allowUndefined, ?_, ?_⟩
    · show (T.vars.modify _ _)[f.var]? = _
      rw [Array.getElem?_modify, if_pos rfl, hx]
      rfl
    · unfold Variable.allowUndefined
      split
      next hhas => exact List.contains_iff_mem.mp hhas
      · exact List.mem_append_right _ List.mem_cons_self

theorem effect_isClosedIn (together : List Grounded.Condition) (e : Grounded.Condition) :
    (enc.effect together e).Ensures T fun c? T' =>
      T.Widens T' ∧ ∀ c, c? = some c → c.IsClosedIn T' := by
  unfold effect
  split
  · refine Update.ensures_bind.mpr (Update.ensures_lift.mpr fun f hf => ?_)
    split
    · exact Update.ensures_pure.mpr ⟨.refl T, fun c hc => by cases hc⟩
    · obtain ⟨x, hx, -⟩ := hplaces.fact e.var f (enc.fact_eq_ok hf)
      refine Update.ensures_bind.mpr ((deletion_isClosedIn
        (Array.getElem?_eq_some_iff.mp hx).1).mono fun c T' h' => Update.ensures_pure.mpr ?_)
      exact ⟨h'.1, fun d hd => Option.some.inj hd ▸ h'.2⟩
  · refine Update.ensures_bind.mpr (Update.ensures_get.mpr ?_)
    refine Update.ensures_bind.mpr (Update.ensures_lift.mpr fun c hc => Update.ensures_pure.mpr ?_)
    exact ⟨.refl T, fun d hd => Option.some.inj hd ▸ isClosedIn_condition hplaces hc⟩

omit hplaces in
theorem effectsAmong_isClosedIn (together es : List Grounded.Condition) {T : Task}
    (hplaces : enc.HasPlacesIn T) : (enc.effectsAmong together es).Ensures T fun cs T' =>
      T.Widens T' ∧ ∀ c ∈ cs, c.IsClosedIn T' := by
  induction es generalizing T with
  | nil => exact Update.ensures_pure.mpr ⟨.refl T, fun c hc => by cases hc⟩
  | cons e es ih =>
    refine Update.ensures_bind.mpr ((effect_isClosedIn hplaces together e).mono ?_)
    rintro c? T₁ ⟨h₁, hfirst⟩
    refine Update.ensures_bind.mpr ((ih (hplaces.mono h₁.toExtends)).mono ?_)
    rintro cs T₂ ⟨h₂, hothers⟩
    refine Update.ensures_pure.mpr ⟨h₁.trans h₂, fun c hc => ?_⟩
    rcases List.mem_append.mp hc with hc | hc
    · exact (hfirst c (Option.mem_toList.mp hc)).mono h₂.toExtends
    · exact hothers c hc

/-! ## Expressions -/

theorem lt_numericSize {v : VarId} {n : Nat} (h : enc.numericVar v = .ok n) :
    n < T.numericVars.size := by
  unfold numericVar at h
  split at h
  next hn =>
    cases h
    exact hplaces.numeric v n hn
  · cases h

/-- A leaf that becomes a numeric variable becomes an existing one. -/
theorem forall_of_map_numericVar {α : Type} {P : α → Prop} {f : Nat → α} {v : VarId} {q : α}
    (hf : ∀ n, n < T.numericVars.size → P (f n)) (h : (f <$> enc.numericVar v) = .ok q) : P q := by
  rw [map_eq_pure_bind] at h
  obtain ⟨n, hn, h⟩ := except_bind_eq_ok.mp h
  cases h
  exact hf n (lt_numericSize hplaces hn)

theorem isClosedIn_quantity {q : Grounded.Quantity} {q' : Quantity} (h : enc.quantity q = .ok q') :
    q'.IsClosedIn T := by
  cases q with
  | var v => exact forall_of_map_numericVar (f := Quantity.var) hplaces (fun n hn => hn) h
  | object o => cases h
  | number | duration | elapsed =>
    cases h
    trivial

theorem isClosedIn_partialQuantity {q : Grounded.PartialQuantity} {q' : Quantity}
    (h : enc.partialQuantity q = .ok q') : q'.IsClosedIn T := by
  cases q with
  | var v => exact forall_of_map_numericVar (f := Quantity.var) hplaces (fun n hn => hn) h
  | number x =>
    cases h
    trivial
  | ungrounded | term => cases h

theorem isClosedIn_measure {q : Grounded.Measure} {q' : Measure} (h : enc.measure q = .ok q') :
    q'.IsClosedIn T := by
  cases q with
  | var v => exact forall_of_map_numericVar (f := Measure.var) hplaces (fun n hn => hn) h
  | number | totalTime | isViolated =>
    cases h
    trivial

theorem isClosedIn_expression {e : Expression Grounded.Quantity} {e' : Expression Quantity}
    (h : enc.expression e = .ok e') : ∀ q ∈ e'.atoms, q.IsClosedIn T :=
  Expression.forall_mem_atoms_of_mapM (fun _ _ => isClosedIn_quantity hplaces) h

theorem isClosedIn_partialExpression {e : Expression Grounded.PartialQuantity}
    {e' : Expression Quantity} (h : enc.partialExpression e = .ok e') :
    ∀ q ∈ e'.atoms, q.IsClosedIn T :=
  Expression.forall_mem_atoms_of_mapM (fun _ _ => isClosedIn_partialQuantity hplaces) h

/-! ## Goals and constraints -/

omit hplaces in
/-- Negating a goal adds no references. -/
theorem isClosedIn_negate {g : Goal} (h : g.IsClosedIn T) : (negate g).IsClosedIn T := by
  cases h with
  | not h => exact h
  | compare comparator h => exact .compare _ h
  | constant holds => exact .constant _
  | fact h => exact .not (.fact h)
  | and h => exact .not (.and h)
  | or h => exact .not (.or h)
  | timed time h => exact .not (.timed time h)

theorem isClosedIn_fluentGoal {v : VarId} {o : ObjectId} {equal : Bool} {g : Goal}
    (h : enc.fluentGoal T v o equal = .ok g) : g.IsClosedIn T := by
  have heither : ∀ (b : Bool) {fact : Goal}, fact.IsClosedIn T →
      (if b then fact else negate fact).IsClosedIn T := by
    intro b fact hfact
    by_cases hb : b = true
    · rwa [if_pos hb]
    · rw [if_neg hb]
      exact isClosedIn_negate hfact
  unfold fluentGoal at h
  split at h
  · obtain ⟨f, hf, h⟩ := except_bind_eq_ok.mp h
    cases h
    exact heither _ (.fact (hplaces.fact v f (enc.fact_eq_ok hf)))
  · obtain ⟨⟨var, value⟩, hplace, h⟩ := except_bind_eq_ok.mp h
    cases h
    exact heither _ (.fact (hasValueAt_of_objectFact hplace))

end Places

mutual

theorem isClosedIn_goal (hplaces : enc.HasPlacesIn T) : ∀ {g : Grounded.Goal} {g' : Goal},
    enc.goal T g = .ok g' → g'.IsClosedIn T
  | .fluent v o equal, g', h => by
    rw [goal] at h
    exact isClosedIn_fluentGoal hplaces h
  | .and gs, g', h => by
    rw [goal, map_eq_pure_bind] at h
    obtain ⟨gs', hgs, h⟩ := except_bind_eq_ok.mp h
    cases h
    exact .and (isClosedIn_goalList hplaces hgs)
  | .or gs, g', h => by
    rw [goal, map_eq_pure_bind] at h
    obtain ⟨gs', hgs, h⟩ := except_bind_eq_ok.mp h
    cases h
    exact .or (isClosedIn_goalList hplaces hgs)
  | .not g, g', h => by
    rw [goal, map_eq_pure_bind] at h
    obtain ⟨g'', hg, h⟩ := except_bind_eq_ok.mp h
    cases h
    exact isClosedIn_negate (isClosedIn_goal hplaces hg)
  | .compare comparator terms, g', h => by
    rw [goal, map_eq_pure_bind] at h
    obtain ⟨terms', hterms, h⟩ := except_bind_eq_ok.mp h
    cases h
    refine .compare comparator fun e' he' => ?_
    obtain ⟨e, -, he⟩ := exists_of_forall₂ (except_mapM_eq_ok hterms) he'
    exact isClosedIn_partialExpression hplaces he
  | .timed time g, g', h => by
    rw [goal, map_eq_pure_bind] at h
    obtain ⟨g'', hg, h⟩ := except_bind_eq_ok.mp h
    cases h
    exact .timed time (isClosedIn_goal hplaces hg)
  | .constant holds, g', h => by
    rw [goal] at h
    cases h
    exact .constant holds
  | .ungroundedFluent _ _ _ _, g', h | .imply _ _, g', h | .existential _ _, g', h
  | .universal _ _, g', h | .equality _ _ _, g', h => by
    rw [goal] at h
    cases h

theorem isClosedIn_goalList (hplaces : enc.HasPlacesIn T) :
    ∀ {gs : List Grounded.Goal} {gs' : List Goal}, enc.goalList T gs = .ok gs' →
      ∀ g' ∈ gs', g'.IsClosedIn T
  | [], gs', h => by
    rw [goalList] at h
    cases h
    exact fun g' hg' => by cases hg'
  | g :: gs, gs', h => by
    rw [goalList] at h
    obtain ⟨g', hg, h⟩ := except_bind_eq_ok.mp h
    obtain ⟨gs'', hgs, h⟩ := except_bind_eq_ok.mp h
    cases h
    exact List.forall_mem_cons.mpr ⟨isClosedIn_goal hplaces hg, isClosedIn_goalList hplaces hgs⟩

end

mutual

theorem isClosedIn_constraint (hplaces : enc.HasPlacesIn T) :
    ∀ {c : Grounded.Constraint} {c' : Constraint}, enc.constraint T c = .ok c' → c'.IsClosedIn T
  | .and cs, c', h => by
    rw [constraint, map_eq_pure_bind] at h
    obtain ⟨cs', hcs, h⟩ := except_bind_eq_ok.mp h
    cases h
    exact .and (isClosedIn_constraintList hplaces hcs)
  | .preference nameIndex c, c', h => by
    rw [constraint, map_eq_pure_bind] at h
    obtain ⟨c'', hc, h⟩ := except_bind_eq_ok.mp h
    cases h
    exact .preference nameIndex (isClosedIn_constraint hplaces hc)
  | .goalPreference nameIndex g, c', h => by
    rw [constraint, map_eq_pure_bind] at h
    obtain ⟨g', hg, h⟩ := except_bind_eq_ok.mp h
    cases h
    exact .goalPreference nameIndex (isClosedIn_goal hplaces hg)
  | .temporal modality times gs, c', h => by
    rw [constraint, map_eq_pure_bind] at h
    obtain ⟨gs', hgs, h⟩ := except_bind_eq_ok.mp h
    cases h
    exact .temporal modality times (isClosedIn_goalList hplaces hgs)

theorem isClosedIn_constraintList (hplaces : enc.HasPlacesIn T) :
    ∀ {cs : List Grounded.Constraint} {cs' : List Constraint},
      enc.constraintList T cs = .ok cs' → ∀ c' ∈ cs', c'.IsClosedIn T
  | [], cs', h => by
    rw [constraintList] at h
    cases h
    exact fun c' hc' => by cases hc'
  | c :: cs, cs', h => by
    rw [constraintList] at h
    obtain ⟨c', hc, h⟩ := except_bind_eq_ok.mp h
    obtain ⟨cs'', hcs, h⟩ := except_bind_eq_ok.mp h
    cases h
    exact List.forall_mem_cons.mpr ⟨isClosedIn_constraint hplaces hc, isClosedIn_constraintList hplaces hcs⟩

end

theorem isClosedIn_metric (hplaces : enc.HasPlacesIn T) {m : Grounded.Metric} {m' : Metric}
    (h : enc.metric m = .ok m') : ∀ q ∈ m'.expression.atoms, q.IsClosedIn T := by
  obtain ⟨e, he, h⟩ := except_bind_eq_ok.mp h
  cases h
  exact Expression.forall_mem_atoms_of_mapM (fun _ _ => isClosedIn_measure hplaces) he

/-! ## Actions -/

/-- What every result has that an element of a list is encoded to. -/
theorem forall_of_mapM {α β : Type} {f : α → Except Error β} {P : β → Prop} {as : List α}
    {bs : List β} (h : as.mapM f = .ok bs) (hf : ∀ a b, f a = .ok b → P b) : ∀ b ∈ bs, P b := by
  intro b hb
  obtain ⟨a, -, ha⟩ := exists_of_forall₂ (except_mapM_eq_ok h) hb
  exact hf a b ha

section Actions

variable (hplaces : enc.HasPlacesIn T)
include hplaces

theorem isClosedIn_durationBound {d : Grounded.DurationBound} {d' : DurationBound}
    (h : enc.durationBound d = .ok d') : ∀ q ∈ d'.expression.atoms, q.IsClosedIn T := by
  obtain ⟨e, he, h⟩ := except_bind_eq_ok.mp h
  cases h
  exact isClosedIn_expression hplaces he

theorem isClosedIn_numericCondition {c : Grounded.NumericCondition} {c' : NumericCondition}
    (h : enc.numericCondition c = .ok c') : ∀ e ∈ c'.terms, ∀ q ∈ e.atoms, q.IsClosedIn T := by
  obtain ⟨terms, hterms, h⟩ := except_bind_eq_ok.mp h
  cases h
  exact forall_of_mapM hterms fun _ _ => isClosedIn_expression hplaces

theorem isClosedIn_numericEffect {e : Grounded.NumericEffect} {e' : NumericEffect}
    (h : enc.numericEffect e = .ok e') :
    e'.var < T.numericVars.size ∧ ∀ q ∈ e'.expression.atoms, q.IsClosedIn T := by
  obtain ⟨var, hvar, h⟩ := except_bind_eq_ok.mp h
  obtain ⟨expression, hexpression, h⟩ := except_bind_eq_ok.mp h
  cases h
  exact ⟨lt_numericSize hplaces hvar, isClosedIn_expression hplaces hexpression⟩

theorem isClosedIn_preference {p : Grounded.Preference} {p' : Preference}
    (h : enc.preference T p = .ok p') : p'.goal.IsClosedIn T := by
  obtain ⟨g, hg, h⟩ := except_bind_eq_ok.mp h
  cases h
  exact isClosedIn_goal hplaces hg

/-- An action refers to what exists if its effects do. -/
theorem isClosedIn_actionWith {a : Grounded.Action} {startEffects endEffects : List Condition}
    (heffects : ∀ c ∈ startEffects ++ endEffects, c.IsClosedIn T) {b : Action}
    (h : enc.actionWith T a startEffects endEffects = .ok b) : b.IsClosedIn T := by
  unfold actionWith at h
  obtain ⟨durations, hdurations, h⟩ := except_bind_eq_ok.mp h
  obtain ⟨startConditions, hstart, h⟩ := except_bind_eq_ok.mp h
  obtain ⟨invariants, hinvariants, h⟩ := except_bind_eq_ok.mp h
  obtain ⟨endConditions, hend, h⟩ := except_bind_eq_ok.mp h
  obtain ⟨startNumeric, hstartNumeric, h⟩ := except_bind_eq_ok.mp h
  obtain ⟨numericInvariants, hnumericInvariants, h⟩ := except_bind_eq_ok.mp h
  obtain ⟨endNumeric, hendNumeric, h⟩ := except_bind_eq_ok.mp h
  obtain ⟨startNumericEffects, hstartEffects, h⟩ := except_bind_eq_ok.mp h
  obtain ⟨endNumericEffects, hendEffects, h⟩ := except_bind_eq_ok.mp h
  obtain ⟨preferences, hpreferences, h⟩ := except_bind_eq_ok.mp h
  cases h
  -- marking a condition as modified does not change what it is about
  have hconditions : ∀ {cs : List Grounded.Condition} {cs' : List Condition}
      {mark : Condition → Condition}, cs.mapM (enc.condition T) = .ok cs' →
      (∀ c, (mark c).var = c.var ∧ (mark c).value = c.value) →
        ∀ c ∈ cs'.map mark, c.IsClosedIn T := by
    intro cs cs' mark hcs hmark c hc
    obtain ⟨d, hd, rfl⟩ := List.mem_map.mp hc
    rw [Condition.IsClosedIn, (hmark d).1, (hmark d).2]
    exact forall_of_mapM hcs (fun _ _ => isClosedIn_condition hplaces) d hd
  have hnumeric : ∀ {cs : List Grounded.NumericCondition} {cs' : List NumericCondition},
      cs.mapM enc.numericCondition = .ok cs' →
        ∀ c ∈ cs', ∀ e ∈ c.terms, ∀ q ∈ e.atoms, q.IsClosedIn T := fun hcs =>
    forall_of_mapM hcs fun _ _ => isClosedIn_numericCondition hplaces
  have hnumericEffects : ∀ {es : List Grounded.NumericEffect} {es' : List NumericEffect},
      es.mapM enc.numericEffect = .ok es' →
        ∀ e ∈ es', e.var < T.numericVars.size ∧ ∀ q ∈ e.expression.atoms, q.IsClosedIn T :=
    fun hes => forall_of_mapM hes fun _ _ => isClosedIn_numericEffect hplaces
  refine ⟨forall_of_mapM hdurations fun _ _ => isClosedIn_durationBound hplaces, ?_, ?_, heffects,
    ?_, forall_of_mapM hpreferences fun _ _ => isClosedIn_preference hplaces⟩
  · refine List.forall_mem_append.mpr ⟨List.forall_mem_append.mpr ⟨?_, ?_⟩, ?_⟩
    · exact hconditions hstart fun _ => ⟨rfl, rfl⟩
    · exact hconditions hinvariants fun _ => ⟨rfl, rfl⟩
    · exact hconditions hend fun _ => ⟨rfl, rfl⟩
  · exact List.forall_mem_append.mpr ⟨List.forall_mem_append.mpr ⟨hnumeric hstartNumeric,
      hnumeric hnumericInvariants⟩, hnumeric hendNumeric⟩
  · exact List.forall_mem_append.mpr ⟨hnumericEffects hstartEffects, hnumericEffects hendEffects⟩

/-- **An encoded action refers to what exists**, once domains have room for its effects. -/
theorem action_isClosedIn (a : Grounded.Action) : (enc.action a).Ensures T fun b T' =>
    T.Widens T' ∧ b.IsClosedIn T' := by
  refine Update.ensures_bind.mpr ((effectsAmong_isClosedIn a.startEffects _ hplaces).mono ?_)
  rintro startEffects T₁ ⟨h₁, hstart⟩
  refine Update.ensures_bind.mpr ((effectsAmong_isClosedIn a.endEffects _
    (hplaces.mono h₁.toExtends)).mono ?_)
  rintro endEffects T₂ ⟨h₂, hend⟩
  have hplaces₂ := hplaces.mono (h₁.trans h₂).toExtends
  refine Update.ensures_bind.mpr (Update.ensures_get.mpr (Update.ensures_lift.mpr fun b hb => ?_))
  refine ⟨h₁.trans h₂, isClosedIn_actionWith hplaces₂ (List.forall_mem_append.mpr ⟨?_, hend⟩) hb⟩
  exact fun c hc => (hstart c hc).mono h₂.toExtends

end Actions

/-! ## All constructs -/

theorem constructs_ignoresTables : IgnoresTables Task.constructs :=
  ⟨fun _ _ => rfl, fun _ _ => rfl, fun _ _ => rfl⟩

variable (enc)

/-- What is built is closed, and places remain for what is built next. -/
structure HasClosedBuild (T : Task) : Prop extends T.HasClosedConstructs where
  places : enc.HasPlacesIn T

variable {enc}

/-- An action or goal is encoded on top of what is there. -/
theorem HasClosedBuild.action (h : enc.HasClosedBuild T) (a : Grounded.Action) :
    (enc.action a).Ensures T fun b T' => enc.HasClosedBuild T' ∧ b.IsClosedIn T' := by
  refine ((action_isClosedIn h.places a).and
    (enc.action_keeps constructs_ignoresTables.domains a T)).mono ?_
  rintro b T' ⟨⟨hwidens, hb⟩, hsame⟩
  exact ⟨⟨h.of_constructs_eq (h.widen hwidens) hwidens.toExtends hsame,
    h.places.mono hwidens.toExtends⟩, hb⟩

theorem createActions_hasClosedBuild (h : enc.HasClosedBuild T) (actions : List Grounded.Action) :
    Update.Ensures (actions.forM fun a => do discard (createAction (← enc.action a))) T
      fun _ T' => enc.HasClosedBuild T' := by
  refine Update.ensures_forM (fun a _ T h => Update.ensures_bind.mpr ?_) h
  refine (h.action a).mono fun b T₁ ⟨h₁, hb⟩ => Update.ensures_map.mpr ?_
  refine Update.ensures_bind.mpr (Update.ensures_get.mpr ?_)
  refine Update.ensures_bind.mpr (Update.ensures_modify.mpr (Update.ensures_pure.mpr ?_))
  have hadded : AreClosedIn T₁ (T₁.actions.push { b with index := T₁.actions.size }) :=
    h₁.actions.push rfl ⟨hb.durations, hb.conditions, hb.numericConditions, hb.effects,
      hb.numericEffects, hb.preferences⟩
  exact ⟨.exchange h₁.toHasClosedTables rfl hadded h₁.goals h₁.constraints h₁.metric h₁.mutex,
    h₁.places.mono (.of_eq rfl rfl)⟩

theorem createGoals_hasClosedBuild (h : enc.HasClosedBuild T) (goals : List Grounded.Action) :
    Update.Ensures (goals.forM fun a => do discard (createGoal (← enc.action a))) T
      fun _ T' => enc.HasClosedBuild T' := by
  refine Update.ensures_forM (fun a _ T h => Update.ensures_bind.mpr ?_) h
  refine (h.action a).mono fun b T₁ ⟨h₁, hb⟩ => Update.ensures_map.mpr ?_
  refine Update.ensures_bind.mpr (Update.ensures_get.mpr ?_)
  refine Update.ensures_bind.mpr (Update.ensures_modify.mpr (Update.ensures_pure.mpr ?_))
  have hadded : AreClosedIn T₁ (T₁.goals.push
      { b with index := T₁.goals.size, name := goalName, isGoal := true }) :=
    h₁.goals.push rfl ⟨hb.durations, hb.conditions, hb.numericConditions, hb.effects,
      hb.numericEffects, hb.preferences⟩
  exact ⟨.exchange h₁.toHasClosedTables rfl h₁.actions hadded h₁.constraints h₁.metric h₁.mutex,
    h₁.places.mono (.of_eq rfl rfl)⟩

/-- Facts of two propositions become mutex; both are places. -/
theorem addMutexPair_hasClosedBuild (h : enc.HasClosedBuild T) (v w : VarId) :
    (enc.addMutexPair v w).Ensures T fun _ T' => enc.HasClosedBuild T' := by
  unfold addMutexPair
  split
  next c d hc hd =>
    split
    · exact Update.ensures_pure.mpr h
    · refine Update.ensures_modify.mpr ⟨.exchange h.toHasClosedTables rfl h.actions h.goals
        h.constraints h.metric fun f g hfg => ?_, h.places.mono (.of_eq rfl rfl)⟩
      have hpair : ArePairedIn T c d := ⟨h.places.fact v c hc, h.places.fact w d hd⟩
      rcases (Update.ensures_modify.mp (isMutex_addMutex T c d f g)).mp hfg with
        hold | ⟨rfl, rfl⟩ | ⟨rfl, rfl⟩
      · exact h.mutex f g hold
      · exact hpair
      · exact ⟨hpair.2, hpair.1⟩
  · exact Update.ensures_pure.mpr h

/-- **Constructs are added to a closed task.** -/
theorem addConstructs_hasClosedBuild (h : enc.HasClosedBuild T) (actions : List Grounded.Action)
    (mutex : Mutex.Relation) :
    (enc.addConstructs actions mutex).Ensures T fun _ T' => enc.HasClosedBuild T' := by
  refine Update.ensures_bind.mpr ((createActions_hasClosedBuild h actions).mono fun _ T₁ h₁ => ?_)
  refine Update.ensures_bind.mpr ((createGoals_hasClosedBuild h₁ _).mono fun _ T₂ h₂ => ?_)
  refine Update.ensures_bind.mpr (Update.ensures_get.mpr ?_)
  refine Update.ensures_bind.mpr (Update.ensures_lift.mpr fun constraints hconstraints => ?_)
  refine Update.ensures_bind.mpr (Update.ensures_lift.mpr fun metric hmetric => ?_)
  refine Update.ensures_bind.mpr (Update.ensures_modify.mpr ?_)
  refine Update.ensures_forM (fun ⟨v, w⟩ _ T h => addMutexPair_hasClosedBuild h v w)
    ⟨.exchange h₂.toHasClosedTables rfl h₂.actions h₂.goals
      (isClosedIn_constraintList h₂.places hconstraints) (fun m hm => ?_) h₂.mutex,
      h₂.places.mono (.of_eq rfl rfl)⟩
  -- the metric has been encoded if there is one
  obtain rfl : metric = some m := hm
  cases hgrounded : enc.grounded.metric with
  | none =>
    rw [hgrounded] at hmetric
    cases hmetric
  | some m₀ =>
    rw [hgrounded, Option.mapM_some, map_eq_pure_bind] at hmetric
    obtain ⟨m', hm', hmetric⟩ := except_bind_eq_ok.mp hmetric
    cases hmetric
    exact isClosedIn_metric h₂.places hm'

end Encoder

/-! ## Derived data -/

theorem derive_keepsMetric (keepStatic : Bool) : (derive keepStatic).Keeps Task.metric := by
  refine Update.Keeps.bind (Update.keeps_modify fun _ => rfl) fun _ => ?_
  refine (computeRequirers_keeps (fun _ _ => rfl) fun _ _ => rfl).bind fun _ => ?_
  refine (computeProducers_keeps fun _ _ => rfl).bind fun _ => ?_
  refine (computePermanentMutex_keeps (fun _ _ => rfl) fun _ _ => rfl).bind fun _ => ?_
  exact computeCosts_keeps (fun _ => rfl) (fun _ _ => rfl) (fun _ _ _ _ => rfl) keepStatic

/-- Facts that exclude each other permanently are mutex. -/
theorem derive_permanentMutex {T : Task} (hnumbered : T.HasNumberedActions) (keepStatic : Bool) :
    (derive keepStatic).Ensures T fun _ T' =>
      ∀ f g, T'.isPermanentMutex f g = true → T'.isMutex f g = true := by
  refine Update.ensures_bind.mpr (Update.ensures_modify.mpr ?_)
  refine Update.ensures_bind.mpr ((computeRequirers_ensures _).mono fun _ T₁ ⟨hactions, h₁⟩ => ?_)
  have hproducers : computeProducers.Keeps fun t => (t.actions, t.requirers) :=
    computeProducers_keeps fun _ _ => rfl
  refine Update.ensures_bind.mpr ((hproducers T₁).mono fun _ T₂ h₂ => ?_)
  obtain ⟨hactions₂, hrequirers₂⟩ := Prod.mk.inj h₂
  have hindex : T₂.HasRequirers := by
    unfold Task.HasRequirers
    rw [hactions₂, hrequirers₂]
    exact h₁
  have hnumbered₂ : T₂.HasNumberedActions := by
    unfold Task.HasNumberedActions
    rw [hactions₂, hactions]
    exact hnumbered
  refine Update.ensures_bind.mpr ((computePermanentMutex_ensures hindex hnumbered₂).mono ?_)
  rintro _ T₃ ⟨-, hmutex, hpermanent⟩
  -- computing costs concerns neither kind of mutex facts
  have hcosts : (computeCosts keepStatic).Keeps fun t => (t.mutex, t.permanentMutex) :=
    computeCosts_keeps (fun _ => rfl) (fun _ _ => rfl) (fun _ _ _ _ => rfl) keepStatic
  refine (hcosts T₃).mono fun _ T₄ h₄ f g hfg => ?_
  obtain ⟨hmutex₄, hpermanent₄⟩ := Prod.mk.inj h₄
  rw [Task.isPermanentMutex, hpermanent₄] at hfg
  rw [Task.isMutex, hmutex₄, hmutex]
  exact ((hpermanent f g).mp hfg).1

/-- What is derived from a closed task refers to what exists as well. -/
theorem derive_isClosed {T : Task} (h : T.HasClosedConstructs) (keepStatic : Bool) :
    (derive keepStatic).Ensures T fun _ T' => T'.IsClosed := by
  have hnumbered : T.HasNumberedActions := fun i a ha => (h.actions i a ha).1
  refine (((derive_ensures keepStatic T).and (derive_aims keepStatic T)).and
    (((derive_keepsMutex keepStatic T).and (derive_keepsMetric keepStatic T)).and
      ((derive_initialState keepStatic T).and
        (derive_permanentMutex hnumbered keepStatic)))).mono ?_
  rintro _ T' ⟨⟨⟨-, hactions⟩, hgoals, hconstraints⟩, ⟨hmutex, hmetric⟩, ⟨htables, hinitial⟩,
    hpermanent⟩
  have hclosedGoals : AreClosedIn T T'.goals := by
    intro i b hb
    rw [hgoals, Array.getElem?_map] at hb
    obtain ⟨a, ha, rfl⟩ := Option.map_eq_some_iff.mp hb
    obtain ⟨hindex, hclosed⟩ := h.goals i a ha
    have hsame : a.SameButCost { a with cost := goalCost } := rfl
    exact ⟨hindex, (hclosed.of_sameButCost hsame).2⟩
  have hclosed : T'.HasClosedConstructs := by
    refine .exchange h.toHasClosedTables htables (h.actions.of_sameButCost hactions) hclosedGoals
      (fun c hc => h.constraints c (hconstraints ▸ hc)) (fun m hm => h.metric m ?_)
      fun f g hfg => h.mutex f g ?_
    · exact hmetric ▸ hm
    · rwa [Task.isMutex, hmutex] at hfg
  exact ⟨hclosed, fun f g hfg => hclosed.mutex f g (hpermanent f g hfg),
    fun i value hvalue => hclosed.hasValueAt_of_initialState hinitial hvalue⟩

/-! ## Encoded tasks -/

/-- **Encoded tasks are closed**, if names tell objects apart, and propositions. -/
theorem encode_isClosed {p : Lifted.Problem} {keepStatic : Bool} {t : Grounded.Task}
    (hground : Grounding.ground p keepStatic = .ok t) (hnames : HasDistinctNames t) {o : Options}
    {T : Task} (hencode : (encode t o).result = .ok T) : T.IsClosed := by
  have ht := (Grounding.ground_isOrderly hground).numbered
  obtain ⟨q, T₀, T₁, T₂, hplace, hinitial, hconstructs, hderive⟩ := encode_phases hencode
  have hover := Mutex.isOver_fixpoint t o.passLimit
  have hproposition : ∀ {v}, Mutex.isMarked (Mutex.propositions t) v = true →
      t.isProposition v = true := fun hv => (Mutex.isMarked_propositions ht _).mp hv
  -- mutex propositions are different, and so are their names
  have hdifferent : ∀ v w, (Mutex.fixpoint t o.passLimit).mutex.Lists v w →
      t.varName v ≠ t.varName w := by
    intro v w hlisted hname
    obtain ⟨hne, hv, hw⟩ := hover.of_contains ((hover.contains_iff v w).mpr hlisted)
    exact hne (hnames.varName_inj ht (hproposition hv) (hproposition hw) hname)
  have htables₀ := place_closedTables t hnames.objects o hdifferent _ q T₀ hplace
  obtain ⟨-, hshares, -⟩ := place_ensures t o hover _ q T₀ hplace
  have hplaces₀ : Encoder.HasPlacesIn ⟨t, Mutex.propositions t, q⟩ T₀ :=
    ⟨hshares.held hdifferent, (place_hasKinds ht o _ _ _ q T₀ hplace).numeric_lt⟩
  have hwidens := Encoder.setInitialValues_widens _ T₀ () T₁ hinitial
  -- nothing has been built on the tables yet
  have hnothing : T₁.constructs = Task.empty.constructs :=
    (Encoder.setInitialValues_keeps _ Encoder.constructs_ignoresTables T₀ () T₁ hinitial).trans
      (place_keeps t Encoder.constructs_ignoresTables.placing o _ _ _ .empty q T₀ hplace)
  have hstart : Encoder.HasClosedBuild ⟨t, Mutex.propositions t, q⟩ T₁ :=
    ⟨(htables₀.widen hwidens).hasClosedConstructs hnothing, hplaces₀.mono hwidens.toExtends⟩
  have hbuilt := Encoder.addConstructs_hasClosedBuild hstart _ _ () T₂ hconstructs
  exact derive_isClosed hbuilt.toHasClosedConstructs o.keepStatic () T hderive

/-- A delivery has a variable whose domain is extended when its initial value is entered, and mutex
facts. Its action refers to both. -/
theorem isClosed_delivery : ∃ (t : Grounded.Task) (T : Task) (x : Variable),
    Grounding.ground delivery true = .ok t ∧ HasDistinctNames t ∧ (encode t {}).result = .ok T ∧
      T.vars[0]? = some x ∧ x.domain = [⟨3⟩, .undefined] ∧ T.mutex.isEmpty = false ∧
      T.actions.size = 1 ∧ T.IsClosed := by
  have hrun : ∃ t ∈ (Grounding.ground delivery true).toOption, HasDistinctNames t ∧
      ∃ T ∈ (encode t {}).result.toOption, ∃ x ∈ T.vars[0]?, x.domain = [⟨3⟩, .undefined] ∧
        T.mutex.isEmpty = false ∧ T.actions.size = 1 := by
    decide +kernel
  obtain ⟨t, ht, hnames, T, hT, x, hx, hdomain, hmutex, hactions⟩ := hrun
  have hground := Grounding.eq_ok_of_mem_toOption ht
  have hencode := Grounding.eq_ok_of_mem_toOption hT
  exact ⟨t, T, x, hground, hnames, hencode, hx, hdomain, hmutex, hactions,
    encode_isClosed hground hnames hencode⟩

end TemporalPlanning.Encoding
