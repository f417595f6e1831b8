import TemporalPlanning.Proofs.Grounding.Guarded.Goals
import TemporalPlanning.Proofs.Grounding.ScopedActions
/-!
Instances of valid operators are built without errors.

A term that is checked with as many parameters as there are arguments denotes an object of the
table, so no parameter is unbound. The parts of an instance create sorted variables only, and the
goals of its preferences, which are grounded but not yet resolved, are closed. The only error that
may be reported is a comparison of durations in such a goal.
-/
set_option autoImplicit false

namespace TemporalPlanning.Grounding

open Grounded

variable {task : Lifted.Task} {arguments : List ObjectId} {context : String} {E : Error → Prop}

/-- A missing variable is no error: the attempt comes to nothing. -/
theorem existingVariable_safe (f : FunctionId) (as : List ObjectId) :
    (existingVariable f as).Safe E (·.HasSortedVariables task) fun _ => True :=
  Attempt.Safe.bind (Attempt.safe_step Step.safe_get) fun s _ _ hs =>
    ⟨fun _ hrun => (by cases hrun), fun _ _ hrun => by cases hrun; exact ⟨hs, fun _ _ => trivial⟩⟩

section Parts

variable (hobjects : ∀ o ∈ arguments, o.index < task.objects.size)
include hobjects

/-! ## Terms -/

/-- A parameter that has been checked has an argument, and a constant is an object of the table. -/
theorem exists_bind_of_check {t : Lifted.Term}
    (h : task.checkTerm context arguments.length t = .ok ()) :
    ∃ o, bind arguments t = .ok o ∧ o.index < task.objects.size := by
  cases t with
  | object o =>
    have ho : o.index < task.objects.size := isSoundTerm_of_check h
    exact ⟨o, rfl, ho⟩
  | param i =>
    have hi : i < arguments.length := isSoundTerm_of_check h
    refine ⟨arguments[i], ?_, hobjects _ (List.getElem_mem hi)⟩
    rw [bind, List.getElem?_eq_getElem hi]

/-- Terms are bound one after the other, each to an object of the table. -/
theorem exists_bindAll_of_check {ts : List Lifted.Term}
    (h : ∀ t ∈ ts, task.checkTerm context arguments.length t = .ok ()) :
    ∃ os, bindAll arguments ts = .ok os ∧ os.length = ts.length ∧
      ∀ o ∈ os, o.index < task.objects.size := by
  induction ts with
  | nil => exact ⟨[], rfl, rfl, fun o ho => by cases ho⟩
  | cons t ts ih =>
    obtain ⟨ht, hts⟩ := List.forall_mem_cons.mp h
    obtain ⟨o, hbind, ho⟩ := exists_bind_of_check hobjects ht
    obtain ⟨os, hbinds, hlength, hos⟩ := ih hts
    refine ⟨o :: os, ?_, by rw [List.length_cons, List.length_cons, hlength],
      List.forall_mem_cons.mpr ⟨ho, hos⟩⟩
    rw [bindAll] at hbinds ⊢
    rw [List.mapM_cons, hbind, hbinds]
    rfl

/-- The arguments of a valid literal denote those of a sorted variable. -/
theorem exists_bindAll_of_checkLiteral {l : Lifted.Literal}
    (h : task.checkLiteral context arguments.length l = .ok ()) :
    ∃ os, bindAll arguments l.arguments = .ok os ∧
      ∀ o, o.index < task.objects.size → IsSorted task ⟨l.function, os, o⟩ := by
  obtain ⟨hfunction, harguments⟩ := check_bind_eq_ok.mp h
  obtain ⟨f, hf, harity⟩ := exists_of_checkFunction hfunction
  obtain ⟨os, hbinds, hlength, hos⟩ :=
    exists_bindAll_of_check hobjects (check_forM_eq_ok harguments)
  exact ⟨os, hbinds, fun o ho => ⟨⟨f, hf, harity.trans hlength.symm⟩, hos, ho⟩⟩

/-- Equations are decided from the left, and the first one that fails decides. -/
theorem exists_identitiesHold_of_check {is : List Lifted.Identity}
    (h : ∀ i ∈ is, task.checkTerm context arguments.length i.left = .ok () ∧
      task.checkTerm context arguments.length i.right = .ok ()) :
    ∃ b, identitiesHold arguments is = .ok b := by
  induction is with
  | nil => exact ⟨true, rfl⟩
  | cons i is ih =>
    obtain ⟨⟨hl, hr⟩, his⟩ := List.forall_mem_cons.mp h
    obtain ⟨l, hl, -⟩ := exists_bind_of_check hobjects hl
    obtain ⟨r, hr, -⟩ := exists_bind_of_check hobjects hr
    rw [identitiesHold, hl, hr]
    by_cases heq : ((l == r) == i.equal) = true
    · obtain ⟨b, hb⟩ := ih his
      exact ⟨b, (if_pos heq).trans hb⟩
    · exact ⟨false, if_neg heq⟩

theorem exists_identitiesHold {op : Lifted.Operator} (h : task.checkOperator op = .ok ())
    (hlength : op.parameters.length = arguments.length) :
    ∃ b, identitiesHold arguments op.identities = .ok b := by
  rw [Lifted.Task.checkOperator, hlength] at h
  obtain ⟨-, h⟩ := check_bind_eq_ok.mp h
  obtain ⟨-, h⟩ := check_bind_eq_ok.mp h
  obtain ⟨-, h⟩ := check_bind_eq_ok.mp h
  obtain ⟨-, h⟩ := check_bind_eq_ok.mp h
  obtain ⟨-, h⟩ := check_bind_eq_ok.mp h
  obtain ⟨-, h⟩ := check_bind_eq_ok.mp h
  obtain ⟨hidentities, -⟩ := check_bind_eq_ok.mp h
  exact exists_identitiesHold_of_check hobjects fun i hi =>
    check_bind_eq_ok.mp (check_forM_eq_ok hidentities i hi)

/-! ## Conditions and effects -/

/-- The variable of a condition is looked up under objects of the table. -/
theorem groundFluent_safe {c : Lifted.Fluent}
    (h : task.checkFluent context arguments.length c = .ok ()) :
    (groundFluent task arguments c).Safe E (·.HasSortedVariables task) fun _ => True := by
  obtain ⟨hliteral, hvalue⟩ := check_bind_eq_ok.mp h
  obtain ⟨os, hbinds, hsorted⟩ := exists_bindAll_of_checkLiteral hobjects hliteral
  obtain ⟨o, hbind, -⟩ := exists_bind_of_check hobjects hvalue
  refine Step.safe_lift_bind hbinds ((variableOf_safe hsorted).bind fun v _ => ?_)
  exact Step.safe_lift_bind hbind (Step.safe_pure trivial)

theorem groundFluents_safe {cs : List Lifted.Fluent}
    (h : ∀ c ∈ cs, task.checkFluent context arguments.length c = .ok ()) :
    Attempt.Safe E (·.HasSortedVariables task)
      (cs.mapM fun c => (groundFluent task arguments c : Step _)) fun _ => True :=
  Step.Safe.mono (Attempt.safe_mapM fun c hc =>
    Attempt.safe_step (groundFluent_safe hobjects (h c hc))) fun _ _ _ _ => trivial

/-- Of the leaves of an expression only functions and terms are bound, and both have been checked.
-/
theorem groundQuantity_safe {q : Lifted.Quantity}
    (h : task.checkQuantity context arguments.length q = .ok ()) :
    (groundQuantity arguments q).Safe E (·.HasSortedVariables task) fun _ => True := by
  cases q with
  | number x => exact Attempt.safe_pure trivial
  | duration => exact Attempt.safe_pure trivial
  | elapsed => exact Attempt.safe_pure trivial
  | term t =>
    obtain ⟨o, hbind, -⟩ := exists_bind_of_check hobjects h
    exact Attempt.safe_lift_bind hbind (Attempt.safe_pure trivial)
  | fluent l =>
    obtain ⟨os, hbinds, -⟩ := exists_bindAll_of_checkLiteral hobjects h
    exact Attempt.safe_lift_bind hbinds
      ((existingVariable_safe _ _).bind fun v _ => Attempt.safe_pure trivial)

theorem groundExpression_safe {e : Expression Lifted.Quantity}
    (h : task.checkExpression context arguments.length e = .ok ()) :
    (groundExpression arguments e).Safe E (·.HasSortedVariables task) fun _ => True :=
  Step.Safe.mono (Attempt.safe_mapM_expression fun q hq =>
    groundQuantity_safe hobjects (check_of_mem_atoms h q hq)) fun _ _ _ _ => trivial

theorem groundNumericConditions_safe {cs : List Lifted.NumericCondition}
    (h : ∀ c ∈ cs, task.checkNumericCondition context arguments.length c = .ok ()) :
    Attempt.Safe E (·.HasSortedVariables task) (cs.mapM (groundNumericCondition arguments))
      fun _ => True := by
  refine Step.Safe.mono (Attempt.safe_mapM (Q := fun _ => True) fun c hc => ?_)
    fun _ _ _ _ => trivial
  refine (Attempt.safe_mapM fun e he => groundExpression_safe hobjects
    (check_forM_eq_ok (h c hc) e he)).bind fun es _ => Attempt.safe_pure trivial

/-- Contradictory effects are no error: nothing comes of the instance. -/
theorem groundEffects_safe {fluents : List Lifted.Fluent} {grounded : List Condition}
    (h : ∀ c ∈ fluents, task.checkFluent context arguments.length c = .ok ()) :
    (groundEffects task arguments fluents grounded).Safe E (·.HasSortedVariables task)
      fun _ => True := by
  induction fluents generalizing grounded with
  | nil =>
    rw [groundEffects]
    exact Attempt.safe_pure trivial
  | cons c rest ih =>
    obtain ⟨hc, hrest⟩ := List.forall_mem_cons.mp h
    rw [groundEffects]
    refine (Attempt.safe_step (groundFluent_safe hobjects hc)).bind fun effect _ => ?_
    split
    · split
      · exact ih hrest
      · exact Attempt.safe_failure
    · exact ih hrest

/-- An effect that assigns a term binds it, any other one grounds its expression. -/
theorem groundNumericEffects_safe {es : List Lifted.NumericEffect}
    (h : ∀ e ∈ es, task.checkNumericEffect context arguments.length e = .ok ()) :
    Attempt.Safe E (·.HasSortedVariables task) (es.mapM (groundNumericEffect arguments))
      fun _ => True := by
  refine Step.Safe.mono (Attempt.safe_mapM (Q := fun _ => True) fun e he => ?_)
    fun _ _ _ _ => trivial
  obtain ⟨hliteral, hexpression⟩ := check_bind_eq_ok.mp (h e he)
  obtain ⟨os, hbinds, -⟩ := exists_bindAll_of_checkLiteral hobjects hliteral
  refine Attempt.safe_lift_bind hbinds ((existingVariable_safe _ _).bind fun v _ => ?_)
  -- assignments of terms have been told apart from numeric ones
  split
  next t _ ht =>
    rw [ht] at hexpression
    obtain ⟨o, hbind, -⟩ := exists_bind_of_check hobjects
      (check_of_mem_atoms hexpression (.term t) (Expression.mem_atoms_atom.mpr rfl))
    exact Attempt.safe_lift_bind hbind (Attempt.safe_pure trivial)
  · exact (groundExpression_safe hobjects hexpression).bind fun e' _ => Attempt.safe_pure trivial

theorem groundDurations_safe {ds : List Lifted.DurationBound}
    (h : ∀ d ∈ ds, task.checkExpression context arguments.length d.expression = .ok ()) :
    Attempt.Safe E (·.HasSortedVariables task) (ds.mapM (groundDuration arguments))
      fun _ => True := by
  refine Step.Safe.mono (Attempt.safe_mapM (Q := fun _ => True) fun d hd => ?_)
    fun _ _ _ _ => trivial
  exact (groundExpression_safe hobjects (h d hd)).bind fun e _ => Attempt.safe_pure trivial

/-! ## Actions -/

/-- Goals of preferences may compare durations, which is the one error that can be reported. -/
theorem groundPreference_safe {q : Lifted.Preference}
    (h : task.checkGoal context arguments.length q.goal = .ok ())
    (hE : q.goal.ReadsDuration → E (.invalidTask .durationInGoal)) :
    (groundPreference task arguments q).Safe E (·.HasSortedVariables task)
      fun q' => q'.goal.IsClosed task 0 :=
  (preferenceIndex_safe q.name).bind fun _ _ =>
    (groundGoal_safe hobjects q.goal 0 h fun d hd hd' => hE ⟨d, hd, hd'⟩).bind
      fun _ hg => Step.safe_pure hg

/-- **Instances of valid operators are built without errors**, unless the goals of their preferences
compare durations. -/
theorem groundOperator_safe {schema : Schema} (name : String)
    (h : task.checkOperator schema.operator = .ok ())
    (hlength : schema.operator.parameters.length = arguments.length)
    (hE : ∀ q ∈ schema.operator.preferences,
      q.goal.ReadsDuration → E (.invalidTask .durationInGoal)) :
    (groundOperator task arguments schema name).Safe E (·.HasSortedVariables task)
      fun a => ∀ q ∈ a.preferences, q.goal.IsClosed task 0 := by
  rw [Lifted.Task.checkOperator, hlength] at h
  obtain ⟨-, h⟩ := check_bind_eq_ok.mp h
  obtain ⟨hdurations, h⟩ := check_bind_eq_ok.mp h
  obtain ⟨hstart, h⟩ := check_bind_eq_ok.mp h
  obtain ⟨hend, h⟩ := check_bind_eq_ok.mp h
  obtain ⟨hinvariants, h⟩ := check_bind_eq_ok.mp h
  obtain ⟨hnumericInvariants, h⟩ := check_bind_eq_ok.mp h
  obtain ⟨-, hpreferences⟩ := check_bind_eq_ok.mp h
  obtain ⟨hstartConditions, hstart⟩ := check_bind_eq_ok.mp hstart
  obtain ⟨hstartEffects, hstart⟩ := check_bind_eq_ok.mp hstart
  obtain ⟨hstartNumeric, hstartChanges⟩ := check_bind_eq_ok.mp hstart
  obtain ⟨hendConditions, hend⟩ := check_bind_eq_ok.mp hend
  obtain ⟨hendEffects, hend⟩ := check_bind_eq_ok.mp hend
  obtain ⟨hendNumeric, hendChanges⟩ := check_bind_eq_ok.mp hend
  -- the parts are grounded in another order than they are checked in
  refine (groundFluents_safe hobjects (check_forM_eq_ok hstartConditions)).bind fun _ _ => ?_
  refine (groundFluents_safe hobjects (check_forM_eq_ok hinvariants)).bind fun _ _ => ?_
  refine (groundFluents_safe hobjects (check_forM_eq_ok hendConditions)).bind fun _ _ => ?_
  refine (groundNumericConditions_safe hobjects (check_forM_eq_ok hstartNumeric)).bind
    fun _ _ => ?_
  refine (groundNumericConditions_safe hobjects (check_forM_eq_ok hnumericInvariants)).bind
    fun _ _ => ?_
  refine (groundNumericConditions_safe hobjects (check_forM_eq_ok hendNumeric)).bind fun _ _ => ?_
  refine (groundEffects_safe hobjects (check_forM_eq_ok hstartEffects)).bind fun _ _ => ?_
  refine (groundEffects_safe hobjects (check_forM_eq_ok hendEffects)).bind fun _ _ => ?_
  refine (groundNumericEffects_safe hobjects (check_forM_eq_ok hstartChanges)).bind fun _ _ => ?_
  refine (groundNumericEffects_safe hobjects (check_forM_eq_ok hendChanges)).bind fun _ _ => ?_
  refine (Attempt.safe_mapM fun q hq => Attempt.safe_step (groundPreference_safe hobjects
    (check_forM_eq_ok hpreferences q hq) (hE q hq))).bind fun preferences hclosed => ?_
  exact (groundDurations_safe hobjects (check_forM_eq_ok hdurations)).bind fun _ _ =>
    Attempt.safe_pure hclosed

end Parts

end TemporalPlanning.Grounding
