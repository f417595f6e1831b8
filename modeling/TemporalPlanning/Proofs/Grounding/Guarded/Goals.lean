import TemporalPlanning.Proofs.Grounding.Guarded.Steps
import TemporalPlanning.Proofs.Grounding.Guarded.Types
import TemporalPlanning.Proofs.Grounding.Symbolic
import TemporalPlanning.Proofs.Grounding.SymbolicExpressions
/-!
Goals are grounded to closed goals.

A grounded goal is closed if all parameters that it refers to are bound by its own quantifiers and
all types that these range over are in the table. The check of a goal counts the parameters of
operators and constraints and those of quantifiers together, while a grounded goal counts the latter
only, from the first that is not bound yet. So a goal that is checked with as many parameters as
there are arguments becomes a closed one. Grounding it fails if it compares a duration.
-/
set_option autoImplicit false

namespace TemporalPlanning.Lifted

/-- The duration of an action, or the time since its start. -/
def Quantity.IsDuration : Quantity → Prop
  | .duration | .elapsed => True
  | .number _ | .term _ | .fluent _ => False

mutual

/-- The leaves of the comparisons of a goal. -/
def Goal.quantities : Goal → List Quantity
  | .compare _ left right => left.atoms ++ right.atoms
  | .and goals | .or goals => Goal.quantitiesOfList goals
  | .not goal | .timed _ goal | .existential _ goal | .universal _ goal => goal.quantities
  | .imply premise conclusion => premise.quantities ++ conclusion.quantities
  | .literal _ | .negLiteral _ | .equality .. | .inequality .. => []

/-- The leaves of the comparisons of a list of goals. -/
def Goal.quantitiesOfList : List Goal → List Quantity
  | [] => []
  | goal :: rest => goal.quantities ++ Goal.quantitiesOfList rest

end

/-- A goal compares the duration of an action, which has no meaning in goals. -/
def Goal.ReadsDuration (goal : Goal) : Prop := ∃ q ∈ goal.quantities, q.IsDuration

end TemporalPlanning.Lifted

namespace TemporalPlanning.Grounded

/-- A term that refers to one of the first parameters, if it refers to any. -/
def PartialTerm.IsClosed (bound : Nat) : PartialTerm → Prop
  | .object _ => True
  | .quantified i => i < bound

def PartialQuantity.IsClosed (bound : Nat) : PartialQuantity → Prop
  | .ungrounded _ arguments => ∀ t ∈ arguments, t.IsClosed bound
  | .term t => t.IsClosed bound
  | .number _ | .var _ => True

variable (task : Lifted.Task)

mutual

/-- All parameters that a goal refers to are bound by its quantifiers or among the first ones, and
its quantifiers range over types of the table. -/
def Goal.IsClosed (bound : Nat) : Goal → Prop
  | .ungroundedFluent _ arguments value _ =>
    (∀ t ∈ arguments, t.IsClosed bound) ∧ value.IsClosed bound
  | .and goals | .or goals => Goal.AreClosed bound goals
  | .not goal | .timed _ goal => goal.IsClosed bound
  | .imply premise conclusion => premise.IsClosed bound ∧ conclusion.IsClosed bound
  | .existential types goal | .universal types goal =>
    (∀ ts ∈ types, task.HasTypes ts) ∧ goal.IsClosed (bound + types.length)
  | .equality _ left right => left.IsClosed bound ∧ right.IsClosed bound
  | .compare _ terms => ∀ e ∈ terms, ∀ q ∈ e.atoms, q.IsClosed bound
  | .fluent .. | .constant _ => True

/-- All goals of a list are closed. -/
def Goal.AreClosed (bound : Nat) : List Goal → Prop
  | [] => True
  | goal :: rest => goal.IsClosed bound ∧ Goal.AreClosed bound rest

end

end TemporalPlanning.Grounded

namespace TemporalPlanning.Grounding

open Grounded

variable {task : Lifted.Task} {arguments : List ObjectId} {context : String} {bound : Nat}
  {E : Error → Prop}

/-! ## Variables -/

/-- All variables are functions of the table, applied to objects of the table. Whatever object of
the table they reach is a sorted value. -/
def State.HasSortedVariables (s : State) (task : Lifted.Task) : Prop :=
  ∀ i v, s.vars.get? i = some v → ∀ o, o.index < task.objects.size →
    IsSorted task ⟨v.function, v.arguments, o⟩

theorem variableOf_safe {f : FunctionId} {as : List ObjectId}
    (h : ∀ o, o.index < task.objects.size → IsSorted task ⟨f, as, o⟩) :
    (variableOf task f as).Safe E (·.HasSortedVariables task) fun _ => True := by
  refine fun s hs => ⟨fun e hrun => (by cases hrun), fun v s' hrun => ⟨?_, trivial⟩⟩
  cases hrun
  intro i v hv o ho
  rcases s.vars.get?_intern_snd _ i with hold | ⟨-, -, hnew⟩
  · exact hs i v (hold.symm.trans hv) o ho
  · obtain rfl := Option.some.inj (hnew.symm.trans hv)
    exact h o ho

theorem preferenceIndex_safe (name : String) :
    (preferenceIndex name).Safe E (·.HasSortedVariables task) fun _ => True :=
  fun _ hs => ⟨fun _ hrun => (by cases hrun), fun _ _ hrun => by cases hrun; exact ⟨hs, trivial⟩⟩

/-! ## Terms -/

/-- Parameters that are not bound yet are among the remaining ones. -/
theorem isClosed_of_check {t : Lifted.Term}
    (h : task.checkTerm context (arguments.length + bound) t = .ok ()) :
    (partialTerm arguments t).IsClosed bound := by
  cases t with
  | object o => trivial
  | param i =>
    have hi : i < arguments.length + bound := isSoundTerm_of_check h
    rw [partialTerm]
    split
    · trivial
    next hnone =>
      have hle := List.getElem?_eq_none_iff.mp hnone
      show i - arguments.length < bound
      omega

theorem areClosed_of_check {ts : List Lifted.Term}
    (h : ∀ t ∈ ts, task.checkTerm context (arguments.length + bound) t = .ok ()) :
    ∀ t ∈ ts.map (partialTerm arguments), t.IsClosed bound := by
  intro t ht
  obtain ⟨t', ht', rfl⟩ := List.mem_map.mp ht
  exact isClosed_of_check (h t' ht')

/-- Terms that are all objects. -/
theorem eq_map_object {ts : List PartialTerm} {objects : List ObjectId}
    (h : ts.mapM PartialTerm.object? = some objects) : ts = objects.map .object := by
  induction ts generalizing objects with
  | nil =>
    cases h
    rfl
  | cons t ts ih =>
    rw [List.mapM_cons] at h
    obtain ⟨o, ho, h⟩ := Option.bind_eq_some_iff.mp h
    obtain ⟨os, hos, h⟩ := Option.bind_eq_some_iff.mp h
    cases h
    cases t with
    | object o' =>
      cases ho
      rw [ih hos]
      rfl
    | quantified i => cases ho

/-- A valid literal that depends on no quantifier is about a sorted variable. -/
theorem isSorted_of_partialTerms (hobjects : ∀ o ∈ arguments, o.index < task.objects.size)
    {l : Lifted.Literal} (hcheck : task.checkLiteral context bound l = .ok ())
    {objects : List ObjectId}
    (h : (l.arguments.map (partialTerm arguments)).mapM PartialTerm.object? = some objects)
    {o : ObjectId} (ho : o.index < task.objects.size) :
    IsSorted task ⟨l.function, objects, o⟩ := by
  obtain ⟨hfunction, harguments⟩ := check_bind_eq_ok.mp hcheck
  obtain ⟨f, hf, harity⟩ := exists_of_checkFunction hfunction
  have hterms := eq_map_object h
  have hlength : l.arguments.length = objects.length := by
    rw [← List.length_map (partialTerm arguments), hterms, List.length_map]
  refine ⟨⟨f, hf, harity.trans hlength⟩, fun o' ho' => ?_, ho⟩
  have hmem : PartialTerm.object o' ∈ l.arguments.map (partialTerm arguments) := by
    rw [hterms]
    exact List.mem_map_of_mem ho'
  obtain ⟨t, ht, hobject⟩ := List.mem_map.mp hmem
  exact lt_size_of_partialTerm hobjects (check_forM_eq_ok harguments t ht) hobject

/-! ## Atoms of goals -/

section Atoms

variable (hobjects : ∀ o ∈ arguments, o.index < task.objects.size)
include hobjects

theorem fluentGoal_safe {l : Lifted.Literal} {t : Lifted.Term} {equal : Bool}
    (hl : task.checkLiteral context (arguments.length + bound) l = .ok ())
    (ht : (partialTerm arguments t).IsClosed bound) :
    (fluentGoal task arguments l t equal).Safe E (·.HasSortedVariables task)
      (Goal.IsClosed task bound) := by
  unfold fluentGoal
  dsimp only
  split
  next objects o hterms _ =>
    refine (variableOf_safe fun o' ho' => isSorted_of_partialTerms hobjects hl hterms ho').bind
      fun v _ => Step.safe_pure ?_
    rw [Goal.IsClosed]
    trivial
  next =>
    refine Step.safe_pure ?_
    rw [Goal.IsClosed]
    exact ⟨areClosed_of_check (check_forM_eq_ok (check_bind_eq_ok.mp hl).2), ht⟩

theorem partialQuantity_safe {q : Lifted.Quantity}
    (hq : task.checkQuantity context (arguments.length + bound) q = .ok ())
    (hE : q.IsDuration → E (.invalidTask .durationInGoal)) :
    (partialQuantity task arguments q).Safe E (·.HasSortedVariables task)
      (PartialQuantity.IsClosed bound) := by
  cases q with
  | number x => exact Step.safe_pure trivial
  | term t => exact Step.safe_pure (isClosed_of_check hq)
  | fluent l =>
    rw [partialQuantity]
    split
    next objects hterms =>
      exact (variableOf_safe fun o ho => isSorted_of_partialTerms hobjects hq hterms ho).bind
        fun v _ => Step.safe_pure trivial
    next => exact Step.safe_pure (areClosed_of_check (check_forM_eq_ok (check_bind_eq_ok.mp hq).2))
  | duration => exact Step.safe_throw (hE trivial)
  | elapsed => exact Step.safe_throw (hE trivial)

theorem compareGoal_safe {comparator : Comparator} {left right : Expression Lifted.Quantity}
    (hleft : task.checkExpression context (arguments.length + bound) left = .ok ())
    (hright : task.checkExpression context (arguments.length + bound) right = .ok ())
    (hE : ∀ q ∈ left.atoms ++ right.atoms, q.IsDuration → E (.invalidTask .durationInGoal)) :
    (compareGoal task arguments comparator left right).Safe E (·.HasSortedVariables task)
      (Goal.IsClosed task bound) := by
  have hnumeric : Step.Safe E (·.HasSortedVariables task) (do
      let left ← left.mapM (partialQuantity task arguments)
      let right ← right.mapM (partialQuantity task arguments)
      return Goal.compare comparator [left, right]) (Goal.IsClosed task bound) := by
    refine (Step.safe_mapM_expression fun q hq => partialQuantity_safe hobjects
      (check_of_mem_atoms hleft q hq) (hE q (List.mem_append_left _ hq))).bind fun l hl => ?_
    refine (Step.safe_mapM_expression fun q hq => partialQuantity_safe hobjects
      (check_of_mem_atoms hright q hq) (hE q (List.mem_append_right _ hq))).bind fun r hr => ?_
    refine Step.safe_pure ?_
    rw [Goal.IsClosed]
    exact List.forall_mem_cons.mpr ⟨hl, List.forall_mem_singleton.mpr hr⟩
  -- the checks of a function and of a term that it is compared with
  have hatom : ∀ q, task.checkExpression context (arguments.length + bound) (.atom q) = .ok () →
      task.checkQuantity context (arguments.length + bound) q = .ok () := fun q hq =>
    check_of_mem_atoms hq q (Expression.mem_atoms_atom.mpr rfl)
  unfold compareGoal
  dsimp only
  split
  · exact hnumeric
  · split
    · split
      · exact hnumeric
      · exact fluentGoal_safe hobjects (hatom _ hleft) (isClosed_of_check (hatom _ hright))
    · split
      · exact hnumeric
      · exact fluentGoal_safe hobjects (hatom _ hright) (isClosed_of_check (hatom _ hleft))
    · refine Step.safe_pure ?_
      rw [Goal.IsClosed]
      exact ⟨isClosed_of_check (hatom _ hleft), isClosed_of_check (hatom _ hright)⟩
    · exact hnumeric

end Atoms

/-! ## Goals -/

mutual

/-- **Valid goals become closed goals**, unless they compare durations. -/
theorem groundGoal_safe (hobjects : ∀ o ∈ arguments, o.index < task.objects.size) :
    ∀ (g : Lifted.Goal) (bound : Nat),
      task.checkGoal context (arguments.length + bound) g = .ok () →
        (∀ q ∈ g.quantities, q.IsDuration → E (.invalidTask .durationInGoal)) →
          (groundGoal task arguments g).Safe E (·.HasSortedVariables task)
            (Goal.IsClosed task bound)
  | .literal l, bound, hcheck, _ | .negLiteral l, bound, hcheck, _ => by
    rw [groundGoal]
    exact fluentGoal_safe hobjects hcheck trivial
  | .and gs, bound, hcheck, hE | .or gs, bound, hcheck, hE => by
    rw [groundGoal]
    rw [Lifted.Goal.quantities] at hE
    refine (groundGoals_safe hobjects gs bound hcheck hE).bind fun gs' hgs => Step.safe_pure ?_
    rw [Goal.IsClosed]
    exact hgs
  | .not g, bound, hcheck, hE | .timed _ g, bound, hcheck, hE => by
    rw [groundGoal]
    rw [Lifted.Goal.quantities] at hE
    refine (groundGoal_safe hobjects g bound hcheck hE).bind fun g' hg => Step.safe_pure ?_
    rw [Goal.IsClosed]
    exact hg
  | .imply g h, bound, hcheck, hE => by
    rw [groundGoal]
    rw [Lifted.Goal.quantities] at hE
    rw [Lifted.Task.checkGoal] at hcheck
    obtain ⟨hg, hh⟩ := check_bind_eq_ok.mp hcheck
    refine (groundGoal_safe hobjects g bound hg fun q hq =>
      hE q (List.mem_append_left _ hq)).bind fun g' hg' => ?_
    refine (groundGoal_safe hobjects h bound hh fun q hq =>
      hE q (List.mem_append_right _ hq)).bind fun h' hh' => Step.safe_pure ?_
    rw [Goal.IsClosed]
    exact ⟨hg', hh'⟩
  | .existential ps g, bound, hcheck, hE | .universal ps g, bound, hcheck, hE => by
    rw [groundGoal]
    rw [Lifted.Goal.quantities] at hE
    rw [Lifted.Task.checkGoal, Nat.add_assoc] at hcheck
    obtain ⟨htypes, hg⟩ := check_bind_eq_ok.mp hcheck
    refine (groundGoal_safe hobjects g (bound + ps.length) hg hE).bind fun g' hg' =>
      Step.safe_pure ?_
    rw [Goal.IsClosed, List.length_map]
    exact ⟨List.forall_mem_map.mpr fun p hp => hasTypes_of_check (check_forM_eq_ok htypes p hp),
      hg'⟩
  | .compare c l r, bound, hcheck, hE => by
    rw [groundGoal]
    rw [Lifted.Goal.quantities] at hE
    rw [Lifted.Task.checkGoal] at hcheck
    obtain ⟨hl, hr⟩ := check_bind_eq_ok.mp hcheck
    exact compareGoal_safe hobjects hl hr hE
  | .equality l r, bound, hcheck, _ | .inequality l r, bound, hcheck, _ => by
    rw [groundGoal]
    rw [Lifted.Task.checkGoal] at hcheck
    obtain ⟨hl, hr⟩ := check_bind_eq_ok.mp hcheck
    refine Step.safe_pure ?_
    rw [Goal.IsClosed]
    exact ⟨isClosed_of_check hl, isClosed_of_check hr⟩

theorem groundGoals_safe (hobjects : ∀ o ∈ arguments, o.index < task.objects.size) :
    ∀ (gs : List Lifted.Goal) (bound : Nat),
      task.checkGoals context (arguments.length + bound) gs = .ok () →
        (∀ q ∈ Lifted.Goal.quantitiesOfList gs,
          q.IsDuration → E (.invalidTask .durationInGoal)) →
          (groundGoals task arguments gs).Safe E (·.HasSortedVariables task)
            (Goal.AreClosed task bound)
  | [], bound, _, _ => by
    rw [groundGoals]
    exact Step.safe_pure trivial
  | g :: gs, bound, hcheck, hE => by
    rw [groundGoals]
    rw [Lifted.Goal.quantitiesOfList] at hE
    rw [Lifted.Task.checkGoals] at hcheck
    obtain ⟨hg, hgs⟩ := check_bind_eq_ok.mp hcheck
    refine (groundGoal_safe hobjects g bound hg fun q hq =>
      hE q (List.mem_append_left _ hq)).bind fun g' hg' => ?_
    refine (groundGoals_safe hobjects gs bound hgs fun q hq =>
      hE q (List.mem_append_right _ hq)).bind fun gs' hgs' => Step.safe_pure ?_
    exact ⟨hg', hgs'⟩

end

end TemporalPlanning.Grounding
