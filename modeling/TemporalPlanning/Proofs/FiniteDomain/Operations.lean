import TemporalPlanning.Proofs.FiniteDomain.Frames
import TemporalPlanning.Proofs.FiniteDomain.Leftovers
/-!
What an operation leaves.

An operation that fails changes nothing, unless it is a derivation. So to show something of the task
after an operation, it is enough to show it of the task that a successful operation leaves, and of
the leftovers of a failed one.
-/
set_option autoImplicit false

namespace TemporalPlanning.FiniteDomain

/-! ## Operations that fail -/

section Failing

variable {t : Task}

theorem createValue_leaves (name : String) (function : Option FunctionId) :
    (createValue name function).Leaves t t := by
  refine Update.leaves_get_bind ?_
  split
  · exact Update.leaves_pure _
  · refine Update.leaves_get_bind ?_
    dsimp only
    split
    · exact (Update.leaves_throw _).bind fun _ _ h => by cases h
    · exact Update.leaves_modify_bind (Update.leaves_pure _)

theorem createVariable_leaves (name : String) : (createVariable name).Leaves t t := by
  refine Update.leaves_get_bind ?_
  dsimp only
  split
  · exact (Update.leaves_throw _).bind fun _ _ h => by cases h
  · exact Update.leaves_modify_bind (Update.leaves_pure _)

theorem updateVariable_leaves (var : Nat) (f : Variable → Except Error Variable) :
    (updateVariable var f).Leaves t t := by
  refine Update.leaves_get_bind ?_
  split
  · exact Update.leaves_lift_bind (fun _ _ => rfl) fun _ _ => Update.leaves_modify _
  · exact Update.leaves_pure _

theorem updateNumericVariable_leaves (var : Nat)
    (f : NumericVariable → Except Error NumericVariable) :
    (updateNumericVariable var f).Leaves t t := by
  refine Update.leaves_get_bind ?_
  split
  · exact Update.leaves_lift_bind (fun _ _ => rfl) fun _ _ => Update.leaves_modify _
  · exact Update.leaves_pure _

end Failing

namespace Edit

/-- The task that an operation leaves if it fails. -/
def leftover : Edit → Task → Task
  | .derive d, t => d.leftover t
  | _, t => t

/-- An operation that is no derivation changes nothing if it fails. -/
theorem update_leaves (edit : Edit) (t : Task) : edit.update.Leaves t (edit.leftover t) := by
  cases edit with
  | createValue name function => exact (createValue_leaves name function).map _
  | createVariable name => exact (createVariable_leaves name).map _
  | createAnonymousVariable =>
    exact Update.Leaves.map (Update.leaves_get_bind (createVariable_leaves _)) _
  | createNumericVariable => exact Update.Leaves.map (fun _ _ h => by cases h) _
  | createAction => exact Update.Leaves.map (fun _ _ h => by cases h) _
  | createGoal => exact Update.Leaves.map (fun _ _ h => by cases h) _
  | addInitialValue var => exact updateVariable_leaves var _
  | addInitialNumber var => exact updateNumericVariable_leaves var _
  | addValue | addMutex | setMetric | addConstraint | setPreferenceNames | computeInitialState =>
    exact Update.leaves_modify _
  | derive d => exact d.update_leaves t

end Edit

/-! ## The task after an operation -/

section After

variable {edit : Edit} {t : Task}

/-- What a successful operation ensures holds afterwards, if the leftovers of a failed one have it
as well. -/
theorem after_of_ensures {P : Task → Prop} (h : edit.update.Ensures t fun _ t' => P t')
    (hleftover : P (edit.leftover t)) : P (t.after edit) := by
  rcases hrun : edit.update.runOn t with ⟨e | a, t'⟩
  · have hleft := edit.update_leaves t e t' hrun
    rwa [Task.after, hrun, hleft]
  · rw [Task.after, hrun]
    exact h a t' hrun

theorem part_after_of_keeps {γ : Type} {part : Task → γ} (h : edit.update.Keeps part)
    (hleftover : part (edit.leftover t) = part t) : part (t.after edit) = part t :=
  after_of_ensures (P := fun t' => part t' = part t) (h t) hleftover

end After

end TemporalPlanning.FiniteDomain
