import TemporalPlanning.FiniteDomain.Cost
import TemporalPlanning.FiniteDomain.PermanentMutex
import TemporalPlanning.Proofs.FiniteDomain.Tables
import TemporalPlanning.Proofs.Grounding.Steps
/-!
What is derived from a finite-domain task leaves the task itself as it is.

Indexes, mutexes and the initial state are kept beside the actions, and only the costs of actions
are entered in them.
-/
set_option autoImplicit false

namespace TemporalPlanning.FiniteDomain

theorem withInitialState_sameActions (t : Task) : t.SameActions t.withInitialState :=
  .of_eq rfl rfl rfl

theorem indexConditions_sameActions (index : ActionIndex) (a : Action) (t : Task) :
    (indexConditions index a).Ensures t fun _ t' => t.SameActions t' := by
  unfold indexConditions
  split
  · refine Update.ensures_bind.mpr (Update.ensures_modify.mpr (Update.ensures_pure.mpr ?_))
    exact .of_eq rfl rfl rfl
  · exact Update.ensures_lift.mpr fun _ _ => .refl t

theorem computeRequirers_sameActions (t : Task) :
    computeRequirers.Ensures t fun _ t' => t.SameActions t' := by
  have hclear : t.SameActions { t with unconditioned := #[] } := .of_eq rfl rfl rfl
  refine Update.ensures_bind.mpr (Update.ensures_modify.mpr ?_)
  refine Update.ensures_bind.mpr (Update.ensures_get.mpr ?_)
  refine Update.ensures_bind.mpr ((Update.ensures_foldlM (I := fun _ t' => t.SameActions t')
    (fun index a _ t' ht' => (indexConditions_sameActions index a t').mono
      fun _ _ ht'' => ht'.trans ht'') hclear).mono fun requirers t' ht' => ?_)
  exact Update.ensures_modify.mpr (ht'.trans (.of_eq rfl rfl rfl))

theorem computeProducers_sameActions (t : Task) :
    computeProducers.Ensures t fun _ t' => t.SameActions t' := by
  refine Update.ensures_bind.mpr (Update.ensures_get.mpr ?_)
  refine Update.ensures_bind.mpr (Update.ensures_lift.mpr fun producers _ => ?_)
  exact Update.ensures_modify.mpr (.of_eq rfl rfl rfl)

theorem computePermanentMutex_sameActions (t : Task) :
    computePermanentMutex.Ensures t fun _ t' => t.SameActions t' := by
  refine Update.ensures_bind.mpr (Update.ensures_get.mpr ?_)
  refine Update.ensures_bind.mpr (Update.ensures_lift.mpr fun pairs _ => ?_)
  refine Update.ensures_bind.mpr (Update.ensures_modify.mpr ?_)
  refine Update.ensures_bind.mpr (Update.ensures_get.mpr ?_)
  -- whichever pairs of actions exclude each other
  have hlast : ∀ exclusive : PairSet, Update.Ensures
      (modify fun t => { t with permanentMutexActions := exclusive })
      { t with permanentMutex := pairs } fun _ t' => t.SameActions t' := fun _ =>
    Update.ensures_modify.mpr (.of_eq rfl rfl rfl)
  dsimp only
  split
  · exact Update.ensures_bind.mpr (Update.ensures_pure.mpr (hlast _))
  · exact Update.ensures_bind.mpr (Update.ensures_lift.mpr fun exclusive _ => hlast exclusive)

/-- Only the costs of two actions may differ. -/
def Action.SameButCost (a b : Action) : Prop := b = { a with cost := b.cost }

/-- Entering a cost in every action changes nothing else. -/
theorem forall₂_withCosts {actions : List Action} {costs : List (Cost Float)}
    (h : actions.length = costs.length) : List.Forall₂ Action.SameButCost actions
      (actions.zipWith (fun a cost => { a with cost }) costs) := by
  induction actions generalizing costs with
  | nil => exact .nil
  | cons a actions ih =>
    cases costs with
    | nil => cases h
    | cons cost costs => exact .cons rfl (ih (Nat.succ.inj h))

theorem computeCosts_ensures (keepStatic : Bool) (t : Task) :
    (computeCosts keepStatic).Ensures t fun _ t' => t.KeepsTables t' ∧
      List.Forall₂ Action.SameButCost t.actions.toList t'.actions.toList := by
  -- the initial state may have been computed before
  have hfirst : t.SameActions
      (if t.numericInitialState.size = t.numericVars.size then t else t.withInitialState) := by
    split
    · exact .refl t
    · exact withInitialState_sameActions t
  refine Update.ensures_bind.mpr (Update.ensures_modify.mpr ?_)
  refine Update.ensures_bind.mpr (Update.ensures_modify.mpr ?_)
  refine Update.ensures_bind.mpr (Update.ensures_get.mpr ?_)
  refine Update.ensures_bind.mpr (Update.ensures_lift.mpr fun costs hcosts => ?_)
  refine Update.ensures_modify.mpr ⟨hfirst.toKeepsTables.trans (.of_eq rfl rfl), ?_⟩
  have hlength := (Grounding.except_mapM_eq_ok hcosts).length_eq
  dsimp only at hlength ⊢
  rw [hfirst.actions] at hlength ⊢
  rw [Array.toList_zipWith]
  exact forall₂_withCosts hlength

/-- Every action is still there, with its cost. -/
theorem exists_sameButCost {t T : Task} {keepStatic : Bool}
    (hrun : (computeCosts keepStatic).runOn t = (.ok (), T)) {a : Action} (ha : a ∈ t.actions) :
    ∃ b ∈ T.actions, a.SameButCost b := by
  have hall := (computeCosts_ensures keepStatic t _ _ hrun).2
  obtain ⟨b, hb, hsame⟩ := Grounding.exists_of_forall₂ hall.flip (Array.mem_toList_iff.mpr ha)
  exact ⟨b, Array.mem_toList_iff.mp hb, hsame⟩

end TemporalPlanning.FiniteDomain
