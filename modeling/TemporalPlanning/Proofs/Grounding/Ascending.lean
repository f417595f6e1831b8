import TemporalPlanning.Proofs.Grounding.Reaching
import TemporalPlanning.Proofs.Grounding.WellFormed
/-!
Reached values are listed in ascending order.

A variable starts without reached values, and a value is entered at its place in the order of the
object table, once. No step of grounding changes the list in another way, so it is ascending in
every state of grounding and in every grounded task. An ascending list is determined by its
entries: entering them one after the other gives it back.
-/
set_option autoImplicit false

namespace TemporalPlanning.Grounded

/-! ## Lists of reached values -/

/-- Entries are ascending if their objects are. -/
def Ascending (entries : List (ObjectId × Nat)) : Prop :=
  entries.Pairwise fun x y => x.1.index < y.1.index

theorem ascending_setLevel {entries : List (ObjectId × Nat)} (h : Ascending entries)
    {o : ObjectId} (level : Nat) (hnew : ∀ e ∈ entries, e.1 ≠ o) :
    Ascending (setLevel o level entries) := by
  induction entries with
  | nil => exact List.pairwise_singleton _ _
  | cons e rest ih =>
    obtain ⟨he, hrest⟩ := List.pairwise_cons.mp h
    obtain ⟨hne, hnew⟩ := List.forall_mem_cons.mp hnew
    rw [setLevel]
    split
    next hlt =>
      refine List.pairwise_cons.mpr ⟨fun x hx => ?_, h⟩
      rcases List.mem_cons.mp hx with rfl | hx
      · exact hlt
      · exact Nat.lt_trans hlt (he x hx)
    next hge =>
      rw [if_neg hne.symm]
      refine List.pairwise_cons.mpr ⟨fun x hx => ?_, ih hrest hnew⟩
      rcases (Grounding.mem_setLevel hnew x).mp hx with rfl | hx
      · have hindex : e.1.index ≠ o.index := fun heq => hne (congrArg ObjectId.mk heq)
        show e.1.index < o.index
        omega
      · exact he x hx

/-- A value behind all others is entered at the end. -/
theorem setLevel_of_forall_lt {entries : List (ObjectId × Nat)} {o : ObjectId} (level : Nat)
    (h : ∀ e ∈ entries, e.1.index < o.index) :
    setLevel o level entries = entries ++ [(o, level)] := by
  induction entries with
  | nil => rfl
  | cons e rest ih =>
    obtain ⟨he, hrest⟩ := List.forall_mem_cons.mp h
    have hne : o ≠ e.1 := fun heq => by rw [heq] at he; exact Nat.lt_irrefl _ he
    rw [setLevel, if_neg (Nat.not_lt.mpr (Nat.le_of_lt he)), if_neg hne, ih hrest]
    rfl

/-- Entering the entries of an ascending list gives the list back. -/
theorem foldl_setLevel {before entries : List (ObjectId × Nat)}
    (h : Ascending (before ++ entries)) :
    entries.foldl (fun reached entry => setLevel entry.1 entry.2 reached) before =
      before ++ entries := by
  induction entries generalizing before with
  | nil => rw [List.foldl_nil, List.append_nil]
  | cons e rest ih =>
    have hbefore : ∀ x ∈ before, x.1.index < e.1.index := fun x hx =>
      (List.pairwise_append.mp h).2.2 x hx e List.mem_cons_self
    rw [List.foldl_cons, setLevel_of_forall_lt e.2 hbefore, ih (by simpa [Ascending] using h),
      List.append_assoc]
    rfl

end TemporalPlanning.Grounded

namespace TemporalPlanning.Grounding

open Grounded

/-! ## States of grounding -/

/-- The reached values of all variables are listed in ascending order. -/
def State.IsAscending (s : State) : Prop :=
  ∀ i v, s.vars.get? i = some v → Ascending v.reached

section Steps

variable {task : Lifted.Task}

theorem State.CreatesFor.isAscending {s s' : State} (h : s.CreatesFor task s')
    (hs : s.IsAscending) : s'.IsAscending := fun i v hv => by
  rcases h.fresh i v hv with hv | ⟨-, hempty, -⟩
  · exact hs i v hv
  · rw [hempty]
    exact .nil

/-- A value is entered only if it has not been reached before. -/
theorem reach_keepsAscending (level : Nat) (c : Condition) :
    (reach level c).Keeps State.IsAscending := by
  intro s hs
  refine (reach_ensures level c s).mono ?_
  rintro _ s' (⟨rfl, -⟩ | ⟨v, hv, hnew, htable, -⟩) i w hw
  · exact hs i w hw
  rw [htable] at hw
  split at hw
  · cases hw
    exact ascending_setLevel (hs _ v hv) level (isReached_eq_false.mp hnew)
  · exact hs i w hw

theorem claim_keepsAscending (schema : Schema) (name : String) (arguments : List ObjectId) :
    (claim schema name arguments).Keeps State.IsAscending := by
  intro s hs
  refine (claim_ensures schema name arguments s).mono ?_
  rintro _ s' (⟨-, -, rfl⟩ | ⟨-, -, rfl⟩)
  · exact hs
  · unfold State.markTried
    split <;> exact hs

theorem addAction_keepsAscending (a : Action) : (addAction a).Keeps State.IsAscending :=
  modify_keeps fun s hs => by split <;> exact hs

theorem groundInstance_keepsAscending (task : Lifted.Task) (arguments : List ObjectId)
    (schema : Schema) : (groundInstance task arguments schema).Keeps State.IsAscending := by
  refine (claim_keepsAscending schema _ arguments).bind fun isNew => ?_
  split
  · refine (lift_keeps _).bind fun holds => ?_
    split
    · refine Step.Keeps.bind (Step.OnlyCreates.keeps (groundOperator_onlyCreates task arguments
        schema _) fun hs' hs => hs'.isAscending hs) fun a? => ?_
      cases a? with
      | none => exact pure_keeps _
      | some a =>
        refine get_keeps.bind fun state => ?_
        exact (Step.Keeps.forM fun c _ => reach_keepsAscending _ c).bind fun _ =>
          addAction_keepsAscending a
    · exact pure_keeps _
  · exact pure_keeps _

theorem explore_keepsAscending (p : Lifted.Problem) : (explore p).Keeps State.IsAscending :=
  IsInvariant.explore
    { creates := fun hcreates hs => hcreates.isAscending hs
      reaches := reach_keepsAscending
      moves := fun _ _ _ _ _ hs => hs
      looks := fun schema _ arguments => groundInstance_keepsAscending p.task arguments schema }

end Steps

/-! ## Grounded tasks -/

/-- The reached values of all variables of a task are listed in ascending order. -/
def IsAscendingTask (t : Task) : Prop :=
  ∀ (i : Nat) v, t.vars[i]? = some v → Ascending v.reached

theorem saturate_isAscending (p : Lifted.Problem) :
    (saturate p).Ensures {} fun t _ => IsAscendingTask t := by
  have hempty : State.IsAscending {} := fun _ _ hv => by cases hv
  refine saturate_ensures ((explore_keepsAscending p {} hempty).mono ?_)
  intro _ s hs s' t ht i v hv
  rw [ht.vars_eq] at hv
  exact ht.creates.isAscending hs i v hv

theorem Pass.isAscending {t t' : Task} (h : Pass t t') (ht : IsAscendingTask t) :
    IsAscendingTask t' := by
  obtain ⟨count, h⟩ := h
  rcases removeStaticPass_eq_ok h with ⟨rfl, -⟩ | ⟨_, _, _, -, -, -, -, hvars, -⟩
  · exact ht
  intro i v hv
  obtain ⟨_, entry, -, hentry, rfl⟩ := (isRenumbering_newPosition hvars).exists_entry hv
  exact ht _ entry hentry

/-- **The variables of grounded tasks list their reached values in ascending order.** -/
theorem ground_isAscending {p : Lifted.Problem} {keepStatic : Bool} {t : Task}
    (h : ground p keepStatic = .ok t) : IsAscendingTask t := by
  refine ground_induction h (fun _ => saturate_isAscending p) (fun _ _ hpass => hpass.isAscending)
    (fun _ _ ht => ht) fun t ht i v hv => ?_
  rw [getElem?_setInitialValues] at hv
  obtain ⟨entry, hentry, rfl⟩ := Option.map_eq_some_iff.mp hv
  exact ht i entry hentry

end TemporalPlanning.Grounding
