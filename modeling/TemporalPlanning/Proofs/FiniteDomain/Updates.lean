import TemporalPlanning.FiniteDomain.Task
import TemporalPlanning.Proofs.Registry
/-!
What an update of a finite-domain task ensures.

An update may fail with an error. `Update.Ensures` says what holds of the result and of the task
that is left whenever it does not. The rules take an update apart along its structure.
-/
set_option autoImplicit false

namespace TemporalPlanning.FiniteDomain

variable {α β : Type}

/-- Whenever an update succeeds, its result and the task that it leaves have a property. -/
def Update.Ensures (u : Update α) (t : Task) (Q : α → Task → Prop) : Prop :=
  ∀ a t', u.runOn t = (.ok a, t') → Q a t'

namespace Update

variable {t : Task} {Q R : α → Task → Prop}

/-- What holds of a task that is left may be weakened. -/
theorem Ensures.mono {u : Update α} (h : u.Ensures t Q) (hQ : ∀ a t', Q a t' → R a t') :
    u.Ensures t R :=
  fun a t' hrun => hQ a t' (h a t' hrun)

theorem Ensures.and {u : Update α} (hQ : u.Ensures t Q) (hR : u.Ensures t R) :
    u.Ensures t fun a t' => Q a t' ∧ R a t' :=
  fun a t' hrun => ⟨hQ a t' hrun, hR a t' hrun⟩

theorem ensures_pure {a : α} : Ensures (pure a) t Q ↔ Q a t :=
  ⟨fun h => h a t rfl, fun h _ _ hrun => by cases hrun; exact h⟩

/-- The second update starts in the task that the first one leaves, and is not run after an error.
-/
theorem runOn_bind (u : Update α) (f : α → Update β) (t : Task) :
    (u >>= f).runOn t = match u.runOn t with
      | (.ok a, t') => (f a).runOn t'
      | (.error e, t') => (.error e, t') := by
  unfold runOn
  rw [ExceptT.run_bind, StateT.run_bind]
  rcases u.run.run t with ⟨a | a, t'⟩ <;> rfl

theorem runOn_map (u : Update α) (f : α → β) (t : Task) :
    Update.runOn (f <$> u) t = ((u.runOn t).1.map f, (u.runOn t).2) := by
  rw [map_eq_pure_bind, runOn_bind]
  rcases u.runOn t with ⟨e | a, t'⟩ <;> rfl

/-- Updates that succeed one after the other do so on their own. -/
theorem exists_runOn_of_bind {u : Update α} {f : α → Update β} {t t'' : Task} {b : β}
    (h : (u >>= f).runOn t = (.ok b, t'')) :
    ∃ a t', u.runOn t = (.ok a, t') ∧ (f a).runOn t' = (.ok b, t'') := by
  rw [runOn_bind] at h
  split at h
  next a t' hu => exact ⟨a, t', hu, h⟩
  next e t' hu => cases h

/-- The second update is asked for what is wanted, in all tasks that the first one may leave. -/
theorem ensures_bind {u : Update α} {f : α → Update β} {Q : β → Task → Prop} :
    Ensures (u >>= f) t Q ↔ u.Ensures t fun a t' => (f a).Ensures t' Q := by
  constructor
  · intro h a t' hu b t'' hf
    exact h b t'' (by rw [runOn_bind, hu]; exact hf)
  · intro h b t'' hrun
    obtain ⟨a, t', hu, hf⟩ := exists_runOn_of_bind hrun
    exact h a t' hu b t'' hf

theorem ensures_map {u : Update α} {f : α → β} {Q : β → Task → Prop} :
    Ensures (f <$> u) t Q ↔ u.Ensures t fun a t' => Q (f a) t' := by
  rw [map_eq_pure_bind, ensures_bind]
  exact ⟨fun h a t' hu => ensures_pure.mp (h a t' hu), fun h a t' hu =>
    ensures_pure.mpr (h a t' hu)⟩

theorem ensures_get {Q : Task → Task → Prop} : Ensures get t Q ↔ Q t t :=
  ⟨fun h => h t t rfl, fun h _ _ hrun => by cases hrun; exact h⟩

theorem ensures_modify {f : Task → Task} {Q : PUnit → Task → Prop} :
    Ensures (modify f) t Q ↔ Q ⟨⟩ (f t) :=
  ⟨fun h => h ⟨⟩ (f t) rfl, fun h _ _ hrun => by cases hrun; exact h⟩

/-- Nothing is left by an update that fails. -/
theorem ensures_throw {e : Error} : Ensures (throw e) t Q :=
  fun _ _ hrun => by cases hrun

/-- Computations leave the task as it is. -/
theorem ensures_lift {x : Except Error α} :
    Ensures (liftExcept x) t Q ↔ ∀ a, x = .ok a → Q a t := by
  constructor
  · intro h a hx
    exact h a t (by rw [hx]; rfl)
  · intro h a t' hrun
    cases x with
    | error e => cases hrun
    | ok b =>
      cases hrun
      exact h _ rfl

/-- An update repeated for a list keeps what each repetition keeps. -/
theorem ensures_foldlM {f : β → α → Update β} {l : List α} {b : β} {I : β → Task → Prop}
    (h : ∀ b, ∀ a ∈ l, ∀ t, I b t → (f b a).Ensures t I) (hb : I b t) :
    Ensures (l.foldlM f b) t I := by
  induction l generalizing b t with
  | nil => exact ensures_pure.mpr hb
  | cons a l ih =>
    rw [List.foldlM_cons, ensures_bind]
    exact (h b a List.mem_cons_self t hb).mono fun _ _ hb' =>
      ih (fun b c hc => h b c (List.mem_cons_of_mem _ hc)) hb'

/-- What every repetition keeps holds at the end. -/
theorem ensures_forM {f : α → Update PUnit} {l : List α} {I : Task → Prop}
    (h : ∀ a ∈ l, ∀ t, I t → (f a).Ensures t fun _ t' => I t') (ht : I t) :
    Ensures (l.forM f) t fun _ t' => I t' := by
  induction l generalizing t with
  | nil => exact ensures_pure.mpr ht
  | cons a l ih =>
    show Ensures (f a >>= fun _ => l.forM f) t _
    rw [ensures_bind]
    exact (h a List.mem_cons_self t ht).mono fun _ _ ht' =>
      ih (fun b hb => h b (List.mem_cons_of_mem _ hb)) ht'

end Update

end TemporalPlanning.FiniteDomain
