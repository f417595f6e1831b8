import TemporalPlanning.Proofs.Mutex.Application
/-!
The state in which the mutex computation stops.

`Recorded` is the invariant of the passes: whatever has been applied has left its additions reached
and `Together`. A pass that counts nothing has looked at every action with the final propositions
and pairs, so the result is `Closed`: for every action whose conditions are reachable and not
mutex, its additions are reachable and together, and what is mutex with an addition is deleted or
mutex with a condition. `closed_fixpoint` is this statement for the final state; a computation that
stops before its first pass has no pairs at all.
-/
set_option autoImplicit false

namespace TemporalPlanning.Mutex

open State Grounded

variable (t : Task)

/-- The propositions of an action of a task. -/
def profile (a : Action) : Profile := Profile.ofAction (propositions t) a

/-! ## Invariants of the passes -/

/-- What holds of a state however many actions have been applied. -/
structure Recorded (s : State) : Prop where
  size : s.reached.size = (propositions t).size
  /-- The additions of an action that has been applied are reached and together. -/
  fired : ∀ a i, (a, i) ∈ t.actions.zipIdx → s.fired.getD i false = true →
    (∀ v ∈ (profile t a).adds, isMarked s.reached v = true) ∧ Together (profile t a) s.mutex

theorem Together.mono {p : Profile} {s s' : State} (h : Together p s.mutex)
    (hreached : ∀ v ∈ p.adds, isMarked s.reached v = true) (hs : Continues s s') :
    Together p s'.mutex := by
  have hstart : ∀ v ∈ p.startAdds, isMarked s.reached v = true := fun v hv =>
    hreached v (List.mem_append_left _ hv)
  have hend : ∀ v ∈ p.endAdds, isMarked s.reached v = true := fun v hv =>
    hreached v (List.mem_append_right _ hv)
  refine ⟨?_, fun v hv hkept w hw => ?_, ?_⟩
  · exact h.atStart.imp_of_mem fun hv hw hvw => hs.apart _ _ (Or.inr ⟨hstart _ hv, hstart _ hw⟩) hvw
  · exact hs.apart _ _ (Or.inr ⟨hstart v hv, hend w hw⟩) (h.across v hv hkept w hw)
  · exact h.atEnd.imp_of_mem fun hv hw hvw => hs.apart _ _ (Or.inr ⟨hend _ hv, hend _ hw⟩) hvw

/-- Additions are marked as propositions, so they have a position. -/
theorem isMarked_of_mem_adds {a : Action} {v : VarId} (hv : v ∈ (profile t a).adds) :
    isMarked (propositions t) v = true := by
  have hadded : ∀ {es : List Condition}, v ∈ added (propositions t) es →
      isMarked (propositions t) v = true := by
    intro es h
    obtain ⟨e, he, rfl⟩ := List.mem_map.mp h
    have h := (List.mem_filter.mp he).2
    rw [Bool.and_eq_true] at h
    exact h.1
  rcases List.mem_append.mp hv with h | h
  · exact hadded h
  · exact hadded h

variable {t}

/-- After an action has been applied its additions are reached and together, whether this was the
first time or not. -/
theorem Recorded.applied {s : State} (h : Recorded t s) {a : Action} {i : Nat}
    (ha : (a, i) ∈ t.actions.zipIdx) {vars : List VarId} :
    (∀ v ∈ (profile t a).adds,
      isMarked (applyAction vars i (profile t a) s).reached v = true) ∧
      Together (profile t a) (applyAction vars i (profile t a) s).mutex := by
  refine ⟨fun v hv => isMarked_applyAction hv ?_, ?_⟩
  · rw [h.size]
    exact lt_size_of_isMarked (isMarked_of_mem_adds t hv)
  · cases hfired : s.fired.getD i false with
    | false => exact together_applyAction hfired
    | true =>
      obtain ⟨hreached, htogether⟩ := h.fired a i ha hfired
      exact htogether.mono hreached (applyAction_continues _ _ _ _)

theorem Recorded.applyAction {s : State} (h : Recorded t s) {a : Action} {i : Nat}
    (ha : (a, i) ∈ t.actions.zipIdx) (vars : List VarId) :
    Recorded t (applyAction vars i (profile t a) s) := by
  have hcont := applyAction_continues vars i (profile t a) s
  refine ⟨hcont.size.trans h.size, fun b j hb hfired => ?_⟩
  by_cases hij : i = j
  · subst hij
    have hab : a = b := by
      have := (List.mk_mem_zipIdx_iff_getElem?.mp ha).symm.trans
        (List.mk_mem_zipIdx_iff_getElem?.mp hb)
      exact Option.some.inj this
    subst hab
    exact h.applied ha
  · -- another action, which has been applied before
    rw [applyAction_eq] at hfired
    have hfired' : s.fired.getD j false = true := by
      simpa [Array.getD_eq_getD_getElem?, Array.getElem?_setIfInBounds, hij] using hfired
    obtain ⟨hreached, htogether⟩ := h.fired b j hb hfired'
    exact ⟨fun v hv => hcont.reached v (hreached v hv), htogether.mono hreached hcont⟩

variable (t)

/-- A step of a pass goes on and keeps what is recorded. -/
structure Sustains (s s' : State) : Prop where
  continues : Continues s s'
  recorded : Recorded t s → Recorded t s'

namespace Sustains

theorem refl (s : State) : Sustains t s s := ⟨Continues.refl s, id⟩

variable {t}

theorem trans {s s' s'' : State} (h : Sustains t s s') (h' : Sustains t s' s'') :
    Sustains t s s'' :=
  ⟨h.continues.trans h'.continues, fun hs => h'.recorded (h.recorded hs)⟩

end Sustains

/-- Looking at an action, as a pass does. -/
abbrev check (s : State) (action : Action × Nat) : State :=
  checkAction (propositions t) (marked (propositions t)) s action

theorem check_sustains (s : State) {action : Action × Nat} (ha : action ∈ t.actions.zipIdx) :
    Sustains t s (check t s action) := by
  obtain ⟨a, i⟩ := action
  unfold check checkAction
  dsimp only
  split
  · exact ⟨applyAction_continues _ _ _ _, fun hs => hs.applyAction ha _⟩
  · exact Sustains.refl t s

/-! ## Passes -/

/-- The state at the start of a pass. -/
def opened (s : State) : State := { s with newPropositions := 0, changes := 0 }

/-- The state after the actions of a pass. -/
def passed (s : State) : State := t.actions.zipIdx.foldl (check t) (opened s)

theorem pass_eq (s : State) :
    pass t s = { passed t s with reachedBefore := (passed t s).reached } :=
  rfl

theorem passed_sustains (s : State) : Sustains t (opened s) (passed t s) :=
  foldl_rel (Sustains.refl t) Sustains.trans fun s' _ _ ha => check_sustains t s' ha

/-- What holds of a state between two passes. -/
structure BetweenPasses (s : State) : Prop where
  recorded : Recorded t s
  before : s.reachedBefore = s.reached
  initial : ∀ v, isMarked (initialState t).reached v = true → isMarked s.reached v = true
  /-- Propositions of the initial state are never mutex, and no proposition is with itself. -/
  apart : ∀ v w, (v = w ∨ (isMarked (initialState t).reached v = true ∧
    isMarked (initialState t).reached w = true)) → s.mutex.contains v w = false

variable {t}

theorem BetweenPasses.pass {s : State} (h : BetweenPasses t s) : BetweenPasses t (pass t s) := by
  -- opening and closing a pass touches neither propositions nor pairs
  have hpassed := passed_sustains t s
  have hrec : Recorded t (passed t s) := hpassed.recorded ⟨h.recorded.size, h.recorded.fired⟩
  refine ⟨⟨hrec.size, hrec.fired⟩, rfl, fun v hv => hpassed.continues.reached v (h.initial v hv),
    fun v w hvw => ?_⟩
  refine hpassed.continues.apart v w (hvw.imp_right fun ⟨hv, hw⟩ => ?_) (h.apart v w hvw)
  exact ⟨h.initial v hv, h.initial w hw⟩

/-! ## Closed states -/

/-- As far as a state knows, the conditions of an action can be true together. -/
structure Plausible (p : Profile) (s : State) : Prop where
  reached : ∀ c ∈ p.conditions, isMarked s.reached c = true
  apart : ∀ c ∈ p.conditions, ∀ d ∈ p.conditions, s.mutex.contains c d = false

variable (t)

/-- The propositions and pairs of a state account for what an action adds. -/
structure Accounts (s : State) (a : Action) : Prop where
  reached : ∀ v ∈ (profile t a).adds, isMarked s.reached v = true
  together : Together (profile t a) s.mutex
  supported : ∀ v ∈ (profile t a).adds, ∀ q, isMarked (propositions t) q = true →
    s.mutex.contains v q = true → MayExclude (profile t a) s.mutex q

/-- A state accounts for every action that is plausible in it. -/
def Closed (s : State) : Prop :=
  ∀ a ∈ t.actions, Plausible (profile t a) s → Accounts t s a

variable {t}

theorem anyPair_eq_false {α : Type} {related : α → α → Bool} {l : List α}
    (h : ∀ a ∈ l, ∀ b ∈ l, related a b = false) : anyPair related l = false := by
  induction l with
  | nil => rfl
  | cons a rest ih =>
    rw [anyPair, ih fun b hb c hc => h b (by simp [hb]) c (by simp [hc]), Bool.or_false,
      List.any_eq_false]
    intro b hb
    rw [h a (by simp) b (by simp [hb])]
    simp

theorem Plausible.isApplicable {p : Profile} {s : State} (h : Plausible p s)
    (hbefore : s.reachedBefore = s.reached) : isApplicable p s = true := by
  rw [Mutex.isApplicable, anyPair_eq_false h.apart, hbefore]
  simpa using h.reached

/-- A pass that counts nothing leads to a closed state: every action was looked at with the
propositions and pairs with which the pass ends. -/
theorem closed_of_isQuiet {s : State} (h : BetweenPasses t s) (hquiet : (pass t s).isQuiet = true) :
    Closed t (pass t s) := by
  intro a ha hplausible
  have hwork : (passed t s).work = 0 := by
    simp only [State.isQuiet, pass_eq, Bool.and_eq_true, beq_iff_eq] at hquiet
    simp only [work, hquiet]
  obtain ⟨i, hi⟩ : ∃ i, (a, i) ∈ t.actions.zipIdx := by
    obtain ⟨i, hi⟩ := List.mem_iff_getElem?.mp ha
    exact ⟨i, List.mk_mem_zipIdx_iff_getElem?.mpr hi⟩
  have hle : (passed t s).work ≤ (opened s).work := by rw [hwork]; exact Nat.zero_le _
  -- nothing is counted anywhere, so the action sees the propositions and pairs of the end
  obtain ⟨s', hbefore, hafter, hreached, hmutex, hidle⟩ :=
    Continues.exists_idle_step (Sustains.refl t) Sustains.trans Sustains.continues
      (fun s' _ hb => check_sustains t s' hb) hle hi
  obtain ⟨hend, hend'⟩ := (passed_sustains t s).continues.eq_of_work_le hle
  rw [← hreached] at hend
  rw [← hmutex] at hend'
  have hsame : s'.reachedBefore = s'.reached := by
    rw [hbefore.continues.reachedBefore, hreached]
    exact h.before
  have hplausible' : Plausible (profile t a) s' := by
    refine ⟨fun c hc => ?_, fun c hc d hd => ?_⟩
    · rw [← hend]
      exact hplausible.reached c hc
    · rw [← hend']
      exact hplausible.apart c hc d hd
  have happly : check t s' (a, i)
      = applyAction (marked (propositions t)) i (profile t a) s' := by
    unfold check checkAction
    dsimp only
    exact if_pos (hplausible'.isApplicable hsame)
  rw [happly] at hidle
  obtain ⟨hfinal, hfinal'⟩ := (applyAction_continues _ _ _ _).eq_of_work_le hidle
  have hrec : Recorded t s' := hbefore.recorded ⟨h.recorded.size, h.recorded.fired⟩
  have htogether : Together (profile t a)
      (applyAction (marked (propositions t)) i (profile t a) s').mutex := (hrec.applied hi).2
  rw [hfinal'] at htogether
  refine ⟨fun v hv => ?_, ?_, fun v hv q hq hvq => ?_⟩
  · show isMarked (passed t s).reached v = true
    rw [hend]
    exact (settled_of_applyAction hidle hv).1
  · show Together _ (passed t s).mutex
    rw [hend']
    exact htogether
  · change (passed t s).mutex.contains v q = true at hvq
    show MayExclude _ (passed t s).mutex q
    rw [hend'] at hvq ⊢
    exact (settled_of_applyAction hidle hv).2 q (mem_marked.mpr hq) hvq

/-! ## The whole computation -/

variable (t)

/-- What holds initially and is kept by every pass holds in the end. -/
theorem run_induction {P : State → Prop} (hpass : ∀ s, P s → P (pass t s)) (limit : Nat) {s : State}
    (h : P s) : P (run t limit s).1 := by
  induction limit generalizing s with
  | zero => exact h
  | succ limit ih =>
    rw [run]
    split
    · exact h
    · exact ih (hpass s h)

variable {t} in
/-- No pass is made from a quiet state. -/
theorem run_of_isQuiet {s : State} (hquiet : s.isQuiet = true) (limit : Nat) :
    run t limit s = (s, 0) := by
  cases limit with
  | zero => rfl
  | succ limit => rw [run, if_pos hquiet]

theorem size_propositions : (propositions t).size = t.vars.size := by
  rw [propositions, ← Array.foldl_toList]
  refine List.foldlRecOn t.vars.toList _ (motive := fun m : Array Bool => m.size = t.vars.size)
    Array.size_replicate fun marks hm v _ => ?_
  split
  · rw [Array.size_setIfInBounds, hm]
  · exact hm

theorem betweenPasses_initialState : BetweenPasses t (initialState t) := by
  refine ⟨⟨?_, fun a i _ hfired => ?_⟩, rfl, fun _ h => h, fun v w _ => ?_⟩
  · rw [size_propositions, initialState]
    refine List.foldlRecOn _ _ (motive := fun m : Array Bool => m.size = t.vars.size)
      Array.size_replicate fun marks hm v _ => ?_
    rw [Array.size_setIfInBounds, hm]
  · -- nothing has been applied yet
    simp only [initialState, Array.getD_eq_getD_getElem?, Array.getElem?_replicate] at hfired
    split at hfired <;> cases hfired
  · exact Relation.contains_empty v w

theorem betweenPasses_fixpoint (limit : Nat) : BetweenPasses t (fixpoint t limit) :=
  run_induction t (fun _ h => h.pass) limit (betweenPasses_initialState t)

/-- **The state in which the computation stops is closed**, unless it stops at once and then has
no pairs. -/
theorem closed_fixpoint {limit : Nat} (hquiet : (fixpoint t limit).isQuiet = true) :
    Closed t (fixpoint t limit) ∨ ∀ v w, (fixpoint t limit).mutex.contains v w = false := by
  -- if the last state is quiet, it is the initial one or a quiet pass has led to it
  have h : BetweenPasses t (fixpoint t limit) ∧ ((fixpoint t limit).isQuiet = true →
      Closed t (fixpoint t limit) ∨ ∀ v w, (fixpoint t limit).mutex.contains v w = false) :=
    run_induction t
      (P := fun s => BetweenPasses t s ∧ (s.isQuiet = true →
        Closed t s ∨ ∀ v w, s.mutex.contains v w = false))
      (fun _ h => ⟨h.1.pass, fun hq => Or.inl (closed_of_isQuiet h.1 hq)⟩) limit
      ⟨betweenPasses_initialState t, fun _ => Or.inr fun v w => Relation.contains_empty v w⟩
  exact h.2 hquiet

end TemporalPlanning.Mutex
