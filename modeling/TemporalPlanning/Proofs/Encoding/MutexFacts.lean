import TemporalPlanning.Proofs.Encoding.Construct
import TemporalPlanning.Proofs.Encoding.Frames
/-!
Mutex facts of an encoded task.

Nothing but the last step of encoding makes facts mutex. It goes through the mutex pairs, and makes
the facts of the two propositions mutex in both orders, unless they are the same fact.
-/
set_option autoImplicit false

namespace TemporalPlanning.Encoding

open FiniteDomain FiniteDomain.Update

theorem mutex_ignoresTables : IgnoresTables Task.mutex :=
  ⟨fun _ _ => rfl, fun _ _ => rfl, fun _ _ => rfl⟩

/-- What is derived from a task does not affect its mutex facts. -/
theorem derive_keepsMutex (keepStatic : Bool) : (derive keepStatic).Keeps Task.mutex := by
  refine Keeps.bind (keeps_modify fun _ => rfl) fun _ => ?_
  refine (computeRequirers_keeps (fun _ _ => rfl) fun _ _ => rfl).bind fun _ => ?_
  refine (computeProducers_keeps fun _ _ => rfl).bind fun _ => ?_
  refine (computePermanentMutex_keeps (fun _ _ => rfl) fun _ _ => rfl).bind fun _ => ?_
  exact computeCosts_keeps (fun _ => rfl) (fun _ _ => rfl) (fun _ _ _ _ => rfl) keepStatic

theorem isMutex_addMutex (T : Task) (c d f g : FactCode) :
    (addMutex c d).Ensures T fun _ T' => T'.isMutex f g = true ↔
      T.isMutex f g = true ∨ (f = c ∧ g = d) ∨ (f = d ∧ g = c) := by
  refine ensures_modify.mpr ?_
  have hpair : ∀ {f g c d : FactCode},
      comparePairs (c.code, d.code) (f.code, g.code) = .eq ↔ f = c ∧ g = d := by
    rintro ⟨f⟩ ⟨g⟩ ⟨c⟩ ⟨d⟩
    rw [Std.LawfulEqCmp.compare_eq_iff_eq, Prod.mk.injEq, FactCode.mk.injEq, FactCode.mk.injEq]
    exact ⟨fun h => ⟨h.1.symm, h.2.symm⟩, fun h => ⟨h.1.symm, h.2.symm⟩⟩
  simp only [Task.isMutex, Std.TreeSet.contains_insert, Bool.or_eq_true, beq_iff_eq, hpair]
  tauto

namespace Encoder

variable (enc : Encoder)

/-- Two different facts are those of the propositions of a listed pair. -/
def AreFactsOf (pairs : List (VarId × VarId)) (f g : FactCode) : Prop :=
  ∃ v w, ((v, w) ∈ pairs ∨ (w, v) ∈ pairs) ∧ enc.placement.fact? v = some f ∧
    enc.placement.fact? w = some g ∧ f ≠ g

theorem areFactsOf_cons {pair : VarId × VarId} {rest : List (VarId × VarId)} {f g : FactCode} :
    enc.AreFactsOf (pair :: rest) f g ↔ enc.AreFactsOf [pair] f g ∨ enc.AreFactsOf rest f g := by
  simp only [AreFactsOf, List.mem_cons, List.not_mem_nil, or_false]
  constructor
  · rintro ⟨v, w, (h | h) | (h | h), hfacts⟩
    · exact Or.inl ⟨v, w, Or.inl h, hfacts⟩
    · exact Or.inr ⟨v, w, Or.inl h, hfacts⟩
    · exact Or.inl ⟨v, w, Or.inr h, hfacts⟩
    · exact Or.inr ⟨v, w, Or.inr h, hfacts⟩
  · rintro (⟨v, w, h, hfacts⟩ | ⟨v, w, h, hfacts⟩)
    · exact ⟨v, w, h.imp Or.inl Or.inl, hfacts⟩
    · exact ⟨v, w, h.imp Or.inr Or.inr, hfacts⟩

/-- The facts of a pair of propositions, if both have one. -/
theorem areFactsOf_singleton {v w : VarId} {c d f g : FactCode}
    (hv : enc.placement.fact? v = some c) (hw : enc.placement.fact? w = some d) :
    enc.AreFactsOf [(v, w)] f g ↔ c ≠ d ∧ ((f = c ∧ g = d) ∨ (f = d ∧ g = c)) := by
  constructor
  · rintro ⟨v', w', h | h, hv', hw', hne⟩
    · cases List.mem_singleton.mp h
      rw [hv] at hv'
      rw [hw] at hw'
      cases hv'
      cases hw'
      exact ⟨hne, Or.inl ⟨rfl, rfl⟩⟩
    · cases List.mem_singleton.mp h
      rw [hw] at hv'
      rw [hv] at hw'
      cases hv'
      cases hw'
      exact ⟨hne.symm, Or.inr ⟨rfl, rfl⟩⟩
  · rintro ⟨hne, ⟨rfl, rfl⟩ | ⟨rfl, rfl⟩⟩
    · exact ⟨v, w, Or.inl List.mem_cons_self, hv, hw, hne⟩
    · exact ⟨w, v, Or.inr List.mem_cons_self, hw, hv, hne.symm⟩

theorem addMutexPair_ensures (v w : VarId) (T : Task) :
    (enc.addMutexPair v w).Ensures T fun _ T' => ∀ f g,
      T'.isMutex f g = true ↔ T.isMutex f g = true ∨ enc.AreFactsOf [(v, w)] f g := by
  unfold addMutexPair
  split
  next c d hv hw =>
    split
    next hcd =>
      refine ensures_pure.mpr fun f g => ?_
      rw [enc.areFactsOf_singleton hv hw]
      exact ⟨Or.inl, fun h => h.resolve_right fun h => h.1 hcd⟩
    next hcd =>
      intro _ T' hrun f g
      have hadded : T'.isMutex f g = true ↔
          T.isMutex f g = true ∨ (f = c ∧ g = d) ∨ (f = d ∧ g = c) :=
        isMutex_addMutex T c d f g _ T' hrun
      rw [hadded, enc.areFactsOf_singleton hv hw, and_iff_right hcd]
  next hmissing =>
    refine ensures_pure.mpr fun f g => ⟨Or.inl, fun h => h.resolve_right ?_⟩
    -- one of the propositions has no fact
    rintro ⟨v', w', h | h, hv', hw', -⟩
    · cases List.mem_singleton.mp h
      exact hmissing f g hv' hw'
    · cases List.mem_singleton.mp h
      exact hmissing g f hw' hv'

theorem forM_addMutexPair_ensures (pairs : List (VarId × VarId)) (T : Task) :
    Update.Ensures (pairs.forM fun (v, w) => enc.addMutexPair v w) T fun _ T' => ∀ f g,
      T'.isMutex f g = true ↔ T.isMutex f g = true ∨ enc.AreFactsOf pairs f g := by
  induction pairs generalizing T with
  | nil =>
    refine ensures_pure.mpr fun f g => ⟨Or.inl, fun h => h.resolve_right ?_⟩
    rintro ⟨v, w, h | h, -⟩ <;> cases h
  | cons pair rest ih =>
    refine ensures_bind.mpr ((enc.addMutexPair_ensures pair.1 pair.2 T).mono fun _ T₁ h₁ => ?_)
    refine (ih T₁).mono fun _ T₂ h₂ f g => ?_
    rw [h₂, h₁, or_assoc, ← enc.areFactsOf_cons]

theorem addConstructs_isMutex (actions : List Grounded.Action) (mutex : Mutex.Relation) {T : Task}
    (hempty : T.mutex = ∅) : (enc.addConstructs actions mutex).Ensures T fun _ T' => ∀ f g,
      T'.isMutex f g = true ↔ enc.AreFactsOf mutex.toList f g := by
  refine ensures_bind.mpr ((enc.createActions_keeps mutex_ignoresTables.domains (fun _ _ => rfl)
    actions T).mono fun _ T₁ h₁ => ?_)
  refine ensures_bind.mpr ((enc.createGoals_keeps mutex_ignoresTables.domains (fun _ _ => rfl) _
    T₁).mono fun _ T₂ h₂ => ?_)
  refine ensures_bind.mpr (ensures_get.mpr ?_)
  refine ensures_bind.mpr (ensures_lift.mpr fun constraints _ => ?_)
  refine ensures_bind.mpr (ensures_lift.mpr fun metric _ => ?_)
  refine ensures_bind.mpr (ensures_modify.mpr ?_)
  refine (enc.forM_addMutexPair_ensures mutex.toList _).mono fun _ T₃ h₃ f g => ?_
  have hnone : ¬T₂.mutex.contains (f.code, g.code) = true := by
    rw [h₂, h₁, hempty]
    simp only [Std.TreeSet.contains_emptyc, Bool.false_eq_true, not_false_iff]
  rw [h₃]
  exact or_iff_right hnone

end Encoder

/-- **Mutex facts of an encoded task** are the facts of mutex propositions. -/
theorem encode_isMutex {t : Grounded.Task} {o : Options} {T : Task}
    (h : (encode t o).result = .ok T) {enc : Encoder} (henc : encoderOf t o = .ok enc)
    (f g : FactCode) : T.isMutex f g = true ↔
      enc.AreFactsOf (Mutex.fixpoint t o.passLimit).mutex.toList f g := by
  obtain ⟨p, T₀, T₁, T₂, hplace, hinitial, hconstructs, hderive⟩ := encode_phases h
  rw [encoderOf_eq hplace] at henc
  cases henc
  have hempty : T₁.mutex = ∅ :=
    (Encoder.setInitialValues_keeps _ mutex_ignoresTables T₀ () T₁ hinitial).trans
      (place_keeps t mutex_ignoresTables.placing o _ _ _ .empty p T₀ hplace)
  have hmutex := Encoder.addConstructs_isMutex _ _ _ hempty () T₂ hconstructs f g
  rw [← hmutex, Task.isMutex, Task.isMutex, derive_keepsMutex o.keepStatic T₂ () T hderive]

end TemporalPlanning.Encoding
