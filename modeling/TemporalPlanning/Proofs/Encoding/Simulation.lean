import Mathlib.Data.List.Nodup
import TemporalPlanning.Proofs.Encoding.Construct
import TemporalPlanning.Proofs.Mutex.Soundness
/-!
Encoded actions simulate grounded ones.

The effects of an encoded action change the encoding of a valuation as the effects of the grounded
action change the valuation. This holds unless a list of effects deletes a proposition of a shared
variable, adds none to it, and leaves another one true: the variable is then cleared all the same.
-/
set_option autoImplicit false

namespace TemporalPlanning.Encoding

open FiniteDomain

/-- Encoded effects do to the encodings of consistent valuations what the effects do to the
valuations, exactly when no variable is cleared that has a true proposition left. -/
def Encoder.Simulates (enc : Encoder) (T : Task) (es : List Grounded.Condition)
    (cs : List Condition) : Prop :=
  ∀ x, enc.IsConsistent x → enc.IsConsistent (x.apply es) →
    ((enc.stateOf T x).apply cs = enc.stateOf T (x.apply es) ↔ enc.IsCleared T es (x.apply es))

/-- The conventions for effects of a grounded task that take place together: a variable has one
effect, and propositions become true or false. -/
structure HasProperEffects (t : Grounded.Task) (es : List Grounded.Condition) : Prop where
  single : (es.map (·.var)).Nodup
  truthValue : ∀ e ∈ es, t.isProposition e.var = true → e.value = .truth ∨ e.value = .falsity

theorem HasProperEffects.areProper {t : Grounded.Task} (ht : t.IsNumbered) {p : Placement}
    {es : List Grounded.Condition} (h : HasProperEffects t es) :
    Encoder.AreProper ⟨t, Mutex.propositions t, p⟩ es :=
  ⟨fun _ he _ hd => List.inj_on_of_nodup_map h.single he hd, fun e he hliteral =>
    h.truthValue e he ((Mutex.isMarked_propositions ht e.var).mp hliteral)⟩

/-- **The actions of an encoded task simulate those of the grounded task**, at their starts and at
their ends. -/
theorem encode_simulates {p : Lifted.Problem} {keepStatic : Bool} {t : Grounded.Task}
    (hground : Grounding.ground p keepStatic = .ok t)
    (hproper : ∀ a ∈ t.actions, HasProperEffects t a.startEffects ∧ HasProperEffects t a.endEffects)
    {o : Options} {T : Task} (hencode : (encode t o).result = .ok T) :
    ∃ enc, encoderOf t o = .ok enc ∧
      List.Forall₂ (fun a b => enc.Simulates T a.startEffects b.startEffects ∧
        enc.Simulates T a.endEffects b.endEffects) (keptActions t o) T.actions.toList := by
  have ht := (Grounding.ground_isOrderly hground).numbered
  obtain ⟨p, hencoder, hp, -, hactions⟩ := encode_eq_ok hencode
  refine ⟨_, hencoder, ?_⟩
  -- kept actions are actions of the task, so their effects follow the conventions
  have hkept : ∀ a ∈ keptActions t o,
      HasProperEffects t a.startEffects ∧ HasProperEffects t a.endEffects :=
    fun a ha => hproper a (List.mem_filter.mp ha).1
  refine ((List.forall₂_and_left _ _).mpr ⟨hkept, hactions⟩).imp fun a b ⟨hproper, hencodes⟩ => ?_
  exact ⟨fun x hx hy =>
      Encoder.apply_effects_eq_iff hp hencodes.startEffects (hproper.1.areProper ht) hx hy,
    fun x hx hy =>
      Encoder.apply_effects_eq_iff hp hencodes.endEffects (hproper.2.areProper ht) hx hy⟩

/-! ## Deciding the conditions of the simulation -/

section Decidability

variable (enc : Encoder)

/-- The variable that a proposition is placed in. -/
def Encoder.placeOf (v : VarId) : Option Nat := (enc.placement.fact? v).map FactCode.var

instance (x : Grounded.Valuation) : Decidable (enc.IsConsistent x) :=
  decidable_of_iff (∀ v ∈ Mutex.marked enc.isProposition, ∀ w ∈ Mutex.marked enc.isProposition,
    (enc.placeOf v).isSome = true → enc.placeOf v = enc.placeOf w → x.IsTrue v → x.IsTrue w →
      v = w) <| by
    constructor
    · intro h v w var hv hw
      exact h v (Mutex.mem_marked.mpr hv.1) w (Mutex.mem_marked.mpr hw.1)
        (Option.isSome_iff_exists.mpr ⟨var, hv.2⟩) (hv.2.trans hw.2.symm)
    · intro h v hv w hw hsome hsame
      obtain ⟨var, hvar⟩ := Option.isSome_iff_exists.mp hsome
      exact h v w var ⟨Mutex.mem_marked.mp hv, hvar⟩
        ⟨Mutex.mem_marked.mp hw, hsame.symm.trans hvar⟩

instance (es : List Grounded.Condition) (var : Nat) : Decidable (enc.Adds es var) :=
  inferInstanceAs (Decidable (∃ e ∈ es, _))

instance (T : Task) (es : List Grounded.Condition) (y : Grounded.Valuation) :
    Decidable (enc.IsCleared T es y) :=
  decidable_of_iff (∀ e ∈ es, ∀ var ∈ (enc.placeOf e.var).toList,
    ∀ v ∈ Mutex.marked enc.isProposition, ¬((enc.isLiteral e.var = true ∧ e.value = .falsity) ∧
      (T.isBooleanAt var = false ∧ ¬enc.Adds es var) ∧ enc.IsIn v var ∧ y.IsTrue v)) <| by
    constructor
    · rintro h var hshared ⟨e, he, hin, hfalse⟩ hadds v hv htrue
      exact h e he var (Option.mem_toList.mpr hin.2) v (Mutex.mem_marked.mpr hv.1)
        ⟨⟨hin.1, hfalse⟩, ⟨hshared, hadds⟩, hv, htrue⟩
    · rintro h e he var hvar v _ ⟨⟨hliteral, hfalse⟩, ⟨hshared, hadds⟩, hv, htrue⟩
      exact h var hshared ⟨e, he, ⟨hliteral, Option.mem_toList.mp hvar⟩, hfalse⟩ hadds v hv htrue

instance (t : Grounded.Task) (es : List Grounded.Condition) : Decidable (HasProperEffects t es) :=
  decidable_of_iff ((es.map (·.var)).Nodup ∧
      ∀ e ∈ es, t.isProposition e.var = true → e.value = .truth ∨ e.value = .falsity)
    ⟨fun h => ⟨h.1, h.2⟩, fun h => ⟨h.single, h.truthValue⟩⟩

end Decidability

/-- Swapping two propositions that share a variable. -/
theorem encode_simulates_swap : ∃ (t : Grounded.Task) (T : Task) (enc : Encoder),
    Grounding.ground (Mutex.swapping [Mutex.swap]) true = .ok t ∧ (encode t {}).result = .ok T ∧
      encoderOf t {} = .ok enc ∧ ∃ ab ∈ (keptActions t {}).zip T.actions.toList,
        (t.initial.apply ab.1.endEffects).IsTrue ⟨1⟩ ∧
        (enc.stateOf T t.initial).apply ab.2.endEffects =
          enc.stateOf T (t.initial.apply ab.1.endEffects) := by
  have hrun : ∃ t ∈ (Grounding.ground (Mutex.swapping [Mutex.swap]) true).toOption,
      (∀ a ∈ t.actions, HasProperEffects t a.startEffects ∧ HasProperEffects t a.endEffects) ∧
      ∃ T ∈ (encode t {}).result.toOption, ∃ enc ∈ (encoderOf t {}).toOption,
        ∃ ab ∈ (keptActions t {}).zip T.actions.toList,
          (t.initial.apply ab.1.endEffects).IsTrue ⟨1⟩ ∧ enc.IsConsistent t.initial ∧
          enc.IsConsistent (t.initial.apply ab.1.endEffects) ∧
          enc.IsCleared T ab.1.endEffects (t.initial.apply ab.1.endEffects) := by
    decide +kernel
  obtain ⟨t, ht, hproper, T, hT, enc, henc, ⟨a, b⟩, hab, htrue, hx, hy, hcleared⟩ := hrun
  have hground := Grounding.eq_ok_of_mem_toOption ht
  have hencode := Grounding.eq_ok_of_mem_toOption hT
  have hencoder := Grounding.eq_ok_of_mem_toOption henc
  obtain ⟨enc', hencoder', hactions⟩ := encode_simulates hground hproper hencode
  rw [hencoder] at hencoder'
  cases hencoder'
  -- `swap` deletes `s` but adds `r`, which the same variable stands for
  have hsimulates := List.forall₂_zip hactions hab
  exact ⟨t, T, enc, hground, hencode, hencoder, (a, b), hab, htrue,
    (hsimulates.2 _ hx hy).mpr hcleared⟩

/-- Makes `r` false. -/
def clean : Lifted.Operator :=
  .ofHappenings "clean" .empty ⟨[], [], [.ofProposition 1 .falsity], []⟩

/-- The names of the propositions of a task and of its objects differ, also from the reserved
ones. -/
def HasProperNames (t : Grounded.Task) : Prop :=
  (["<true>", "<false>", "<undefined>"] ++ t.task.objects.toList.map (·.name) ++
    t.vars.toList.map fun v => t.varName v.index).Nodup

instance (t : Grounded.Task) : Decidable (HasProperNames t) :=
  inferInstanceAs (Decidable (_ : List _).Nodup)

/-- Where `s` and `r` share a variable, deleting `r` clears it, even while `s` is true. -/
theorem exists_not_simulated : ∃ (t : Grounded.Task) (T : Task) (enc : Encoder),
    Grounding.ground (Mutex.swapping [Mutex.swap, clean]) true = .ok t ∧ HasProperNames t ∧
      (∀ a ∈ t.actions, HasProperEffects t a.startEffects ∧ HasProperEffects t a.endEffects) ∧
      (encode t {}).result = .ok T ∧ encoderOf t {} = .ok enc ∧
      ∃ ab ∈ (keptActions t {}).zip T.actions.toList, enc.IsConsistent t.initial ∧
        enc.IsConsistent (t.initial.apply ab.1.endEffects) ∧
        (enc.stateOf T t.initial).apply ab.2.endEffects ≠
          enc.stateOf T (t.initial.apply ab.1.endEffects) := by
  have hrun : ∃ t ∈ (Grounding.ground (Mutex.swapping [Mutex.swap, clean]) true).toOption,
      HasProperNames t ∧
      (∀ a ∈ t.actions, HasProperEffects t a.startEffects ∧ HasProperEffects t a.endEffects) ∧
      ∃ T ∈ (encode t {}).result.toOption, ∃ enc ∈ (encoderOf t {}).toOption,
        ∃ ab ∈ (keptActions t {}).zip T.actions.toList, enc.IsConsistent t.initial ∧
          enc.IsConsistent (t.initial.apply ab.1.endEffects) ∧
          (enc.stateOf T t.initial).apply ab.2.endEffects 0 ≠
            enc.stateOf T (t.initial.apply ab.1.endEffects) 0 := by
    decide +kernel
  obtain ⟨t, ht, hnames, hproper, T, hT, enc, henc, ab, hab, hx, hy, hdiffer⟩ := hrun
  exact ⟨t, T, enc, Grounding.eq_ok_of_mem_toOption ht, hnames, hproper,
    Grounding.eq_ok_of_mem_toOption hT, Grounding.eq_ok_of_mem_toOption henc, ab, hab, hx, hy,
    fun heq => hdiffer (congrFun heq 0)⟩

end TemporalPlanning.Encoding
