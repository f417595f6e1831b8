import Mathlib.Data.List.Forall2
import TemporalPlanning.Grounding.State
/-!
What a step of grounding ensures.

A step may fail with an error, and an attempt may come to nothing. `Step.Ensures` and
`Attempt.Ensures` say what holds of the result and of the state afterwards whenever no error is
reported. The rules below take a step apart along its structure; the property that is wanted at the
end is arbitrary, and so is the type of the items a step is repeated for.
-/
set_option autoImplicit false

namespace TemporalPlanning.Grounding

variable {α β : Type}

/-- Whenever a step succeeds, its result and the state after it have a property. -/
def Step.Ensures (x : Step α) (s : State) (Q : α → State → Prop) : Prop :=
  ∀ a s', x.run s = .ok (a, s') → Q a s'

/-- Whenever an attempt reports no error, its result and the state after it have a property. -/
def Attempt.Ensures (x : Attempt α) (s : State) (Q : Option α → State → Prop) : Prop :=
  Step.Ensures x.run s Q

/-- An attempt that cannot come to nothing, and what it ensures. -/
def Attempt.Yields (x : Attempt α) (s : State) (Q : α → State → Prop) : Prop :=
  x.Ensures s fun a? s' => ∃ a, a? = some a ∧ Q a s'

/-! ## Results without an error -/

/-- Two computations in a row succeed if both do. -/
theorem except_bind_eq_ok {ε : Type} {x : Except ε α} {f : α → Except ε β} {b : β} :
    x >>= f = .ok b ↔ ∃ a, x = .ok a ∧ f a = .ok b := by
  cases x with
  | error e =>
    refine ⟨fun h => (by cases h), ?_⟩
    rintro ⟨a, h, -⟩
    cases h
  | ok a =>
    refine ⟨fun h => ⟨a, rfl, h⟩, ?_⟩
    rintro ⟨b, h, hf⟩
    cases h
    exact hf

/-- Fixed inputs are run as options, of which membership can be decided. -/
theorem eq_ok_of_mem_toOption {ε : Type} {x : Except ε α} {a : α} (h : a ∈ x.toOption) :
    x = .ok a := by
  cases x with
  | error e => cases h
  | ok b =>
    cases h
    rfl

/-- A list of computations succeeds if all do. -/
theorem except_mapM_eq_ok {ε : Type} {f : α → Except ε β} {as : List α} {bs : List β}
    (h : as.mapM f = .ok bs) : List.Forall₂ (fun a b => f a = .ok b) as bs := by
  induction as generalizing bs with
  | nil =>
    cases h
    exact List.Forall₂.nil
  | cons a as ih =>
    rw [List.mapM_cons, except_bind_eq_ok] at h
    obtain ⟨b, hb, h⟩ := h
    obtain ⟨bs', hbs, h⟩ := except_bind_eq_ok.mp h
    cases h
    exact List.Forall₂.cons hb (ih hbs)

/-- Every element of the second list belongs to one of the first. -/
theorem exists_of_forall₂ {R : α → β → Prop} {l : List α} {l' : List β}
    (h : List.Forall₂ R l l') {b : β} (hb : b ∈ l') : ∃ a ∈ l, R a b := by
  induction h with
  | nil => cases hb
  | cons hab _ ih =>
    rcases List.mem_cons.mp hb with rfl | hb
    · exact ⟨_, List.mem_cons_self, hab⟩
    · exact (ih hb).imp fun _ ⟨ha, hR⟩ => ⟨List.mem_cons_of_mem _ ha, hR⟩

theorem exists_of_forall₂_left {R : α → β → Prop} {l : List α} {l' : List β}
    (h : List.Forall₂ R l l') {a : α} (ha : a ∈ l) : ∃ b ∈ l', R a b :=
  exists_of_forall₂ (List.Forall₂.flip (R := flip R) h) ha

/-! ## Steps -/

namespace Step

variable {s : State} {Q R : α → State → Prop}

theorem Ensures.mono {x : Step α} (h : x.Ensures s Q) (hQ : ∀ a s', Q a s' → R a s') :
    x.Ensures s R :=
  fun a s' hrun => hQ a s' (h a s' hrun)

theorem ensures_pure {a : α} : Ensures (pure a) s Q ↔ Q a s :=
  ⟨fun h => h a s rfl, fun h _ _ hrun => by cases hrun; exact h⟩

theorem ensures_bind {x : Step α} {f : α → Step β} {Q : β → State → Prop} :
    Ensures (x >>= f) s Q ↔ x.Ensures s fun a s' => (f a).Ensures s' Q := by
  constructor
  · intro h a s' hx b s'' hf
    exact h b s'' (by rw [StateT.run_bind, except_bind_eq_ok]; exact ⟨_, hx, hf⟩)
  · intro h b s'' hrun
    rw [StateT.run_bind, except_bind_eq_ok] at hrun
    obtain ⟨⟨a, s'⟩, hx, hf⟩ := hrun
    exact h a s' hx b s'' hf

theorem ensures_map {x : Step α} {f : α → β} {Q : β → State → Prop} :
    Ensures (f <$> x) s Q ↔ x.Ensures s fun a s' => Q (f a) s' := by
  rw [map_eq_pure_bind, ensures_bind]
  exact ⟨fun h a s' hx => ensures_pure.mp (h a s' hx), fun h a s' hx =>
    ensures_pure.mpr (h a s' hx)⟩

theorem ensures_get {Q : State → State → Prop} : Ensures get s Q ↔ Q s s :=
  ⟨fun h => h s s rfl, fun h _ _ hrun => by cases hrun; exact h⟩

theorem ensures_set {t : State} {Q : PUnit → State → Prop} : Ensures (set t) s Q ↔ Q ⟨⟩ t :=
  ⟨fun h => h ⟨⟩ t rfl, fun h _ _ hrun => by cases hrun; exact h⟩

theorem ensures_modify {f : State → State} {Q : PUnit → State → Prop} :
    Ensures (modify f) s Q ↔ Q ⟨⟩ (f s) :=
  ⟨fun h => h ⟨⟩ (f s) rfl, fun h _ _ hrun => by cases hrun; exact h⟩

theorem ensures_throw {e : Error} : Ensures (throw e) s Q :=
  fun _ _ hrun => by cases hrun

theorem ensures_lift {x : Except Error α} :
    Ensures (liftM x) s Q ↔ ∀ a, x = .ok a → Q a s := by
  constructor
  · intro h a hx
    exact h a s (by rw [hx]; rfl)
  · intro h a s' hrun
    cases x with
    | error e => cases hrun
    | ok b =>
      cases hrun
      exact h _ rfl

/-- A step repeated for a list keeps what each repetition keeps. -/
theorem ensures_forM {f : α → Step PUnit} {as : List α} {I : State → Prop}
    (h : ∀ a ∈ as, ∀ s, I s → (f a).Ensures s fun _ s' => I s') (hs : I s) :
    Ensures (as.forM f) s fun _ s' => I s' := by
  induction as generalizing s with
  | nil => exact ensures_pure.mpr hs
  | cons a as ih =>
    show Ensures (f a >>= fun _ => as.forM f) s _
    rw [ensures_bind]
    exact (h a List.mem_cons_self s hs).mono fun _ s' hs' =>
      ih (fun b hb => h b (List.mem_cons_of_mem _ hb)) hs'

end Step

/-! ## Attempts -/

namespace Attempt

variable {s : State} {Q R : α → State → Prop}

theorem Ensures.mono {x : Attempt α} {Q R : Option α → State → Prop} (h : x.Ensures s Q)
    (hQ : ∀ a? s', Q a? s' → R a? s') : x.Ensures s R :=
  Step.Ensures.mono h hQ

theorem ensures_pure {a : α} {Q : Option α → State → Prop} :
    Ensures (pure a) s Q ↔ Q (some a) s :=
  Step.ensures_pure (a := some a)

/-- An attempt that comes to nothing leaves the state as it is. -/
theorem ensures_failure {Q : Option α → State → Prop} :
    Ensures (failure : Attempt α) s Q ↔ Q none s :=
  Step.ensures_pure (a := (none : Option α))

theorem ensures_bind {x : Attempt α} {f : α → Attempt β} {Q : Option β → State → Prop} :
    Ensures (x >>= f) s Q ↔
      x.Ensures s fun a? s' => match a? with
        | some a => (f a).Ensures s' Q
        | none => Q none s' := by
  rw [Ensures, OptionT.run_bind, Option.elimM, Step.ensures_bind]
  constructor <;> intro h a? s' hx <;> specialize h a? s' hx <;> cases a?
  · exact Step.ensures_pure.mp h
  · exact h
  · exact Step.ensures_pure.mpr h
  · exact h

/-- A step that is part of an attempt always comes to something. -/
theorem ensures_step {x : Step α} {Q : Option α → State → Prop} :
    Ensures (liftM x) s Q ↔ x.Ensures s fun a s' => Q (some a) s' := by
  show Step.Ensures (x >>= fun a => pure (some a)) s Q ↔ _
  rw [Step.ensures_bind]
  exact ⟨fun h a s' hx => Step.ensures_pure.mp (h a s' hx), fun h a s' hx =>
    Step.ensures_pure.mpr (h a s' hx)⟩

theorem ensures_lift {x : Except Error α} {Q : Option α → State → Prop} :
    Ensures (liftM x) s Q ↔ ∀ a, x = .ok a → Q (some a) s :=
  ensures_step.trans Step.ensures_lift

theorem Yields.mono {x : Attempt α} (h : x.Yields s Q) (hQ : ∀ a s', Q a s' → R a s') :
    x.Yields s R :=
  Ensures.mono h fun _ s' ⟨a, ha, hq⟩ => ⟨a, ha, hQ a s' hq⟩

theorem yields_pure {a : α} : Yields (pure a) s Q ↔ Q a s := by
  rw [Yields, ensures_pure]
  exact ⟨fun ⟨_, ha, h⟩ => (by cases ha; exact h), fun h => ⟨a, rfl, h⟩⟩

theorem yields_lift {x : Except Error α} : Yields (liftM x) s Q ↔ ∀ a, x = .ok a → Q a s := by
  rw [Yields, ensures_lift]
  exact forall₂_congr fun a _ => ⟨fun ⟨_, ha, h⟩ => (by cases ha; exact h), fun h => ⟨a, rfl, h⟩⟩

theorem Yields.bind {x : Attempt α} {f : α → Attempt β} {Q : β → State → Prop}
    (hx : x.Yields s R) (hf : ∀ a s', R a s' → (f a).Yields s' Q) : (x >>= f).Yields s Q := by
  refine Attempt.ensures_bind.mpr (Ensures.mono hx ?_)
  rintro _ s' ⟨a, rfl, ha⟩
  exact hf a s' ha

/-- An attempt that starts with one that cannot come to nothing. -/
theorem Yields.ensures_bind {x : Attempt α} {f : α → Attempt β} {Q : Option β → State → Prop}
    (hx : x.Yields s R) (hf : ∀ a s', R a s' → (f a).Ensures s' Q) : (x >>= f).Ensures s Q := by
  refine Attempt.ensures_bind.mpr (Ensures.mono hx ?_)
  rintro _ s' ⟨a, rfl, ha⟩
  exact hf a s' ha

theorem yields_step {x : Step α} : Yields (liftM x) s Q ↔ x.Ensures s Q := by
  rw [Yields, ensures_step]
  exact forall₃_congr fun a s' _ => ⟨fun ⟨_, ha, h⟩ => (by cases ha; exact h), fun h => ⟨a, rfl, h⟩⟩

end Attempt

end TemporalPlanning.Grounding
