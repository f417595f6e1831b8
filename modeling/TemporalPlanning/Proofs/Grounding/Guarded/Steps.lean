import TemporalPlanning.Proofs.Grounding.Guarded.Lookups
import TemporalPlanning.Proofs.Grounding.Steps
/-!
Safe steps and guarded steps.

A step is safe if it reports no errors but those that are foreseen. Safe steps that read no tables
are left as they are. A step that reads tables has a guarded one, which must end as it does;
`Guarded.Guards` says so, and it carries along what the step ensures, as positions that are read are
often known from the state before.
-/
set_option autoImplicit false

namespace TemporalPlanning.Grounding

variable {α β : Type} {E : Error → Prop} {I : State → Prop}

/-! ## Safe steps -/

/-- From every state with an invariant, a step keeps the invariant and its result has a property,
unless it reports an error that is foreseen. -/
def Step.Safe (E : Error → Prop) (I : State → Prop) (x : Step α) (P : α → Prop) : Prop :=
  ∀ s, I s → (∀ e, x.run s = .error e → E e) ∧ x.Ensures s fun a s' => I s' ∧ P a

/-- The same for an attempt; its result has the property if there is one. -/
def Attempt.Safe (E : Error → Prop) (I : State → Prop) (x : Attempt α) (P : α → Prop) : Prop :=
  Step.Safe E I x.run fun a? => ∀ a, a? = some a → P a

namespace Step

variable {P : α → Prop} {Q : β → Prop}

theorem Safe.mono {x : Step α} {R : α → Prop} (hx : x.Safe E I P) (h : ∀ a, P a → R a) :
    x.Safe E I R :=
  fun s hs => ⟨(hx s hs).1, (hx s hs).2.mono fun a _ ⟨hI, ha⟩ => ⟨hI, h a ha⟩⟩

theorem safe_pure {a : α} (h : P a) : Safe E I (pure a) P :=
  fun _ hs => ⟨fun _ hrun => (by cases hrun), ensures_pure.mpr ⟨hs, h⟩⟩

/-- Only foreseen errors are thrown. -/
theorem safe_throw {e : Error} (h : E e) : Safe E I (throw e : Step α) P :=
  fun _ _ => ⟨fun _ hrun => (by cases hrun; exact h), ensures_throw⟩

/-- A computation that is known to succeed. -/
theorem safe_lift_bind {x : Except Error α} {a : α} (hx : x = .ok a) {f : α → Step β}
    (hf : (f a).Safe E I Q) : Safe E I (liftM x >>= f) Q := by
  rw [hx]
  exact fun s hs => hf s hs

theorem safe_get : Safe E I get I :=
  fun _ hs => ⟨fun _ hrun => (by cases hrun), ensures_get.mpr ⟨hs, hs⟩⟩

theorem safe_set {s' : State} (h : I s') : Safe E I (set s') fun _ => True :=
  fun _ _ => ⟨fun _ hrun => (by cases hrun), ensures_set.mpr ⟨h, trivial⟩⟩

theorem Safe.bind {x : Step α} {f : α → Step β} (hx : x.Safe E I P)
    (hf : ∀ a, P a → (f a).Safe E I Q) : Safe E I (x >>= f) Q := by
  refine fun s hs => ⟨fun e hrun => ?_, ensures_bind.mpr ?_⟩
  · obtain ⟨herror, hensures⟩ := hx s hs
    rw [StateT.run_bind] at hrun
    cases hx' : x.run s with
    | error e' =>
      rw [hx'] at hrun
      cases hrun
      exact herror e hx'
    | ok result =>
      obtain ⟨a, s'⟩ := result
      rw [hx'] at hrun
      obtain ⟨hs', ha⟩ := hensures a s' hx'
      exact (hf a ha s' hs').1 e hrun
  · exact (hx s hs).2.mono fun a s' ⟨hs', ha⟩ => (hf a ha s' hs').2

/-- The invariant is what repetitions hand on. -/
theorem safe_forM {f : α → Step PUnit} {as : List α}
    (h : ∀ a ∈ as, (f a).Safe E I fun _ => True) : Safe E I (as.forM f) fun _ => True := by
  induction as with
  | nil => exact safe_pure trivial
  | cons a as ih =>
    obtain ⟨ha, has⟩ := List.forall_mem_cons.mp h
    exact Safe.bind ha fun _ _ => ih has

theorem safe_mapM {f : α → Step β} {as : List α} (h : ∀ a ∈ as, (f a).Safe E I Q) :
    Safe E I (as.mapM f) fun bs => ∀ b ∈ bs, Q b := by
  induction as with
  | nil => exact safe_pure fun b hb => by cases hb
  | cons a as ih =>
    obtain ⟨ha, has⟩ := List.forall_mem_cons.mp h
    rw [List.mapM_cons]
    exact ha.bind fun b hb => (ih has).bind fun bs hbs =>
      safe_pure (List.forall_mem_cons.mpr ⟨hb, hbs⟩)

theorem safe_mapM_expression {f : α → Step β} {e : Expression α}
    (h : ∀ a ∈ e.atoms, (f a).Safe E I Q) :
    Safe E I (e.mapM f) fun e' => ∀ b ∈ e'.atoms, Q b := by
  induction e using Expression.operandsInduction with
  | atom a =>
    rw [Expression.mapM_atom, map_eq_pure_bind]
    exact (Expression.forall_mem_atoms_atom.mp h).bind fun b hb =>
      safe_pure (Expression.forall_mem_atoms_atom.mpr hb)
  | node op es ih =>
    rw [Expression.mapM_node]
    refine (safe_mapM fun e he => ih e he fun a ha =>
      h a (Expression.mem_atoms_node.mpr ⟨e, he, ha⟩)).bind fun es' hes' => safe_pure ?_
    intro b hb
    obtain ⟨e', he', hb⟩ := Expression.mem_atoms_node.mp hb
    exact hes' e' he' b hb

end Step

namespace Attempt

variable {P : α → Prop} {Q : β → Prop}

theorem safe_pure {a : α} (h : P a) : Safe E I (pure a) P :=
  Step.safe_pure (a := some a) fun _ ha => by cases ha; exact h

theorem safe_failure : Safe E I (failure : Attempt α) P :=
  Step.safe_pure (a := (none : Option α)) fun _ ha => by cases ha

theorem safe_step {x : Step α} (hx : x.Safe E I P) : Safe E I (liftM x) P :=
  Step.Safe.bind hx fun a ha => Step.safe_pure fun _ ha' => by cases ha'; exact ha

theorem safe_lift_bind {x : Except Error α} {a : α} (hx : x = .ok a) {f : α → Attempt β}
    (hf : (f a).Safe E I Q) : Safe E I (liftM x >>= f) Q := by
  rw [hx]
  exact fun s hs => hf s hs

theorem Safe.bind {x : Attempt α} {f : α → Attempt β} (hx : x.Safe E I P)
    (hf : ∀ a, P a → (f a).Safe E I Q) : Safe E I (x >>= f) Q := by
  rw [Safe, OptionT.run_bind]
  refine Step.Safe.bind hx fun a? ha? => ?_
  cases a? with
  | none => exact Step.safe_pure fun _ h => by cases h
  | some a => exact hf a (ha? a rfl)

theorem safe_mapM {f : α → Attempt β} {as : List α} (h : ∀ a ∈ as, (f a).Safe E I Q) :
    Safe E I (as.mapM f) fun bs => ∀ b ∈ bs, Q b := by
  induction as with
  | nil => exact safe_pure fun b hb => by cases hb
  | cons a as ih =>
    obtain ⟨ha, has⟩ := List.forall_mem_cons.mp h
    rw [List.mapM_cons]
    exact ha.bind fun b hb => (ih has).bind fun bs hbs =>
      safe_pure (List.forall_mem_cons.mpr ⟨hb, hbs⟩)

theorem safe_mapM_expression {f : α → Attempt β} {e : Expression α}
    (h : ∀ a ∈ e.atoms, (f a).Safe E I Q) :
    Safe E I (e.mapM f) fun e' => ∀ b ∈ e'.atoms, Q b := by
  induction e using Expression.operandsInduction with
  | atom a =>
    rw [Expression.mapM_atom, map_eq_pure_bind]
    exact (Expression.forall_mem_atoms_atom.mp h).bind fun b hb =>
      safe_pure (Expression.forall_mem_atoms_atom.mpr hb)
  | node op es ih =>
    rw [Expression.mapM_node]
    refine (safe_mapM fun e he => ih e he fun a ha =>
      h a (Expression.mem_atoms_node.mpr ⟨e, he, ha⟩)).bind fun es' hes' => safe_pure ?_
    intro b hb
    obtain ⟨e', he', hb⟩ := Expression.mem_atoms_node.mp hb
    exact hes' e' he' b hb

end Attempt

/-! ## Guarded steps -/

namespace Guarded

/-- A guarded step of grounding. -/
abbrev Step := StateT State Guarded

/-- A step that reads no table. -/
def report (x : Grounding.Step α) : Step α := fun s => unguarded (x.run s)

/-- In a state, a guarded step ends as the step that it guards, which reports no errors but those
that are foreseen, and otherwise its result and the state after it have a property. -/
structure Guards (E : Error → Prop) (s : State) (c : Step α) (x : Grounding.Step α)
    (Q : α → State → Prop) : Prop where
  mirrors : Mirrors E (c.run s) (x.run s)
  ensures : x.Ensures s Q

variable {s : State} {Q : α → State → Prop} {R : β → State → Prop}

theorem Guards.mono {c : Step α} {x : Grounding.Step α} {Q' : α → State → Prop}
    (h : Guards E s c x Q) (hQ : ∀ a s', Q a s' → Q' a s') : Guards E s c x Q' :=
  ⟨h.mirrors, h.ensures.mono hQ⟩

/-- Another property that the step is known to ensure. -/
theorem Guards.and {c : Step α} {x : Grounding.Step α} {Q' : α → State → Prop}
    (h : Guards E s c x Q) (hx : x.Ensures s Q') :
    Guards E s c x fun a s' => Q a s' ∧ Q' a s' :=
  ⟨h.mirrors, fun a s' hrun => ⟨h.ensures a s' hrun, hx a s' hrun⟩⟩

/-- A step without guards of its own is run as it is, if its errors are foreseen. -/
theorem guards_report {x : Grounding.Step α} (herror : ∀ e, x.run s = .error e → E e)
    (h : x.Ensures s Q) : Guards E s (report x) x Q :=
  ⟨mirrors_unguarded herror, h⟩

/-- In particular a safe one. -/
theorem guards_safe {x : Grounding.Step α} {P : α → Prop} (hx : x.Safe E I P) (hs : I s) :
    Guards E s (report x) x fun a s' => I s' ∧ P a :=
  guards_report (hx s hs).1 (hx s hs).2

theorem guards_pure {a : α} (h : Q a s) : Guards E s (pure a) (pure a) Q :=
  ⟨.ok (a, s), Step.ensures_pure.mpr h⟩

theorem guards_lift {c : Guarded α} {x : Except Error α} (h : Mirrors E c x)
    (hQ : ∀ a, x = .ok a → Q a s) : Guards E s (liftM c) (liftM x) Q := by
  refine ⟨?_, Step.ensures_lift.mpr hQ⟩
  cases h with
  | ok a => exact .ok (a, s)
  | error e he => exact .error e he

/-- A computation that succeeds. -/
theorem guards_unguarded {x : Except Error α} (hx : ∃ a, x = .ok a) (hQ : ∀ a, Q a s) :
    Guards E s (liftM (unguarded x)) (liftM x) Q :=
  guards_lift (mirrors_unguarded fun e he => by
    obtain ⟨a, ha⟩ := hx
    rw [ha] at he
    cases he) fun a _ => hQ a

/-- What the first step ensures is known when the guards of the second one are passed. -/
theorem Guards.bind {c : Step α} {x : Grounding.Step α} {k : α → Step β}
    {f : α → Grounding.Step β} (hx : Guards E s c x Q)
    (hf : ∀ a s', Q a s' → Guards E s' (k a) (f a) R) : Guards E s (c >>= k) (x >>= f) R := by
  refine ⟨?_, Step.ensures_bind.mpr (hx.ensures.mono fun a s' ha => (hf a s' ha).ensures)⟩
  rw [StateT.run_bind, StateT.run_bind]
  exact hx.mirrors.bind fun result hrun => (hf _ _ (hx.ensures _ _ hrun)).mirrors

/-- Reading the state passes no guard. -/
theorem guards_get_bind {k : State → Step β} {f : State → Grounding.Step β}
    (h : Guards E s (k s) (f s) R) : Guards E s (get >>= k) (get >>= f) R :=
  ⟨h.mirrors, Step.ensures_bind.mpr (Step.ensures_get.mpr h.ensures)⟩

/-- Looking at the state does not count. -/
theorem guards_bind_get {k : State → Step β} {x : Grounding.Step β} (h : Guards E s (k s) x R) :
    Guards E s (get >>= k) x R :=
  ⟨h.mirrors, h.ensures⟩

/-- Reading a table does not count. -/
theorem guards_bind_of_eq_ok {c : Guarded α} {a : α} {k : α → Step β} {x : Grounding.Step β}
    (hc : c = .ok a) (h : Guards E s (k a) x R) : Guards E s (liftM c >>= k) x R := by
  rw [hc]
  exact ⟨h.mirrors, h.ensures⟩

/-- Repetitions hand on what is needed to pass the guards of the next one. -/
theorem guards_forM {c : α → Step PUnit} {f : α → Grounding.Step PUnit} {as : List α}
    (h : ∀ a ∈ as, ∀ s, I s → Guards E s (c a) (f a) fun _ s' => I s') (hs : I s) :
    Guards E s (as.forM c) (as.forM f) fun _ s' => I s' := by
  induction as generalizing s with
  | nil => exact guards_pure hs
  | cons a as ih =>
    obtain ⟨ha, has⟩ := List.forall_mem_cons.mp h
    exact Guards.bind (ha s hs) fun _ s' hs' => ih has hs'

theorem guards_mapM {P : β → Prop} {c : α → Step β} {f : α → Grounding.Step β} {as : List α}
    (h : ∀ a ∈ as, ∀ s, I s → Guards E s (c a) (f a) fun b s' => I s' ∧ P b) (hs : I s) :
    Guards E s (as.mapM c) (as.mapM f) fun bs s' => I s' ∧ ∀ b ∈ bs, P b := by
  induction as generalizing s with
  | nil => exact guards_pure ⟨hs, fun b hb => by cases hb⟩
  | cons a as ih =>
    obtain ⟨ha, has⟩ := List.forall_mem_cons.mp h
    rw [List.mapM_cons, List.mapM_cons]
    refine (ha s hs).bind fun b s₁ ⟨hs₁, hb⟩ => (ih has hs₁).bind fun bs s₂ ⟨hs₂, hbs⟩ => ?_
    exact guards_pure ⟨hs₂, List.forall_mem_cons.mpr ⟨hb, hbs⟩⟩

end Guarded

end TemporalPlanning.Grounding
