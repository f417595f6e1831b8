import TemporalPlanning.Lifted.Basic
import TemporalPlanning.Proofs.Grounding.Levels
/-!
Saturation and the closure.

The saturated task records every value with the level of the closure at which it is first reached,
and no other value; and its actions and goals are the instances that some level enables and whose
effects do not contradict each other, each of them once.
-/
set_option autoImplicit false

namespace TemporalPlanning.Grounding

open Grounded

variable {p : Lifted.Problem}

/-- A task records that a value is reached at a level. -/
def Recorded (t : Task) (v : ReachedValue) (level : Nat) : Prop :=
  ∃ entry ∈ t.vars.toList, entry.function = v.function ∧ entry.arguments = v.arguments ∧
    (v.value, level) ∈ entry.reached

/-- The goals or the ordinary actions of a task. -/
def actionsOf (t : Task) (goals : Bool) : List Action := if goals then t.goals else t.actions

/-- Some level of the closure enables an instance, and it is not discarded. -/
def IsReachable (p : Lifted.Problem) (i : Nat) (op : Lifted.Operator) (as : List ObjectId) : Prop :=
  p.operators[i]? = some op ∧ ¬Instance.IsDiscarded op as ∧
    ∃ k, Instance.IsEnabled (Setting.ofTask p.task) op as (closure p k)

/-- A task holds what the closure of a problem says: the values of each level, and the reachable
instances, each of them once. -/
structure IsSaturation (p : Lifted.Problem) (t : Task) : Prop where
  levels : ∀ k v, closure p k v ↔ ∃ l ≤ k, Recorded t v l
  /-- A value is recorded with one level only, the first one that holds it. -/
  first : ∀ v l, Recorded t v l ↔ FirstReached p l v
  instances : ∀ b i as, (∃ a ∈ actionsOf t b, a.operator = i ∧ a.arguments = as) ↔
    ∃ op, op.isGoal = b ∧ IsReachable p i op as
  once : ∀ b, ((actionsOf t b).map fun a => (a.operator, a.arguments)).Nodup

theorem IsResult.recorded_iff {s s' : State} {t : Task} (h : IsResult p s s' t) (v : ReachedValue)
    (l : Nat) : Recorded t v l ↔ s.Records v l := by
  rw [← h.creates.records_iff, Recorded, h.vars_eq]
  constructor
  · rintro ⟨entry, hentry, hrecord⟩
    obtain ⟨i, hi⟩ := List.mem_iff_getElem?.mp hentry
    rw [Array.getElem?_toList] at hi
    exact ⟨i, entry, hi, hrecord⟩
  · rintro ⟨i, entry, hentry, hrecord⟩
    refine ⟨entry, List.mem_of_getElem? (i := i) ?_, hrecord⟩
    rw [Array.getElem?_toList]
    exact hentry

theorem IsResult.forall₂ {s s' : State} {t : Task} (h : IsResult p s s' t) (b : Bool) :
    List.Forall₂ SameButPreferences (s.found b).toList (actionsOf t b) := by
  cases b
  · exact h.actions
  · exact h.goals

/-- Actions whose preferences have been resolved are instances of the same operators for the same
arguments. -/
theorem keys_eq_of_forall₂ {l l' : List Action} (h : List.Forall₂ SameButPreferences l l') :
    l'.map (fun a => (a.operator, a.arguments)) = l.map fun a => (a.operator, a.arguments) := by
  induction h with
  | nil => rfl
  | cons hab _ ih => rw [List.map_cons, List.map_cons, ih, hab]

section LastLevel

variable {k : Nat} {s : State} (h : AtLevel p k s) (hdone : s.values.size ≤ s.levelStart)
include h hdone

/-- A level without values of its own is no more than the levels before it. -/
theorem AtLevel.before_eq : before p k = closure p k := by
  refine funext fun v => propext ⟨fun hv => ?_, fun hv => ?_⟩
  · cases k with
    | zero => exact absurd hv id
    | succ k => exact Or.inl hv
  · rw [← h.old, List.take_of_length_le (by rw [Array.length_toList]; exact hdone)]
    exact (h.tracks.mem_values_iff v).mpr (Or.inl hv)

/-- It enables nothing new. -/
theorem AtLevel.closed {v : ReachedValue} (hv : IsEffect p (closure p k) v) : closure p k v := by
  have hbefore := h.before_eq hdone
  rw [← hbefore, ← h.old, List.take_of_length_le (by rw [Array.length_toList]; exact hdone)]
  exact (h.tracks.mem_values_iff v).mpr (Or.inr (hbefore ▸ hv))

theorem AtLevel.closure_of_closure {j : Nat} {v : ReachedValue} (hv : closure p j v) :
    closure p k v :=
  closure_of_closed p (fun _ hw => h.closed hdone hw) hv

/-- When the last level has been reached, every value is recorded with its level. -/
theorem AtLevel.records_iff (v : ReachedValue) (l : Nat) :
    s.Records v l ↔ FirstReached p l v := by
  rw [h.tracks.records, contributes_iff, h.before_eq hdone]
  constructor
  · rintro (⟨-, hfirst⟩ | ⟨-, hnew, heffect⟩)
    · exact hfirst
    · -- a value of the next level would be new, but the last level is closed
      exact absurd (h.closed hdone heffect) hnew
  · intro hfirst
    obtain ⟨j, hj, hfirst'⟩ := exists_firstReached p (h.closure_of_closure hdone hfirst.1)
    obtain rfl : l = j := FirstReached.unique p hfirst hfirst'
    exact Or.inl ⟨hj, hfirst⟩

/-- When the last level has been reached, every reachable instance has been found. -/
theorem AtLevel.found_iff (b : Bool) (i : Nat) (as : List ObjectId) :
    (∃ a ∈ (s.found b).toList, a.operator = i ∧ a.arguments = as) ↔
      ∃ op, op.isGoal = b ∧ IsReachable p i op as := by
  rw [h.tracks.found, h.before_eq hdone]
  constructor
  · -- all three speak about the operator at the same position
    rintro ⟨⟨⟨op, hi, hmatched⟩, op₁, h₁, huseful⟩, op₂, h₂, hgoal⟩
    obtain rfl : op = op₁ := Option.some.inj (hi.operator.symm.trans h₁)
    obtain rfl : op = op₂ := Option.some.inj (hi.operator.symm.trans h₂)
    exact ⟨op, hgoal, h₁, huseful.2, k, hi.admissible, huseful.1, hmatched⟩
  · rintro ⟨op, hgoal, hi, hkept, j, henabled⟩
    have hmatched : Instance.IsMatched op as (closure p k) :=
      henabled.matched.mono fun v hv => h.closure_of_closure hdone hv
    exact ⟨⟨⟨op, ⟨hi, henabled.admissible⟩, hmatched⟩, op, hi, henabled.identities, hkept⟩, op, hi,
      hgoal⟩

end LastLevel

theorem saturate_isSaturation (hvalid : p.validate = .ok ()) (hnames : HasDistinctNames p)
    (hfacts : HasNumericFacts p) : (saturate p).Ensures {} fun t _ => IsSaturation p t := by
  refine saturate_ensures ((explore_ensures hvalid hnames hfacts).mono ?_)
  rintro _ s₁ ⟨k, hlevel, hdone⟩ s₂ t ht
  have hfirst : ∀ v l, Recorded t v l ↔ FirstReached p l v := fun v l =>
    (ht.recorded_iff v l).trans (hlevel.records_iff hdone v l)
  refine ⟨fun k v => ?_, hfirst, fun b i as => ?_, fun b => ?_⟩
  · rw [closure_iff_firstReached]
    simp only [hfirst]
  · rw [← hlevel.found_iff hdone]
    -- an instance is told by its key, and the keys are the same
    have hkey : ∀ l : List Action, (∃ a ∈ l, a.operator = i ∧ a.arguments = as) ↔
        (i, as) ∈ l.map fun a => (a.operator, a.arguments) := fun l => by
      simp only [List.mem_map, Prod.mk.injEq]
    rw [hkey, hkey, keys_eq_of_forall₂ (ht.forall₂ b)]
  · rw [keys_eq_of_forall₂ (ht.forall₂ b)]
    exact hlevel.tracks.once b

/-- **Saturation computes the closure**, level by level: matching new values only, once for each
instance, finds what looking at all instances in every round would find. -/
theorem saturate_eq_closure (hvalid : p.validate = .ok ()) (hnames : HasDistinctNames p)
    (hfacts : HasNumericFacts p) {t : Task} (hsaturate : (saturate p).run' {} = .ok t) :
    IsSaturation p t := by
  obtain ⟨⟨t', s⟩, hrun, hresult⟩ := except_bind_eq_ok.mp hsaturate
  obtain rfl : t' = t := Except.ok.inj hresult
  exact saturate_isSaturation hvalid hnames hfacts t' s hrun

/-! ## Deciding the conventions -/

/-- All instances of the operators of a problem. -/
def allInstances (p : Lifted.Problem) : List (Nat × Lifted.Operator × List ObjectId) :=
  p.operators.zipIdx.flatMap fun (op, i) =>
    (completions (schemaOf p i op).unbound (schemaOf p i op).candidates).map (i, op, ·)

theorem mem_allInstances {i : Nat} {op : Lifted.Operator} {as : List ObjectId} :
    (i, op, as) ∈ allInstances p ↔ IsInstanceOf p i op as := by
  simp only [allInstances, List.mem_flatMap, List.mem_map, Prod.exists, Prod.mk.injEq,
    List.mem_zipIdx_iff_getElem?]
  constructor
  · rintro ⟨op', i', hop, as', has, rfl, rfl, rfl⟩
    exact ⟨hop, mem_completions_unbound.mp has⟩
  · rintro ⟨hop, has⟩
    exact ⟨op, i, hop, as, mem_completions_unbound.mpr has, rfl, rfl, rfl⟩

instance : Decidable (HasDistinctNames p) :=
  decidable_of_iff (∀ x ∈ allInstances p, ∀ y ∈ allInstances p, x.2.1.isGoal = false →
    y.2.1.isGoal = false → p.task.applied x.2.1.name x.2.2 = p.task.applied y.2.1.name y.2.2 →
      x.1 = y.1 ∧ x.2.2 = y.2.2) <| by
    constructor
    · intro h i j op op' as bs hi hj hgoal hgoal' has hbs hname
      exact h (i, op, as) (mem_allInstances.mpr ⟨hi, has⟩) (j, op', bs)
        (mem_allInstances.mpr ⟨hj, hbs⟩) hgoal hgoal' hname
    · rintro h ⟨i, op, as⟩ hx ⟨j, op', bs⟩ hy hgoal hgoal' hname
      have hi := mem_allInstances.mp hx
      have hj := mem_allInstances.mp hy
      exact h i j op op' as bs hi.operator hj.operator hgoal hgoal' hi.admissible hj.admissible
        hname

instance : Decidable (HasNumericFacts p) :=
  decidable_of_iff (∀ x ∈ allInstances p, ∀ literal ∈ numericLiterals x.2.1,
    ∃ fact ∈ p.task.init, fact.function = literal.function ∧
      fact.arguments = literal.arguments.map (denote x.2.2)) <| by
    constructor
    · intro h op hop as has
      obtain ⟨i, hi⟩ := List.mem_iff_getElem?.mp hop
      exact h (i, op, as) (mem_allInstances.mpr ⟨hi, has⟩)
    · rintro h ⟨i, op, as⟩ hx
      have hi := mem_allInstances.mp hx
      exact h op (List.mem_of_getElem? hi.operator) as hi.admissible

/-- Parcels `a` and `b` that may be `here` or `gone`, of which `a` is here. Sending one counts. -/
def parcels : Lifted.Problem where
  task := {
    domainName := "parcels"
    problemName := "two"
    types := #[⟨"#boolean", []⟩, ⟨"number", []⟩, ⟨"parcel", []⟩]
    objects := #[⟨"#false", [TypeId.boolean]⟩, ⟨"#true", [TypeId.boolean]⟩, ⟨"a", [⟨2⟩]⟩,
      ⟨"b", [⟨2⟩]⟩]
    functions := #[⟨"here", [⟨"?x", [⟨2⟩]⟩], [TypeId.boolean]⟩,
      ⟨"gone", [⟨"?x", [⟨2⟩]⟩], [TypeId.boolean]⟩, ⟨"sent", [], [TypeId.number]⟩]
    init := [⟨⟨0⟩, [⟨2⟩], .object .truth, 0.0⟩, ⟨⟨2⟩, [], .number 0.0, 0.0⟩]
    constraints := []
    metric := none }
  operators := [{
    name := "send"
    parameters := [⟨"?x", [⟨2⟩]⟩]
    durations := []
    atStart := ⟨[⟨⟨⟨0⟩, [.param 0]⟩, .object .truth⟩], [],
      [⟨⟨⟨0⟩, [.param 0]⟩, .object .falsity⟩], []⟩
    atEnd := ⟨[], [], [⟨⟨⟨1⟩, [.param 0]⟩, .object .truth⟩],
      [⟨.increase, ⟨⟨2⟩, []⟩, .atom (.number 1.0)⟩]⟩
    invariants := []
    numericInvariants := []
    identities := []
    preferences := []
    isGoal := false }]

theorem saturate_parcels : ∃ t, (saturate parcels).run' {} = .ok t ∧ IsSaturation parcels t ∧
    Recorded t ⟨⟨1⟩, [⟨2⟩], .truth⟩ 1 := by
  have hrun : ∃ t ∈ ((saturate parcels).run' {}).toOption,
      ∃ entry ∈ t.vars.toList, entry.function = ⟨1⟩ ∧ entry.arguments = [⟨2⟩] ∧
        (ObjectId.truth, 1) ∈ entry.reached := by
    decide +kernel
  obtain ⟨t, ht, hrecorded⟩ := hrun
  have hsaturate := eq_ok_of_mem_toOption ht
  exact ⟨t, hsaturate, saturate_eq_closure (by decide +kernel) (by decide +kernel)
    (by decide +kernel) hsaturate, hrecorded⟩

end TemporalPlanning.Grounding
